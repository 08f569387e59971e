import Turbokube.Lease.Revoke
import Turbokube.Machine.Commands
import Turbokube.Store.Anchors

/-!
# A revocation never fails

`Sweepable t`: every attachment is of a key that has records.  Compaction never takes the
last record of a key, so this holds whatever a run is asked to do, and the deletions of a
revocation find every key that the index gives them.  The attachments need not be exact:
a key may be attached to several leases and may have been deleted since.
-/

namespace Turbokube

open Encoding Lmdb DbKv

structure Sweepable (t : Tables) : Prop where
  recs : t.kv.RecsOk
  anchored : t.kv.Anchored
  entry : ∀ rk v, t.leaseKey.get rk = some v →
    (∃ id k, rk = DbLeaseKey.key id k ∧ ValidKey k ∧ t.kv.Reaches k 0) ∧ v = withChecksum rk []

variable {E : Env} {t t' : Tables} {rev i : Nat} {epoch id : UInt64} {affected : List Bytes}

namespace Sweepable

theorem empty : Sweepable .empty :=
  ⟨RecsOk.empty, ⟨fun _ hp => (by cases hp), fun _ hp => (by cases hp)⟩, fun _ _ h => (by cases h)⟩

/-- Records are added and attachments removed. -/
theorem of_subset (h : Sweepable t) (hrecs : t'.kv.RecsOk) (hanchored : t'.kv.Anchored)
    (hmono : ∀ k w, t.kv.Reaches k w → t'.kv.Reaches k w)
    (hsub : ∀ rk v, t'.leaseKey.get rk = some v → t.leaseKey.get rk = some v) : Sweepable t' := by
  refine ⟨hrecs, hanchored, fun rk v hget => ?_⟩
  obtain ⟨⟨id, k, hrk, hkey, hreach⟩, hv⟩ := h.entry rk v (hsub rk v hget)
  exact ⟨⟨id, k, hrk, hkey, hmono k 0 hreach⟩, hv⟩

theorem congr (h : Sweepable t) (hkv : t'.kv = t.kv) (hkey : t'.leaseKey = t.leaseKey) :
    Sweepable t' := by
  refine ⟨?_, ?_, ?_⟩
  · rw [hkv]
    exact h.recs
  · rw [hkv]
    exact h.anchored
  · rw [hkv, hkey]
    exact h.entry

end Sweepable

theorem get_of_leaseKey_del {s s' : Table Bytes Bytes} {k : Bytes}
    (h : DbLeaseKey.del s id k = .ok s') {rk v : Bytes} (hget : s'.get rk = some v) :
    s.get rk = some v := by
  unfold DbLeaseKey.del Table.remove at h
  split at h
  · cases h
  · rename_i hremove
    split at hremove
    · cases hremove
    · obtain rfl := Except.ok.inj h
      obtain rfl := Except.ok.inj hremove
      rw [Table.get_del] at hget
      split at hget
      · cases hget
      · exact hget

/-- A put attaches its own key and no other. -/
theorem get_of_moveLease {s s' : Table Bytes Bytes} {req : PutRequest} {prevLease : UInt64}
    (h : moveLease s req prevLease = .ok s') {rk v : Bytes} (hget : s'.get rk = some v) :
    s.get rk = some v ∨ (∃ id, rk = DbLeaseKey.key id req.key) ∧ v = withChecksum rk [] := by
  have hattach : ∀ {s₁ : Table Bytes Bytes}, s₁.get rk = some v →
      s₁ = (if 0 < req.lease then DbLeaseKey.put s req.lease.toUInt64 req.key else s) →
      s.get rk = some v ∨ (∃ id, rk = DbLeaseKey.key id req.key) ∧ v = withChecksum rk [] := by
    rintro s₁ hget₁ rfl
    split at hget₁
    · rw [DbLeaseKey.put, Table.get_put] at hget₁
      split at hget₁
      · rename_i hrk
        exact .inr ⟨⟨_, hrk⟩, by rw [← Option.some.inj hget₁, hrk]⟩
      · exact .inl hget₁
    · exact .inl hget₁
  unfold moveLease at h
  split at h
  · simp only at h
    split at h
    · exact hattach (get_of_leaseKey_del h hget) rfl
    · obtain rfl := Except.ok.inj h
      exact hattach hget rfl
  · obtain rfl := Except.ok.inj h
    exact .inl hget

theorem get_of_detachAll {items : List Keyrecord} {s s' : Table Bytes Bytes}
    (h : detachAll items s = .ok s') {rk v : Bytes} (hget : s'.get rk = some v) :
    s.get rk = some v := by
  induction items generalizing s with
  | nil =>
      obtain rfl := Except.ok.inj h
      exact hget
  | cons krec rest ih =>
      rw [detachAll] at h
      split at h
      · split at h
        · cases h
        · rename_i hdel
          exact get_of_leaseKey_del hdel (ih h)
      · exact ih h

namespace Sweepable

theorem put {req : PutRequest} {res : PutResponse} (h : Sweepable t)
    (hput : cmdPut E t rev i epoch req = .ok (t', res, affected)) : Sweepable t' := by
  obtain ⟨prev, next, patched, hkv, hmove, -⟩ := cmdPut_inv hput
  obtain ⟨hanchored, hself, hmono⟩ := h.anchored.dbPut hkv
  obtain ⟨hne, -⟩ := key_of_put_ok hkv
  obtain ⟨hrev, -⟩ := put_tables hkv
  refine ⟨h.recs.put ⟨_, _, _⟩ hrev, hanchored, fun rk v hget => ?_⟩
  rcases get_of_moveLease hmove hget with hold | ⟨⟨id, hrk⟩, hv⟩
  · obtain ⟨⟨id, k, hrk, hkey, hreach⟩, hv⟩ := h.entry rk v hold
    exact ⟨⟨id, k, hrk, hkey, hmono k 0 hreach⟩, hv⟩
  · exact ⟨⟨id, req.key, hrk, hne, hself⟩, hv⟩

theorem deleteRange {req : DeleteRangeRequest} {res : DeleteRangeResponse} (h : Sweepable t)
    (hdel : cmdDeleteRange E t rev i epoch req = .ok (t', res, affected)) : Sweepable t' := by
  obtain ⟨items, hkv, hdetach, -⟩ := cmdDeleteRange_inv hdel
  obtain ⟨ks, -, heq, -⟩ := deleteRange_opStep h.recs hkv
  obtain ⟨hanchored, hmono⟩ := @Anchored.tombstones t.kv epoch rev i h.anchored ks
  rw [← heq] at hanchored hmono
  refine h.of_subset ?_ hanchored hmono (fun rk v hget => get_of_detachAll hdetach hget)
  rw [heq]
  exact h.recs.tombstones ks

end Sweepable

/-- A batch of keys with records is deleted, those that are tombstones already being
passed over. -/
theorem DbKv.deleteBatchLoop_total {db : DbKv} {keys : List Bytes} (hok : db.RecsOk)
    (hkeys : ∀ k ∈ keys, ValidKey k ∧ db.records k ≠ []) (subrev : Nat) (prev : Keyrecord) :
    ∃ ks, deleteBatchLoop rev subrev epoch keys db prev none =
      .ok (db.tombstones rev subrev epoch ks) := by
  induction keys generalizing db prev with
  | nil => exact ⟨[], rfl⟩
  | cons key keys ih =>
      obtain ⟨hvalid, hrecs⟩ := hkeys key List.mem_cons_self
      obtain ⟨rest, hset, -⟩ := setRange_records hvalid hrecs
      obtain ⟨kr, tail, htail⟩ := List.exists_cons_of_ne_nil hrecs
      have hdups : db.rev.dups key = kr.bytes :: tail.map Keyrecord.bytes := by
        rw [hok.dups_eq, htail, List.map_cons]
      have hkr : kr.key = key := hok.key_of_mem (by rw [htail]; exact List.mem_cons_self)
      have hkeep : ∃ prev', keepPrev prev key kr.bytes = (prev', none) := by
        rw [keepPrev, ← hkr, Keyrecord.fromBytes_bytes]
        exact ⟨_, rfl⟩
      obtain ⟨prev', hprev⟩ := hkeep
      rw [deleteBatchLoop, hset, hdups]
      simp only
      rw [if_neg (Nat.not_lt.mpr kr.twelve_le_bytes_length), if_neg (fun hne => hne rfl), hprev]
      simp only
      split
      · exact ih hok (fun k hk => hkeys k (List.mem_cons_of_mem _ hk)) prev'
      · have hmono := (@reaches_put db (db.tombstone rev subrev epoch key)
          { key := key, rev := revAt rev subrev true } rfl).2
        have hrest : ∀ k ∈ keys,
            ValidKey k ∧ (db.tombstone rev subrev epoch key).records k ≠ [] := by
          intro k hk
          obtain ⟨hk, hne⟩ := hkeys k (List.mem_cons_of_mem _ hk)
          exact ⟨hk, reaches_zero_iff.mp (hmono k 0 (reaches_zero_iff.mpr hne))⟩
        obtain ⟨ks, hks⟩ := ih (hok.tombstones [key]) hrest prev'
        exact ⟨key :: ks, hks⟩

namespace Sweepable

theorem indexed (h : Sweepable t) (rk v : Bytes) (hget : t.leaseKey.get rk = some v) :
    (∃ id k, rk = DbLeaseKey.key id k) ∧ v = withChecksum rk [] := by
  obtain ⟨⟨id, k, hrk, -⟩, hv⟩ := h.entry rk v hget
  exact ⟨⟨id, k, hrk⟩, hv⟩

theorem of_attached (h : Sweepable t) {k : Bytes}
    (hget : (t.leaseKey.get (DbLeaseKey.key id k)).isSome = true) :
    ValidKey k ∧ t.kv.records k ≠ [] := by
  obtain ⟨v, hv⟩ := Option.isSome_iff_exists.mp hget
  obtain ⟨⟨id', k', hrk, hkey, hreach⟩, -⟩ := h.entry _ v hv
  obtain ⟨-, rfl⟩ := DbLeaseKey.key_inj hrk
  exact ⟨hkey, reaches_zero_iff.mp hreach⟩

/-- What one batch of a revocation leaves. -/
theorem sweep (h : Sweepable t) (ks dead : List Bytes) :
    Sweepable { t with
      kv := t.kv.tombstones rev 0 epoch dead
      leaseKey := Indexes.without id ks t.leaseKey } := by
  obtain ⟨hanchored, hmono⟩ := @Anchored.tombstones t.kv epoch rev 0 h.anchored dead
  refine h.of_subset (h.recs.tombstones dead) hanchored hmono (fun rk v hget => ?_)
  simp only [Indexes.get_without] at hget
  split at hget
  · cases hget
  · exact hget

/-- One more batch than there are attachments is enough to remove all those of the lease. -/
theorem revokeKeys {fuel : Nat} (keys : List Bytes) (h : Sweepable t)
    (hfuel : t.leaseKey.entries.length < fuel) :
    ∃ t' keys', Turbokube.revokeKeys rev epoch id fuel t keys = .ok (t', keys') ∧ Sweepable t' ∧
      ∀ k, t'.leaseKey.get (DbLeaseKey.key id k) = none := by
  induction fuel generalizing t keys with
  | zero => exact absurd hfuel (Nat.not_lt_zero _)
  | succ fuel ih =>
      obtain ⟨ks, hsweep, -, hks, hnil⟩ := Indexes.sweep_entries h.indexed id
      rw [Turbokube.revokeKeys, hsweep]
      simp only
      by_cases hempty : ks = []
      · subst hempty
        exact ⟨_, _, rfl, h.congr rfl rfl, hnil rfl⟩
      · obtain ⟨dead, hdead⟩ := @deleteBatchLoop_total rev epoch t.kv ks h.recs
          (fun k hk => h.of_attached (hks k hk)) 0 {}
        rw [if_neg hempty, deleteBatch, hdead]
        simp only
        refine ih (keys ++ ks) (h.sweep ks dead) ?_
        cases ks with
        | nil => exact absurd rfl hempty
        | cons k ks =>
            obtain ⟨v, hv⟩ := Option.isSome_iff_exists.mp (hks k List.mem_cons_self)
            have hlt := lt_of_le_of_lt (Indexes.length_without_le id ks _) (Table.length_del_lt hv)
            exact hlt.trans_le (Nat.le_of_lt_succ hfuel)

end Sweepable

end Turbokube
