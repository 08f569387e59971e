import Turbokube.Lease.Sweeping
import Turbokube.Machine.Attached

/-!
# Attachments that can be removed

`Covered t`: the lease of what a key holds is in the index of attached keys, and the newest
record of the key names that lease or none.  The index may have more.  This is what puts and
deletions need to find the attachments they remove, and puts keep it that name no negative
lease, and none at all when they keep the present one (`PutRequest.Tidy`).
-/

namespace Turbokube

open Encoding Lmdb DbKv

structure Covered (t : Tables) : Prop where
  index : ∀ k, leaseOf (versions t.kv.log k) ≠ 0 →
    (t.leaseKey.get (DbLeaseKey.key (leaseOf (versions t.kv.log k)) k)).isSome = true
  named : ∀ k, ∀ v ∈ (versions t.kv.log k).head?,
    v.lease = 0 ∨ v.lease = leaseOf (versions t.kv.log k)

/-- The request names a lease above 0 or none, and none if it asks for the present one to be
kept. -/
def PutRequest.Tidy (req : PutRequest) : Prop :=
  0 ≤ req.lease ∧ (req.ignoreLease = true → req.lease = 0)

instance (req : PutRequest) : Decidable req.Tidy := by
  unfold PutRequest.Tidy
  infer_instance

variable {E : Env} {S U : Prop} {t t' : Tables} {bound lo hi rev i : Nat} {epoch id : UInt64}

section Index

variable {s s' : Table Bytes Bytes}

/-- A put can move its key when the present lease has its entry. -/
theorem moveLease_covers {req : PutRequest} {prevLease : UInt64} (hlease : 0 ≤ req.lease)
    (hprev : prevLease ≠ 0 → (s.get (DbLeaseKey.key prevLease req.key)).isSome = true) :
    ∃ s', moveLease s req prevLease = .ok s' ∧
      (∀ id k, k ≠ req.key → s'.get (DbLeaseKey.key id k) = s.get (DbLeaseKey.key id k)) ∧
      (req.ignoreLease = true → s' = s) ∧
      (req.ignoreLease = false → req.lease.toUInt64 ≠ 0 →
        (s'.get (DbLeaseKey.key req.lease.toUInt64 req.key)).isSome = true) := by
  by_cases hsame : req.ignoreLease = true ∨ prevLease = req.lease.toUInt64
  · refine ⟨s, moveLease_same hsame, fun _ _ _ => rfl, fun _ => rfl, fun hi hpos => ?_⟩
    rw [hi] at hsame
    rw [← hsame.resolve_left (by decide)] at hpos ⊢
    exact hprev hpos
  · rw [not_or, Bool.not_eq_true] at hsame
    obtain ⟨s', hmove, hframe, hself⟩ := moveLease_get hlease hsame.1 hsame.2 hprev
    refine ⟨s', hmove, fun id k hk => hframe _ (fun id' heq => hk (DbLeaseKey.key_inj heq).2),
      fun hi => absurd (hi.symm.trans hsame.1) (by decide), fun _ hpos => ?_⟩
    rw [hself, if_pos ⟨hpos, rfl⟩]
    rfl

end Index

namespace Covered

theorem empty : Covered .empty where
  index k hk := absurd rfl hk
  named k v hv := by cases hv

/-- Only the log and the index matter. -/
theorem congr (h : Covered t) (hlog : t'.kv.log = t.kv.log) (hkey : t'.leaseKey = t.leaseKey) :
    Covered t' where
  index := by rw [hlog, hkey]; exact h.index
  named := by rw [hlog]; exact h.named

/-- Tombstones, and an index that has lost entries of their keys only. -/
theorem tombstones {ks : List Bytes} {subrev : Nat} (h : Covered t)
    (hkv : t'.kv = t.kv.tombstones rev subrev epoch ks)
    (hindex : ∀ k, k ∉ ks → ∀ id, leaseOf (versions t.kv.log k) = id →
      t'.leaseKey.get (DbLeaseKey.key id k) = t.leaseKey.get (DbLeaseKey.key id k)) :
    Covered t' := by
  have hcases := versions_tombstones t.kv rev subrev epoch ks
  rw [← hkv] at hcases
  constructor
  case index =>
    intro k hk
    rcases hcases k with ⟨hmem, heq⟩ | ⟨-, v, vs, heq, hitem⟩
    · rw [heq] at hk ⊢
      rw [hindex k hmem _ rfl]
      exact h.index k hk
    · rw [heq, leaseOf, current_cons, hitem] at hk
      exact absurd rfl hk
  case named =>
    intro k v hv
    rcases hcases k with ⟨-, heq⟩ | ⟨hmem, v', vs, heq, hitem⟩
    · rw [heq] at hv ⊢
      exact h.named k v hv
    · -- the version of a tombstone names no lease
      rw [heq] at hv
      obtain rfl := Option.some.inj hv
      have hv' : v' ∈ versions t'.kv.log k := by rw [heq]; exact List.mem_cons_self
      obtain ⟨w, -, -, cur, rfl⟩ := write_of_mem_versions hv'
      cases hop : w.op with
      | delete =>
          left
          rw [Write.version, hop]
          rfl
      | put val lease ignoreValue ignoreLease =>
          cases cur with
          | none => simp [Write.version, entryAfter, hop] at hitem
          | some e => simp [Write.version, entryAfter, hop] at hitem

/-- The newest record of a key names the lease of what the key holds, or none. -/
theorem record_lease {ch : Bytes → List Version} (h : Covered t) (hrep : t.kv.Rep E S ch)
    (hlog : LogOk t.kv.log lo hi) {k : Bytes} {kr : Keyrecord}
    (hkr : (t.kv.records k).head? = some kr) :
    kr.lease = 0 ∨ kr.lease = leaseOf (versions t.kv.log k) := by
  rw [hrep.records_eq hlog, List.head?_map, Option.map_eq_some_iff] at hkr
  obtain ⟨v, hv, rfl⟩ := hkr
  obtain ⟨rest, hrest⟩ := hrep.kept k
  refine h.named k v ?_
  rw [← hrest, List.head?_append, hv]
  rfl

/-- The put of a tidy request finds the attachment it removes. -/
theorem put {ch : Bytes → List Version} (h : Covered t) (hrep : t.kv.Rep E S ch)
    (hlog : LogOk t.kv.log lo hi) {req : PutRequest} (hreq : req.Tidy) {db' : DbKv}
    {prev next : Kv} {patched : Bool}
    (hput : t.kv.put E rev i req.lease.toUInt64 epoch req.key req.value req.ignoreValue
      req.ignoreLease = .ok (db', prev, next, patched)) :
    ∃ leaseKey, moveLease t.leaseKey req prev.lease = .ok leaseKey ∧
      Covered { t with kv := db', leaseKey := leaseKey } := by
  obtain ⟨hother, hself, hnamed⟩ :=
    Attached.leaseOf_put (fun hi _ => by rw [hreq.2 hi]; rfl) hput
  obtain ⟨leaseKey, hmove, hframe, hkeep, hnew⟩ :=
    @moveLease_covers t.leaseKey req prev.lease hreq.1 (by
      rw [Attached.prev_lease hrep hlog hput]
      exact h.index req.key)
  refine ⟨leaseKey, hmove, ⟨fun k hk => ?_, fun k v hv => ?_⟩⟩
  · simp only at hk ⊢
    by_cases hkey : k = req.key
    · subst hkey
      rw [hself] at hk ⊢
      cases hi : req.ignoreLease with
      | true =>
          rw [hi] at hk
          rw [hkeep hi]
          exact h.index req.key hk
      | false =>
          rw [hi] at hk
          exact hnew hi hk
    · rw [hother k hkey] at hk ⊢
      rw [hframe _ k hkey]
      exact h.index k hk
  · simp only at hv ⊢
    by_cases hkey : k = req.key
    · subst hkey
      rw [hnamed v hv, hself]
      cases hi : req.ignoreLease with
      | true =>
          rw [hreq.2 hi]
          exact .inl rfl
      | false => exact .inr rfl
    · rw [hother k hkey] at hv ⊢
      exact h.named k v hv

/-- A deletion finds the attachments of the records it deletes. -/
theorem deleteRange {ch : Bytes → List Version} (h : Covered t) (hrep : t.kv.Rep E S ch)
    (hlog : LogOk t.kv.log lo hi) (rev subrev : Nat) (epoch : UInt64) (key rangeEnd : Bytes) :
    ∃ leaseKey, detachAll (t.kv.deleteTargets key rangeEnd) t.leaseKey = .ok leaseKey ∧
      Covered { t with
        kv := t.kv.tombstones rev subrev epoch
          ((t.kv.deleteTargets key rangeEnd).map Keyrecord.key)
        leaseKey := leaseKey } := by
  obtain ⟨leaseKey, hdetach, hget⟩ := @detachAll_get t.leaseKey
    (t.kv.deleteTargets key rangeEnd) (deleteTargets_nodup hrep.recsOk) (by
      intro kr hkr hne
      have hhead := (liveRec_eq_some_iff.mp ((mem_deleteTargets hrep.recsOk).mp hkr).1).1
      rcases h.record_lease hrep hlog hhead with hzero | heq
      · exact absurd hzero hne
      · rw [heq] at hne ⊢
        exact h.index kr.key hne)
  refine ⟨leaseKey, hdetach, h.tombstones rfl (fun k hk id _ => ?_)⟩
  rw [hget, if_neg]
  rintro ⟨kr, hkr, -, heq⟩
  exact hk ((DbLeaseKey.key_inj heq).2 ▸ List.mem_map_of_mem hkr)

end Covered

/-- A revocation reports every key that is attached to its lease. -/
theorem Sweepable.mem_of_revokeKeys {fuel : Nat} {keys keys' : List Bytes} (h : Sweepable t)
    (hkeys : Turbokube.revokeKeys rev epoch id fuel t keys = .ok (t', keys')) :
    keys ⊆ keys' ∧ ∀ k, (t.leaseKey.get (DbLeaseKey.key id k)).isSome = true → k ∈ keys' := by
  induction fuel generalizing t keys with
  | zero => cases hkeys
  | succ fuel ih =>
      obtain ⟨ks, hsweep, -, hks, hnil⟩ := Indexes.sweep_entries h.indexed id
      rw [Turbokube.revokeKeys, hsweep] at hkeys
      simp only at hkeys
      split at hkeys
      · rename_i hempty
        obtain ⟨rfl, rfl⟩ := Prod.mk.inj (Except.ok.inj hkeys)
        refine ⟨fun k hk => hk, fun k hk => ?_⟩
        rw [hnil hempty k] at hk
        cases hk
      · split at hkeys
        · cases hkeys
        · rename_i kv hbatch
          obtain ⟨dead, -, -, rfl, -⟩ := deleteBatchLoop_opStep h.recs hbatch
          obtain ⟨hsub, hmem⟩ := ih (h.sweep ks dead) hkeys
          refine ⟨fun k hk => hsub (List.mem_append_left _ hk), fun k hk => ?_⟩
          by_cases hin : k ∈ ks
          · exact hsub (List.mem_append_right _ hin)
          · refine hmem k ?_
            rwa [Indexes.get_without, if_neg]
            rintro ⟨k', hk', heq⟩
            exact hin ((DbLeaseKey.key_inj heq).2 ▸ hk')

/-- A revocation keeps the attachments of the keys it leaves. -/
theorem Covered.revoke {ch : Bytes → List Version} {m : UInt64 → Option Lease} (h : Covered t)
    (hrep : t.kv.Rep E S ch) (hlog : LogOk t.kv.log lo hi) (hs : Sweepable t)
    (hm : LeaseTables t m) {ks : List Bytes} {val : UInt64}
    (hrevoke : cmdLeaseRevoke t rev epoch id = .ok (t', ks, val)) : Covered t' := by
  rcases cmdLeaseRevoke_eq hm rev epoch id with
    ⟨-, heq⟩ | ⟨l, hl, hid, ⟨e, -, heq⟩ | ⟨t₁, keys, t₂, hkeys, heq, hkv, hkey, -⟩⟩
  · rw [heq] at hrevoke
    obtain ⟨rfl, -⟩ := Prod.mk.inj (Except.ok.inj hrevoke)
    exact h
  · rw [heq] at hrevoke
    cases hrevoke
  · rw [heq] at hrevoke
    obtain ⟨rfl, -⟩ := Prod.mk.inj (Except.ok.inj hrevoke)
    obtain ⟨dead, swept, -, hdead, -, -, hswept, -, hlive⟩ := revokeKeys_inv hrep.recsOk hkeys
    obtain ⟨-, -, hframe⟩ := revokeKeys_frame hkeys
    refine h.tombstones (hkv.trans hdead) (fun k hk id' hlease => ?_)
    rw [hkey]
    by_cases hsame : id' = id
    · -- a key of the lease is reported, so it is among the dead
      subst hsame
      have hne : leaseOf (versions t.kv.log k) ≠ 0 := by rw [hlease]; exact hid
      have hmem := (hs.mem_of_revokeKeys hkeys).2 k (hlease ▸ h.index k hne)
      rw [hswept, List.nil_append] at hmem
      exact absurd (hlive k hmem (Attached.live_of_lease hrep hlog hne).2) hk
    · exact hframe id' hsame k

end Turbokube
