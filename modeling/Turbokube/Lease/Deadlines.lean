import Turbokube.Model.StateMachine

/-!
# Leases and their deadlines

`LeaseTables t m`: the lease table holds the leases `m`, and the index of deadlines has
the entry of each of them.  The index may have more: renewing a lease adds the entry of
the new deadline and leaves the old one in place.  `NoStale` says that it has not.
-/

namespace Turbokube

open Encoding Lmdb

namespace Lease

theorem fromBytes_bytes (l : Lease) : Lease.fromBytes (putUvarint l.id) l.bytes = .ok l := by
  have hlen : ¬ l.bytes.length < 6 := by
    have he := one_le_putUvarint_length l.expires
    have hr := one_le_putUvarint_length l.renewed
    rw [bytes, withChecksum_length, List.length_append]
    omega
  have hid : uvarint (putUvarint l.id) = .ok (l.id, []) := by
    simpa using uvarint_putUvarint l.id []
  have hrenewed : readUvarint (putUvarint l.renewed) = .ok (l.renewed, []) := by
    simpa using readUvarint_putUvarint l.renewed []
  rw [fromBytes, if_neg hlen, bytes, splitChecksum_withChecksum]
  simp [putUvarint_ne_nil, hid, readUvarint_putUvarint, hrenewed]

end Lease

/-- The table holds the leases `m` under their ids and nothing else. -/
structure Leases (t : Table Bytes Bytes) (m : UInt64 → Option Lease) : Prop where
  get : ∀ id, t.get (putUvarint id) = (m id).map Lease.bytes
  id : ∀ id l, m id = some l → l.id = id
  key : ∀ rk v, t.get rk = some v → ∃ id, rk = putUvarint id

namespace Leases

variable {t t' : Table Bytes Bytes} {m : UInt64 → Option Lease}

theorem empty : Leases .empty (fun _ => none) where
  get _ := rfl
  id _ _ h := by cases h
  key _ _ h := by cases h

theorem dbGet (h : Leases t m) (id : UInt64) : DbLease.get t id = .ok ((m id).getD {}) := by
  rw [DbLease.get, h.get]
  cases hm : m id with
  | none => rfl
  | some l =>
      have hid := h.id id l hm
      rw [Option.map_some]
      simp only
      rw [← hid, l.fromBytes_bytes]
      rfl

theorem dbPut (h : Leases t m) (l : Lease) :
    Leases (DbLease.put t l) (Function.update m l.id (some l)) where
  get id := by
    rw [DbLease.put, Table.get_put]
    by_cases hid : id = l.id
    · rw [if_pos (by rw [hid]), hid, Function.update_self]
      rfl
    · rw [if_neg (fun heq => hid (putUvarint_inj heq)), Function.update_of_ne hid, h.get]
  id id l' hl' := by
    by_cases hid : id = l.id
    · rw [hid, Function.update_self] at hl'
      rw [← Option.some.inj hl', hid]
    · rw [Function.update_of_ne hid] at hl'
      exact h.id id l' hl'
  key rk v hget := by
    rw [DbLease.put, Table.get_put] at hget
    split at hget
    · rename_i hrk
      exact ⟨l.id, hrk⟩
    · exact h.key rk v hget

theorem dbDel (h : Leases t m) {id : UInt64} {l : Lease} (hl : m id = some l) :
    ∃ t', DbLease.del t id = .ok t' ∧ Leases t' (Function.update m id none) := by
  refine ⟨t.del (putUvarint id), ?_, ?_, ?_, ?_⟩
  · rw [DbLease.del, Table.remove, h.get, hl]
    rfl
  · intro id'
    rw [Table.get_del]
    by_cases hid : id' = id
    · rw [if_pos (by rw [hid]), hid, Function.update_self]
      rfl
    · rw [if_neg (fun heq => hid (putUvarint_inj heq)), Function.update_of_ne hid, h.get]
  · intro id' l' hl'
    by_cases hid : id' = id
    · rw [hid, Function.update_self] at hl'
      cases hl'
    · rw [Function.update_of_ne hid] at hl'
      exact h.id id' l' hl'
  · intro rk v hget
    rw [Table.get_del] at hget
    split at hget
    · cases hget
    · exact h.key rk v hget

end Leases

namespace DbLeaseExp

theorem key_inj {a b : Lease} (h : key a = key b) : a.expires = b.expires ∧ a.id = b.id := by
  obtain ⟨he, hid⟩ := List.append_inj h (by simp)
  exact ⟨putUint64_inj he, putUvarint_inj hid⟩

/-- An entry is due from its deadline on. -/
theorem due_key (epoch : UInt64) (l : Lease) :
    due epoch (key l) (withChecksum (key l) []) =
      if epoch < l.expires then none else some l.id := by
  have hlen : ¬ (key l).length < 9 := by
    have := one_le_putUvarint_length l.id
    rw [key, List.length_append, putUint64_length]
    omega
  have htrim : trimChecksum (key l) (withChecksum (key l) []) = .ok [] := by
    simp [trimChecksum]
  have hid : uvarint ((key l).drop 8) = .ok (l.id, []) := by
    rw [key, List.drop_left' (putUint64_length l.expires)]
    simpa using uvarint_putUvarint l.id []
  rw [due, htrim]
  simp only [if_neg hlen, hid]
  rw [key, uint64_putUint64_append]

end DbLeaseExp

structure LeaseTables (t : Tables) (m : UInt64 → Option Lease) : Prop where
  lease : Leases t.lease m
  entry : ∀ rk v, t.leaseExp.get rk = some v →
    ∃ l : Lease, rk = DbLeaseExp.key l ∧ v = withChecksum rk []
  indexed : ∀ id l, m id = some l → (t.leaseExp.get (DbLeaseExp.key l)).isSome = true

/-- Every entry of the index belongs to a lease and is its deadline.  The id 0 stands for
no lease. -/
def NoStale (t : Tables) (m : UInt64 → Option Lease) : Prop :=
  ∀ l : Lease, l.id ≠ 0 → (t.leaseExp.get (DbLeaseExp.key l)).isSome = true →
    ∃ l' ∈ m l.id, l'.expires = l.expires

namespace LeaseTables

variable {t t' : Tables} {m : UInt64 → Option Lease}

theorem empty : LeaseTables .empty (fun _ => none) where
  lease := .empty
  entry _ _ h := by cases h
  indexed _ _ h := by cases h

theorem congr (h : LeaseTables t m) (hlease : t'.lease = t.lease)
    (hexp : t'.leaseExp = t.leaseExp) : LeaseTables t' m where
  lease := by rw [hlease]; exact h.lease
  entry := by rw [hexp]; exact h.entry
  indexed := by rw [hexp]; exact h.indexed

/-- Writing a lease and its entry. -/
theorem put (h : LeaseTables t m) (l : Lease) :
    LeaseTables { t with
      lease := DbLease.put t.lease l
      leaseExp := DbLeaseExp.put t.leaseExp l } (Function.update m l.id (some l)) where
  lease := h.lease.dbPut l
  entry rk v hget := by
    simp only [DbLeaseExp.put, Table.get_put] at hget
    split at hget
    · rename_i hrk
      exact ⟨l, hrk, by rw [← Option.some.inj hget, hrk]⟩
    · exact h.entry rk v hget
  indexed id l' hl' := by
    simp only [DbLeaseExp.put, Table.get_put]
    split
    · rfl
    · rename_i hne
      by_cases hid : id = l.id
      · rw [hid, Function.update_self] at hl'
        rw [← Option.some.inj hl'] at hne
        exact absurd rfl hne
      · rw [Function.update_of_ne hid] at hl'
        exact h.indexed id l' hl'

/-- The entry of a lease that was absent or keeps its deadline is the only one it has. -/
theorem noStale_put (hstale : NoStale t m) (l : Lease)
    (hfresh : l.id ≠ 0 → ∀ l' ∈ m l.id, l'.expires = l.expires) :
    NoStale { t with
      lease := DbLease.put t.lease l
      leaseExp := DbLeaseExp.put t.leaseExp l } (Function.update m l.id (some l)) := by
  intro x hx0 hx
  simp only [DbLeaseExp.put, Table.get_put] at hx
  split at hx
  · rename_i hkey
    obtain ⟨hexp, hid⟩ := DbLeaseExp.key_inj hkey
    exact ⟨l, by rw [hid, Function.update_self]; rfl, hexp.symm⟩
  · obtain ⟨l', hl', hexp⟩ := hstale x hx0 hx
    by_cases hid : x.id = l.id
    · refine ⟨l, by rw [hid, Function.update_self]; rfl, ?_⟩
      rw [hid] at hl' hx0
      rw [← hfresh hx0 l' hl', hexp]
    · exact ⟨l', by rw [Function.update_of_ne hid]; exact hl', hexp⟩

/-- Removing a lease and its entry. -/
theorem del (h : LeaseTables t m) {id : UInt64} {l : Lease} (hl : m id = some l) :
    ∃ lease leaseExp, DbLease.del t.lease id = .ok lease ∧
      DbLeaseExp.del t.leaseExp l = .ok leaseExp ∧
      LeaseTables { t with lease := lease, leaseExp := leaseExp } (Function.update m id none) ∧
      (NoStale t m →
        NoStale { t with lease := lease, leaseExp := leaseExp } (Function.update m id none)) := by
  obtain ⟨lease, hdel, hlease⟩ := h.lease.dbDel hl
  obtain ⟨v, hv⟩ := Option.isSome_iff_exists.mp (h.indexed id l hl)
  have hlid := h.lease.id id l hl
  refine ⟨lease, t.leaseExp.del (DbLeaseExp.key l), hdel, ?_, ⟨hlease, ?_, ?_⟩, ?_⟩
  · rw [DbLeaseExp.del, Table.remove, hv]
  · intro rk w hget
    simp only [Table.get_del] at hget
    split at hget
    · cases hget
    · exact h.entry rk w hget
  · intro id' l' hl'
    by_cases hid : id' = id
    · rw [hid, Function.update_self] at hl'
      cases hl'
    · rw [Function.update_of_ne hid] at hl'
      have hlid' := h.lease.id id' l' hl'
      rw [Table.get_del, if_neg (fun heq => hid ?_)]
      · exact h.indexed id' l' hl'
      · rw [← hlid', ← hlid]
        exact (DbLeaseExp.key_inj heq).2
  · intro hstale x hx0 hx
    simp only [Table.get_del] at hx
    split at hx
    · cases hx
    · rename_i hne
      obtain ⟨l', hl', hexp⟩ := hstale x hx0 hx
      by_cases hid : x.id = id
      · rw [hid, hl] at hl'
        refine absurd ?_ hne
        rw [DbLeaseExp.key, DbLeaseExp.key, ← hexp, hid, hlid, Option.some.inj hl']
      · exact ⟨l', by rw [Function.update_of_ne hid]; exact hl', hexp⟩

end LeaseTables

section Revoke

variable {t t' : Tables} {m : UInt64 → Option Lease} {rev : Nat} {epoch id : UInt64}

/-- A sweep of one lease leaves the attachments of the others. -/
theorem sweepLoop_frame {n : Nat} {l : List (Bytes × Bytes)} {s s' : Table Bytes Bytes}
    {batch batch' : List Bytes} (h : DbLeaseKey.sweepLoop id n l s batch = .ok (s', batch'))
    {id' : UInt64} (hid : id' ≠ id) (k : Bytes) :
    s'.get (DbLeaseKey.key id' k) = s.get (DbLeaseKey.key id' k) := by
  induction n generalizing l s batch with
  | zero =>
      obtain ⟨rfl, -⟩ := Prod.mk.inj (Except.ok.inj h)
      rfl
  | succ n ih =>
      cases l with
      | nil =>
          obtain ⟨rfl, -⟩ := Prod.mk.inj (Except.ok.inj h)
          rfl
      | cons e rest =>
          obtain ⟨rk, v⟩ := e
          rw [DbLeaseKey.sweepLoop] at h
          split at h
          · cases h
          · split at h
            · cases h
            · rename_i found key hread
              split at h
              · obtain ⟨rfl, -⟩ := Prod.mk.inj (Except.ok.inj h)
                rfl
              · rename_i hfound
                rw [ih h, Table.get_del, if_neg]
                rintro rfl
                rw [DbLeaseKey.key, readUvarint_putUvarint] at hread
                exact hfound (fun heq => hid (heq ▸ (Prod.mk.inj (Except.ok.inj hread)).1))

theorem revokeKeys_frame {fuel : Nat} {keys keys' : List Bytes}
    (h : revokeKeys rev epoch id fuel t keys = .ok (t', keys')) :
    t'.lease = t.lease ∧ t'.leaseExp = t.leaseExp ∧ ∀ id' ≠ id, ∀ k,
      t'.leaseKey.get (DbLeaseKey.key id' k) = t.leaseKey.get (DbLeaseKey.key id' k) := by
  induction fuel generalizing t keys with
  | zero => cases h
  | succ fuel ih =>
      rw [revokeKeys] at h
      split at h
      · cases h
      · rename_i leaseKey batch hsweep
        split at h
        · obtain ⟨rfl, -⟩ := Prod.mk.inj (Except.ok.inj h)
          exact ⟨rfl, rfl, fun id' hid k => sweepLoop_frame hsweep hid k⟩
        · split at h
          · cases h
          · obtain ⟨hlease, hexp, hkeys⟩ := ih h
            refine ⟨hlease, hexp, fun id' hid k => ?_⟩
            rw [hkeys id' hid k]
            exact sweepLoop_frame hsweep hid k

/-- Revoking removes the keys of a lease and then the lease with its entry, or finds no
lease. -/
theorem cmdLeaseRevoke_eq (h : LeaseTables t m) (rev : Nat) (epoch id : UInt64) :
    (m id = none ∨ id = 0) ∧ cmdLeaseRevoke t rev epoch id = .ok (t, [], codeNotFound) ∨
      ∃ l, m id = some l ∧ id ≠ 0 ∧
        ((∃ e, revokeKeys rev epoch id (t.leaseKey.entries.length + 1) t [] = .error e ∧
            cmdLeaseRevoke t rev epoch id = .error e) ∨
          ∃ t₁ keys t₂, revokeKeys rev epoch id (t.leaseKey.entries.length + 1) t [] =
              .ok (t₁, keys) ∧
            cmdLeaseRevoke t rev epoch id = .ok (t₂, keys, 1) ∧ t₂.kv = t₁.kv ∧
            t₂.leaseKey = t₁.leaseKey ∧ LeaseTables t₂ (Function.update m id none) ∧
            (NoStale t m → NoStale t₂ (Function.update m id none))) := by
  rw [cmdLeaseRevoke, h.lease.dbGet]
  cases hm : m id with
  | none => exact .inl ⟨.inl rfl, rfl⟩
  | some l =>
      have hlid := h.lease.id id l hm
      simp only [Option.getD_some, hlid]
      by_cases hid : id = 0
      · rw [if_pos hid]
        exact .inl ⟨.inr hid, rfl⟩
      · rw [if_neg hid]
        refine .inr ⟨l, rfl, hid, ?_⟩
        cases hkeys : revokeKeys rev epoch id (t.leaseKey.entries.length + 1) t [] with
        | error e => exact .inl ⟨e, rfl, rfl⟩
        | ok r =>
            obtain ⟨t₁, keys⟩ := r
            obtain ⟨hlease, hexp, -⟩ := revokeKeys_frame hkeys
            have h₁ : LeaseTables t₁ m := h.congr hlease hexp
            obtain ⟨lease, leaseExp, hdel, hdelExp, h₂, hstale⟩ := h₁.del hm
            refine .inr ⟨t₁, keys, { t₁ with lease := lease, leaseExp := leaseExp }, rfl, ?_, rfl,
              rfl, h₂, fun hns => hstale ?_⟩
            · simp only [hdelExp, hdel]
            · intro x hx0 hx
              rw [hexp] at hx
              exact hns x hx0 hx

end Revoke

end Turbokube
