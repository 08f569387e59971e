import Turbokube.Lease.Deadlines
import Turbokube.Lease.KeyIndex
import Turbokube.Store.Steps

/-!
# Revoking a lease

Batch by batch a revocation removes the attachments of a lease and deletes their keys.
While the index is exact and the attached keys are live, it deletes exactly these keys,
and it does not run out of batches.
-/

namespace Turbokube

open Encoding Lmdb DbKv

variable {t : Tables} {att : Bytes → UInt64} {id : UInt64}

/-- The attachments left when those of a lease are gone. -/
def detached (id : UInt64) (att : Bytes → UInt64) (k : Bytes) : UInt64 :=
  if att k = id then 0 else att k

theorem Indexes.of_without (h : Indexes t.leaseKey att) {ks : List Bytes}
    (hks : ∀ k ∈ ks, att k = id) :
    Indexes (Indexes.without id ks t.leaseKey) (fun k => if k ∈ ks then 0 else att k) where
  entry rk v hget := by
    rw [get_without] at hget
    split at hget
    · cases hget
    · exact h.entry rk v hget
  get id' k := by
    rw [get_without]
    split
    · rename_i hrk
      obtain ⟨k', hk', heq⟩ := hrk
      obtain ⟨rfl, rfl⟩ := DbLeaseKey.key_inj heq
      simp only [Option.isSome_none, Bool.false_eq_true, false_iff, hk', if_true]
      exact fun hc => hc.1 hc.2.symm
    · rename_i hrk
      rw [h.get]
      by_cases hk : k ∈ ks
      · have hid : id' ≠ id := fun hid => hrk ⟨k, hk, by rw [hid]⟩
        simp only [hk, if_true]
        exact ⟨fun hc => absurd (hc.2.symm.trans (hks k hk)) hid, fun hc => absurd hc.2.symm hc.1⟩
      · simp only [hk, if_false]

theorem length_without_lt (h : Indexes t.leaseKey att) (hid : id ≠ 0) {ks : List Bytes}
    (hne : ks ≠ []) (hks : ∀ k ∈ ks, att k = id) :
    (Indexes.without id ks t.leaseKey).entries.length < t.leaseKey.entries.length := by
  cases ks with
  | nil => exact absurd rfl hne
  | cons k ks =>
      have hget := h.get_eq id k
      rw [if_pos ⟨hid, hks k List.mem_cons_self⟩] at hget
      exact lt_of_le_of_lt (Indexes.length_without_le id ks _) (Table.length_del_lt hget)

theorem revokeKeys_eq (rev : Nat) (epoch : UInt64) (keys : List Bytes) (hid : id ≠ 0) {fuel : Nat}
    (hfuel : t.leaseKey.entries.length < fuel) (h : Indexes t.leaseKey att) (hok : t.kv.RecsOk)
    (hlive : ∀ k, att k = id → ValidKey k ∧ t.kv.Live k) :
    ∃ ks leaseKey, revokeKeys rev epoch id fuel t keys =
        .ok ({ t with kv := t.kv.tombstones rev 0 epoch ks, leaseKey := leaseKey }, keys ++ ks) ∧
      ks.Nodup ∧ (∀ k, k ∈ ks ↔ att k = id) ∧ Indexes leaseKey (detached id att) := by
  induction fuel generalizing t att keys with
  | zero => exact absurd hfuel (Nat.not_lt_zero _)
  | succ fuel ih =>
      obtain ⟨ks, hsweep, hnodup, hks, hnil⟩ := h.sweep_eq hid
      rw [revokeKeys, hsweep]
      simp only
      by_cases hempty : ks = []
      · subst hempty
        have hnone := hnil rfl
        refine ⟨[], t.leaseKey, by simp [Indexes.without], .nil, fun k => ?_, h.congr (fun k => ?_)⟩
        · simp [hnone k]
        · rw [detached, if_neg (hnone k)]
      · have hbatch : deleteBatchLoop rev 0 epoch ks t.kv {} none =
            .ok (t.kv.tombstones rev 0 epoch ks) :=
          deleteBatchLoop_eq hok hnodup (fun k hk => hlive k (hks k hk)) {}
        rw [if_neg hempty, deleteBatch, hbatch]
        simp only
        have hatt : ∀ k, (if k ∈ ks then 0 else att k) = id → k ∉ ks ∧ att k = id := by
          intro k hk
          split at hk
          · exact absurd hk.symm hid
          · rename_i hmem
            exact ⟨hmem, hk⟩
        have hlive' : ∀ k, (if k ∈ ks then 0 else att k) = id →
            ValidKey k ∧ (t.kv.tombstones rev 0 epoch ks).Live k := by
          intro k hk
          obtain ⟨hmem, hk⟩ := hatt k hk
          obtain ⟨hvalid, kr, hhead, hdel⟩ := hlive k hk
          exact ⟨hvalid, kr, by rw [tombstones_records_ne hmem]; exact hhead, hdel⟩
        obtain ⟨ks', leaseKey, hrest, hnodup', hks', hindex⟩ :=
          @ih { t with
              kv := t.kv.tombstones rev 0 epoch ks
              leaseKey := Indexes.without id ks t.leaseKey } _ (keys ++ ks)
            ((length_without_lt h hid hempty hks).trans_le (Nat.le_of_lt_succ hfuel))
            (h.of_without hks) (hok.tombstones ks) hlive'
        refine ⟨ks ++ ks', leaseKey, ?_, ?_, fun k => ?_, hindex.congr (fun k => ?_)⟩
        · rw [hrest, tombstones_append, List.append_assoc]
        · refine List.nodup_append.mpr ⟨hnodup, hnodup', fun a ha b hb heq => ?_⟩
          exact (hatt b ((hks' b).mp hb)).1 (heq ▸ ha)
        · rw [List.mem_append, hks']
          constructor
          · rintro (hk | hk)
            · exact hks k hk
            · exact (hatt k hk).2
          · intro hk
            by_cases hmem : k ∈ ks
            · exact .inl hmem
            · exact .inr (by rw [if_neg hmem]; exact hk)
        · simp only [detached]
          by_cases hmem : k ∈ ks
          · simp [hmem, hks k hmem]
          · simp [hmem]

end Turbokube
