import Mathlib.Data.List.Sort
import Turbokube.Lease.KeyIndex

/-!
# A sweep is exact

The entries of all leases lie in one table, ordered by the bytes of the lease id and the key.  No
encoding of an id is a prefix of another, so the entries of one lease are next to each other from
the place where a sweep starts.  A round of the revocation takes the next hundred of them, and the
rounds together take each once, in the order of the keys.
-/

namespace Turbokube

open Encoding Lmdb

/-- The list `ks` in batches that are full except for the last one. -/
structure InBatches (n : Nat) (ks : List Bytes) (batches : List (List Bytes)) : Prop where
  flatten : batches.flatten = ks
  ne_nil : ∀ b ∈ batches, b ≠ [] ∧ b.length ≤ n
  full : ∀ b ∈ batches.dropLast, b.length = n

/-- The deletions of a revocation, batch by batch. -/
def DbKv.deleteBatches (db : DbKv) (rev : Nat) (epoch : UInt64) (batches : List (List Bytes)) :
    Except Err DbKv :=
  batches.foldlM (fun db batch => db.deleteBatch rev 0 epoch batch) db

variable {t : Table Bytes Bytes} {id : UInt64} {ks : List Bytes}

theorem InBatches.nil {n : Nat} : InBatches n [] [] := ⟨rfl, by simp, by simp⟩

/-- One more batch in front.  It is full unless it is the only one. -/
theorem InBatches.cons {n : Nat} {ks : List Bytes} {batches : List (List Bytes)} (hn : 0 < n)
    (hks : ks ≠ []) (h : InBatches n (ks.drop n) batches) :
    InBatches n ks (ks.take n :: batches) where
  flatten := by rw [List.flatten_cons, h.flatten, List.take_append_drop]
  ne_nil b hb := by
    rcases List.mem_cons.mp hb with rfl | hb
    · refine ⟨fun hnil => ?_, List.length_take_le n ks⟩
      rcases List.take_eq_nil_iff.mp hnil with hzero | hnil
      · exact absurd hzero (Nat.ne_of_gt hn)
      · exact hks hnil
    · exact h.ne_nil b hb
  full b hb := by
    cases hbatches : batches with
    | nil =>
        rw [hbatches] at hb
        cases hb
    | cons c cs =>
        rw [List.dropLast_cons_of_ne_nil (by rw [hbatches]; simp)] at hb
        rcases List.mem_cons.mp hb with rfl | hb
        · have hrest : ks.drop n ≠ [] := by
            rw [← h.flatten, hbatches, List.flatten_cons]
            intro hnil
            exact (h.ne_nil c (by rw [hbatches]; simp)).1 (List.append_eq_nil_iff.mp hnil).1
          have hlt : n < ks.length := by
            by_contra hge
            exact hrest (List.drop_eq_nil_of_le (Nat.not_lt.mp hge))
          exact List.length_take_of_le (Nat.le_of_lt hlt)
        · exact h.full b hb

namespace LeaseKeyTable

theorem without (h : LeaseKeyTable t) (id : UInt64) (ks : List Bytes) :
    LeaseKeyTable (Indexes.without id ks t) := by
  intro rk v hget
  rw [Indexes.get_without] at hget
  split at hget
  · cases hget
  · exact h rk v hget

end LeaseKeyTable

/-- A lease has one list of keys. -/
theorem KeysOf.unique {ks' : List Bytes} (h : KeysOf t id ks) (h' : KeysOf t id ks') : ks = ks' :=
  h.sorted.eq_of_mem_iff h'.sorted (fun k => by rw [h.mem, h'.mem])

/-- The keys left after a batch. -/
theorem KeysOf.drop (h : KeysOf t id ks) (n : Nat) :
    KeysOf (Indexes.without id (ks.take n) t) id (ks.drop n) where
  sorted := h.sorted.drop
  mem k := by
    have hnodup : (ks.take n ++ ks.drop n).Nodup := by
      rw [List.take_append_drop]
      exact h.sorted.imp (fun hlt => ne_of_lt hlt)
    have hiff : (∃ k' ∈ ks.take n, DbLeaseKey.key id k = DbLeaseKey.key id k') ↔ k ∈ ks.take n := by
      constructor
      · rintro ⟨k', hk', heq⟩
        rwa [(DbLeaseKey.key_inj heq).2]
      · exact fun hk => ⟨k, hk, rfl⟩
    rw [Indexes.get_without]
    simp only [hiff]
    split
    · rename_i htaken
      simp only [Option.isSome_none, Bool.false_eq_true, iff_false]
      exact fun hleft => List.disjoint_of_nodup_append hnodup htaken hleft
    · rename_i hnot
      rw [← h.mem]
      constructor
      · exact fun hk => List.mem_of_mem_drop hk
      · intro hk
        rw [← List.take_append_drop n ks] at hk
        exact (List.mem_append.mp hk).resolve_left hnot

/-- Taking the keys batch by batch is taking them at once. -/
theorem Indexes.without_append (id : UInt64) (ks ks' : List Bytes) (t : Table Bytes Bytes) :
    Indexes.without id (ks ++ ks') t = Indexes.without id ks' (Indexes.without id ks t) :=
  List.foldl_append

/-- The loop of a revocation, with enough rounds for the keys that are left. -/
theorem revokeKeys_sweeps (rev : Nat) (epoch : UInt64) {fuel : Nat} {t : Tables}
    {ks : List Bytes} (h : LeaseKeyTable t.leaseKey) (hks : KeysOf t.leaseKey id ks)
    (hfuel : ks.length < fuel) (keys : List Bytes) :
    ∃ batches, InBatches DbLeaseKey.batchSize ks batches ∧
      revokeKeys rev epoch id fuel t keys =
        (t.kv.deleteBatches rev epoch batches).map (fun kv =>
          ({ t with kv := kv, leaseKey := Indexes.without id ks t.leaseKey }, keys ++ ks)) := by
  induction fuel generalizing t ks keys with
  | zero => exact absurd hfuel (Nat.not_lt_zero _)
  | succ fuel ih =>
      obtain ⟨ks', hks', hsweep⟩ := Indexes.sweep_keysOf h id
      obtain rfl := hks.unique hks'
      rw [revokeKeys, hsweep]
      simp only
      by_cases hnil : ks = []
      · subst hnil
        refine ⟨[], .nil, ?_⟩
        simp [Indexes.without, DbKv.deleteBatches, pure, Except.pure, Except.map]
      · have hbatch : ks.take DbLeaseKey.batchSize ≠ [] := by
          simp [DbLeaseKey.batchSize, hnil]
        have hlen : (ks.drop DbLeaseKey.batchSize).length < fuel := by
          have := List.length_pos_iff.mpr hnil
          rw [List.length_drop, DbLeaseKey.batchSize]
          omega
        rw [if_neg hbatch]
        cases hdel : t.kv.deleteBatch rev 0 epoch (ks.take DbLeaseKey.batchSize) with
        | error e =>
            -- the batches that would follow do not matter
            obtain ⟨batches, hbatched, -⟩ := @ih { t with
              leaseKey := Indexes.without id (ks.take DbLeaseKey.batchSize) t.leaseKey } _
              (h.without _ _) (hks.drop _) hlen []
            refine ⟨_, hbatched.cons (by decide) hnil, ?_⟩
            rw [DbKv.deleteBatches, List.foldlM_cons, hdel]
            rfl
        | ok kv =>
            obtain ⟨batches, hbatched, hloop⟩ := @ih { t with
              kv := kv
              leaseKey := Indexes.without id (ks.take DbLeaseKey.batchSize) t.leaseKey } _
              (h.without _ _) (hks.drop _) hlen (keys ++ ks.take DbLeaseKey.batchSize)
            refine ⟨_, hbatched.cons (by decide) hnil, ?_⟩
            rw [DbKv.deleteBatches, List.foldlM_cons, hdel]
            simp only
            rw [hloop, List.append_assoc, List.take_append_drop, ← Indexes.without_append,
              List.take_append_drop]
            rfl

theorem KeysOf.length_le (h : KeysOf t id ks) : ks.length ≤ t.entries.length := by
  have hsub : ks.map (DbLeaseKey.key id) ⊆ t.entries.map Prod.fst := by
    intro rk hrk
    obtain ⟨k, hk, rfl⟩ := List.mem_map.mp hrk
    obtain ⟨v, hv⟩ := Option.isSome_iff_exists.mp ((h.mem k).mp hk)
    exact List.mem_map.mpr ⟨_, Table.get_eq_some_iff.mp hv, rfl⟩
  have hnodup : (ks.map (DbLeaseKey.key id)).Nodup := by
    refine List.pairwise_map.mpr (h.sorted.imp (fun hlt heq => ?_))
    rw [(DbLeaseKey.key_inj heq).2] at hlt
    exact lt_irrefl _ hlt
  have hle := (List.subperm_of_subset hnodup hsub).length_le
  simpa using hle

/-- Whatever the table holds, the loop of a revocation ends.  It deletes the keys stored under the
lease in batches of a hundred, each key once and in ascending order, returns them, and leaves the
table without their entries and with all others.  It does so because no encoding of an id is a
prefix of another. -/
theorem revokeKeys_exact (t : Tables) (h : LeaseKeyTable t.leaseKey) (rev : Nat)
    (epoch id : UInt64) :
    (∀ id' rest, putUvarint id' = putUvarint id ++ rest → id' = id) ∧
    ∃ ks batches leaseKey, KeysOf t.leaseKey id ks ∧ InBatches 100 ks batches ∧
      (∀ k, leaseKey.get (DbLeaseKey.key id k) = none) ∧
      (∀ rk, (∀ k, rk ≠ DbLeaseKey.key id k) → leaseKey.get rk = t.leaseKey.get rk) ∧
      revokeKeys rev epoch id (t.leaseKey.entries.length + 1) t [] =
        (t.kv.deleteBatches rev epoch batches).map (fun kv =>
          ({ t with kv := kv, leaseKey := leaseKey }, ks)) := by
  refine ⟨fun id' rest heq => ?_, ?_⟩
  · exact (putUvarint_append_inj (s := []) (t := rest) (by rw [List.append_nil]; exact heq)).1
  · obtain ⟨ks, hks, -⟩ := Indexes.sweep_keysOf h id
    obtain ⟨batches, hbatched, hloop⟩ := revokeKeys_sweeps rev epoch h hks
      (Nat.lt_succ_of_le hks.length_le) []
    refine ⟨ks, batches, Indexes.without id ks t.leaseKey, hks, hbatched, fun k => ?_,
      fun rk hother => ?_, hloop⟩
    · rw [Indexes.get_without]
      split
      · rfl
      · rename_i hnot
        have habsent : k ∉ ks := fun hk => hnot ⟨k, hk, rfl⟩
        rw [hks.mem, Bool.not_eq_true, Option.isSome_eq_false_iff, Option.isNone_iff_eq_none]
          at habsent
        exact habsent
    · rw [Indexes.get_without, if_neg]
      rintro ⟨k, -, hrk⟩
      exact hother k hrk

/-- Two leases whose entries share a table: the sweep of 1 takes its two keys and leaves the key of
129, whose encoding starts with another byte. -/
theorem revokeKeys_exact_of_two_leases :
    ∃ t : Tables, LeaseKeyTable t.leaseKey ∧
      t.leaseKey.entries.map Prod.fst = [[1, 97], [1, 98], [129, 1, 97]] ∧
      ∃ ks batches leaseKey, KeysOf t.leaseKey 1 ks ∧ InBatches 100 ks batches ∧
        leaseKey.get [129, 1, 97] ≠ none ∧
        revokeKeys 2 0 1 (t.leaseKey.entries.length + 1) t [] =
          (t.kv.deleteBatches 2 0 batches).map (fun kv =>
            ({ t with kv := kv, leaseKey := leaseKey }, ks)) := by
  have hput : ∀ (s : Table Bytes Bytes) (id : UInt64) (k : Bytes), LeaseKeyTable s →
      LeaseKeyTable (DbLeaseKey.put s id k) := by
    intro s id k hs rk v hget
    rw [DbLeaseKey.put, Table.get_put] at hget
    split at hget
    · rename_i hrk
      exact ⟨⟨id, k, hrk⟩, by rw [← Option.some.inj hget, hrk]⟩
    · exact hs rk v hget
  have htable : LeaseKeyTable (DbLeaseKey.put (DbLeaseKey.put (DbLeaseKey.put .empty 129 [97])
      1 [98]) 1 [97]) :=
    hput _ _ _ (hput _ _ _ (hput _ _ _ (fun _ _ hget => by cases hget)))
  obtain ⟨-, ks, batches, leaseKey, hks, hbatched, -, hother, hloop⟩ := revokeKeys_exact
    ⟨.empty, .empty, .empty, DbLeaseKey.put (DbLeaseKey.put (DbLeaseKey.put .empty 129 [97])
      1 [98]) 1 [97]⟩ htable 2 0 1
  refine ⟨_, htable, by decide +kernel, ks, batches, leaseKey, hks, hbatched, ?_, hloop⟩
  rw [hother]
  · decide +kernel
  · intro k hk
    rw [DbLeaseKey.key, show putUvarint 1 = [1] by decide] at hk
    cases hk

end Turbokube
