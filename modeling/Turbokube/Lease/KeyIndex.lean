import Mathlib.Data.List.Perm.Basic
import Turbokube.Model.StateMachine

/-!
# The index of attached keys

`Indexes t att`: the index has the entry of a lease and a key exactly when `att` gives the
key that lease, where 0 is no lease.  Attaching, detaching and sweeping are then updates
of `att`.
-/

namespace Turbokube

open Encoding Lmdb

namespace DbLeaseKey

theorem key_inj {id id' : UInt64} {k k' : Bytes} (h : key id k = key id' k') : id = id' ∧ k = k' :=
  putUvarint_append_inj h

end DbLeaseKey

/-- Every entry is one that `put` wrote for some lease and key. -/
def LeaseKeyTable (t : Table Bytes Bytes) : Prop :=
  ∀ rk v, t.get rk = some v → (∃ id k, rk = DbLeaseKey.key id k) ∧ v = withChecksum rk []

/-- `ks` are the keys stored under a lease, in ascending order. -/
structure KeysOf (t : Table Bytes Bytes) (id : UInt64) (ks : List Bytes) : Prop where
  sorted : ks.Pairwise (· < ·)
  mem : ∀ k, k ∈ ks ↔ (t.get (DbLeaseKey.key id k)).isSome = true

structure Indexes (t : Table Bytes Bytes) (att : Bytes → UInt64) : Prop where
  entry : ∀ rk v, t.get rk = some v → (∃ id k, rk = DbLeaseKey.key id k) ∧ v = withChecksum rk []
  get : ∀ id k, (t.get (DbLeaseKey.key id k)).isSome = true ↔ id ≠ 0 ∧ att k = id

namespace Indexes

variable {t t' : Table Bytes Bytes} {att : Bytes → UInt64}

theorem empty : Indexes .empty (fun _ => 0) where
  entry _ _ h := by cases h
  get id k := by
    simp only [Table.get_empty, Option.isSome_none, Bool.false_eq_true, false_iff, not_and]
    exact fun hid h => hid h.symm

theorem congr {att' : Bytes → UInt64} (h : Indexes t att) (heq : ∀ k, att' k = att k) :
    Indexes t att' := by
  rw [funext heq]
  exact h

/-- A table that differs from the index in the entries of one key. -/
theorem update (h : Indexes t att) {key : Bytes} {lease : UInt64}
    (hsame : ∀ rk, (∀ id, rk ≠ DbLeaseKey.key id key) → t'.get rk = t.get rk)
    (hself : ∀ id, t'.get (DbLeaseKey.key id key) =
      if id ≠ 0 ∧ lease = id then some (withChecksum (DbLeaseKey.key id key) []) else none) :
    Indexes t' (Function.update att key lease) where
  entry rk v hget := by
    by_cases hrk : ∃ id, rk = DbLeaseKey.key id key
    · obtain ⟨id, rfl⟩ := hrk
      rw [hself] at hget
      split at hget
      · exact ⟨⟨id, key, rfl⟩, (Option.some.inj hget).symm⟩
      · cases hget
    · rw [hsame rk (fun id heq => hrk ⟨id, heq⟩)] at hget
      exact h.entry rk v hget
  get id k := by
    by_cases hk : k = key
    · subst hk
      rw [hself, Function.update_self]
      split
      · rename_i hid
        simp [hid]
      · rename_i hid
        simpa using hid
    · rw [hsame _ (fun id' heq => hk (DbLeaseKey.key_inj heq).2), Function.update_of_ne hk, h.get]

theorem get_eq (h : Indexes t att) (id : UInt64) (k : Bytes) :
    t.get (DbLeaseKey.key id k) =
      if id ≠ 0 ∧ att k = id then some (withChecksum (DbLeaseKey.key id k) []) else none := by
  cases hget : t.get (DbLeaseKey.key id k) with
  | none =>
      rw [if_neg]
      intro hatt
      have hsome := (h.get id k).mpr hatt
      rw [hget] at hsome
      cases hsome
  | some v =>
      rw [if_pos ((h.get id k).mp (by rw [hget]; rfl)), (h.entry _ v hget).2]

end Indexes

section Writes

variable {t : Table Bytes Bytes} {req : PutRequest} {prev : UInt64}

theorem leaseKey_del_ok {id : UInt64} {k : Bytes}
    (h : (t.get (DbLeaseKey.key id k)).isSome = true) :
    DbLeaseKey.del t id k = .ok (t.del (DbLeaseKey.key id k)) := by
  obtain ⟨v, hv⟩ := Option.isSome_iff_exists.mp h
  rw [DbLeaseKey.del, Table.remove, hv]

theorem pos_iff_toUInt64_ne_zero {lease : Int64} (h : 0 ≤ lease) :
    0 < lease ↔ lease.toUInt64 ≠ 0 := by
  rw [Int64.lt_iff_toInt_lt]
  rw [Int64.le_iff_toInt_le] at h
  constructor
  · intro hlt hzero
    rw [← lease.toInt64_toUInt64, hzero] at hlt
    exact absurd hlt (by decide)
  · intro hne
    refine lt_of_le_of_ne h (fun heq => hne ?_)
    rw [← Int64.toInt_inj.mp heq]
    rfl

theorem moveLease_same (h : req.ignoreLease = true ∨ prev = req.lease.toUInt64) :
    moveLease t req prev = .ok t := by
  rw [moveLease, if_neg]
  rintro ⟨hignore, hne⟩
  rcases h with hkeep | rfl
  · simp [hkeep] at hignore
  · exact hne (Int64.toInt64_toUInt64 _)

/-- Writing the entry of the lease a key moves to, then removing the one it had. -/
theorem moveLease_get (hlease : 0 ≤ req.lease) (hignore : req.ignoreLease = false)
    (hne : prev ≠ req.lease.toUInt64)
    (hprev : prev ≠ 0 → (t.get (DbLeaseKey.key prev req.key)).isSome = true) :
    ∃ t', moveLease t req prev = .ok t' ∧
      (∀ rk, (∀ id, rk ≠ DbLeaseKey.key id req.key) → t'.get rk = t.get rk) ∧
      ∀ id, t'.get (DbLeaseKey.key id req.key) =
        if id ≠ 0 ∧ req.lease.toUInt64 = id then some (withChecksum (DbLeaseKey.key id req.key) [])
        else if id ≠ 0 ∧ prev = id then none else t.get (DbLeaseKey.key id req.key) := by
  have hmove : !req.ignoreLease ∧ prev.toInt64 ≠ req.lease :=
    ⟨by simp [hignore], fun heq => hne (by rw [← heq, UInt64.toUInt64_toInt64])⟩
  rw [moveLease, if_pos hmove]
  simp only [pos_iff_toUInt64_ne_zero hlease, UInt64.pos_iff_ne_zero]
  have hput : ∀ rk, (if req.lease.toUInt64 ≠ 0 then
      DbLeaseKey.put t req.lease.toUInt64 req.key else t).get rk =
      if req.lease.toUInt64 ≠ 0 ∧ rk = DbLeaseKey.key req.lease.toUInt64 req.key then
        some (withChecksum rk []) else t.get rk := by
    intro rk
    by_cases hzero : req.lease.toUInt64 = 0
    · simp [hzero]
    · by_cases hrk : rk = DbLeaseKey.key req.lease.toUInt64 req.key
      · simp [hzero, hrk, DbLeaseKey.put]
      · simp [hzero, hrk, DbLeaseKey.put, Table.get_put]
  generalize (if req.lease.toUInt64 ≠ 0 then
    DbLeaseKey.put t req.lease.toUInt64 req.key else t) = t₁ at hput ⊢
  have hself : ∀ id, t₁.get (DbLeaseKey.key id req.key) =
      if id ≠ 0 ∧ req.lease.toUInt64 = id then some (withChecksum (DbLeaseKey.key id req.key) [])
      else t.get (DbLeaseKey.key id req.key) := by
    intro id
    rw [hput]
    refine if_congr ⟨?_, ?_⟩ rfl rfl
    · rintro ⟨hpos, heq⟩
      rw [(DbLeaseKey.key_inj heq).1]
      exact ⟨hpos, rfl⟩
    · rintro ⟨hpos, rfl⟩
      exact ⟨hpos, rfl⟩
  have hframe : ∀ rk, (∀ id, rk ≠ DbLeaseKey.key id req.key) → t₁.get rk = t.get rk :=
    fun rk hrk => by rw [hput, if_neg (fun hc => hrk _ hc.2)]
  by_cases hzero : prev = 0
  · refine ⟨t₁, if_neg (fun hpos => hpos hzero), hframe, fun id => ?_⟩
    rw [hself, if_neg (fun hc : id ≠ 0 ∧ prev = id => hc.1 (hc.2.symm.trans hzero))]
  · have hdel : (t₁.get (DbLeaseKey.key prev req.key)).isSome = true := by
      rw [hself, if_neg (fun hc => hne hc.2.symm)]
      exact hprev hzero
    rw [if_pos hzero, leaseKey_del_ok hdel]
    refine ⟨_, rfl, fun rk hrk => ?_, fun id => ?_⟩
    · rw [Table.get_del, if_neg (hrk _)]
      exact hframe rk hrk
    · rw [Table.get_del, hself]
      by_cases hid : id = prev
      · rw [if_pos (by rw [hid]), hid, if_neg (fun hc => hne hc.2.symm), if_pos ⟨hzero, rfl⟩]
      · rw [if_neg (fun heq => hid (DbLeaseKey.key_inj heq).1),
          if_neg (fun hc : id ≠ 0 ∧ prev = id => hid hc.2.symm)]

/-- Removing the entries of the deleted records of distinct keys. -/
theorem detachAll_get {items : List Keyrecord} (hnodup : (items.map Keyrecord.key).Nodup)
    (hitems : ∀ kr ∈ items, kr.lease ≠ 0 →
      (t.get (DbLeaseKey.key kr.lease kr.key)).isSome = true) :
    ∃ t', detachAll items t = .ok t' ∧ ∀ rk, t'.get rk =
      if ∃ kr ∈ items, kr.lease ≠ 0 ∧ rk = DbLeaseKey.key kr.lease kr.key then none
      else t.get rk := by
  induction items generalizing t with
  | nil => exact ⟨t, rfl, fun rk => by simp⟩
  | cons kr items ih =>
      rw [List.map_cons, List.nodup_cons] at hnodup
      rw [detachAll]
      by_cases hzero : kr.lease = 0
      · rw [if_neg (fun hne => hne hzero)]
        obtain ⟨t', ht', hget⟩ := ih hnodup.2
          (fun kr' hkr' => hitems kr' (List.mem_cons_of_mem _ hkr'))
        exact ⟨t', ht', fun rk => by simp [hget, hzero]⟩
      · rw [if_pos hzero, leaseKey_del_ok (hitems kr List.mem_cons_self hzero)]
        obtain ⟨t', ht', hget⟩ := @ih (t.del (DbLeaseKey.key kr.lease kr.key)) hnodup.2 (by
          intro kr' hkr' hne
          have hother : DbLeaseKey.key kr'.lease kr'.key ≠ DbLeaseKey.key kr.lease kr.key :=
            fun heq => hnodup.1 ((DbLeaseKey.key_inj heq).2 ▸ List.mem_map_of_mem hkr')
          rw [Table.get_del, if_neg hother]
          exact hitems kr' (List.mem_cons_of_mem _ hkr') hne)
        refine ⟨t', ht', fun rk => ?_⟩
        rw [hget, Table.get_del]
        by_cases hrk : rk = DbLeaseKey.key kr.lease kr.key
        · simp [hrk, hzero]
        · simp [hrk]

end Writes

namespace Indexes

variable {t t' : Table Bytes Bytes} {att : Bytes → UInt64}

/-- A put moves its key to the lease it names. -/
theorem moveLease {req : PutRequest} (h : Indexes t att) (hlease : 0 ≤ req.lease)
    (hignore : req.ignoreLease = true → req.lease.toUInt64 = att req.key) :
    ∃ t', Turbokube.moveLease t req (att req.key) = .ok t' ∧
      Indexes t' (Function.update att req.key req.lease.toUInt64) := by
  by_cases hsame : req.ignoreLease = true ∨ att req.key = req.lease.toUInt64
  · refine ⟨t, moveLease_same hsame, h.congr (fun k => ?_)⟩
    by_cases hk : k = req.key
    · rw [hk, Function.update_self]
      exact hsame.elim hignore Eq.symm
    · rw [Function.update_of_ne hk]
  · rw [not_or, Bool.not_eq_true] at hsame
    obtain ⟨t', hmove, hframe, hself⟩ := moveLease_get hlease hsame.1 hsame.2
      (fun hzero => (h.get _ _).mpr ⟨hzero, rfl⟩)
    refine ⟨t', hmove, h.update hframe (fun id => ?_)⟩
    rw [hself, h.get_eq]
    split
    · rfl
    · split
      · rfl
      · rfl

/-- Deleted records that name the leases of their keys can be detached. -/
theorem detachAll {items : List Keyrecord} (h : Indexes t att)
    (hnodup : (items.map Keyrecord.key).Nodup) (hitems : ∀ kr ∈ items, kr.lease = att kr.key) :
    ∃ t', Turbokube.detachAll items t = .ok t' ∧
      Indexes t' (fun k => if k ∈ items.map Keyrecord.key then 0 else att k) := by
  obtain ⟨t', ht', hget⟩ := detachAll_get hnodup
    (fun kr hkr hne => (h.get _ _).mpr ⟨hne, (hitems kr hkr).symm⟩)
  refine ⟨t', ht', fun rk v hv => ?_, fun id k => ?_⟩
  · rw [hget] at hv
    split at hv
    · cases hv
    · exact h.entry rk v hv
  · rw [hget]
    by_cases hk : k ∈ items.map Keyrecord.key
    · obtain ⟨kr, hkr, rfl⟩ := List.mem_map.mp hk
      rw [if_pos hk]
      have hgone : ¬ (id ≠ 0 ∧ 0 = id) := fun hc => hc.1 hc.2.symm
      simp only [hgone, iff_false]
      split
      · simp
      · next hnone =>
          rw [h.get]
          rintro ⟨hid, hatt⟩
          have hlease : kr.lease = id := (hitems kr hkr).trans hatt
          exact hnone ⟨kr, hkr, by rw [hlease]; exact hid, by rw [hlease]⟩
    · rw [if_neg hk, if_neg, h.get]
      rintro ⟨kr, hkr, -, heq⟩
      exact hk ((DbLeaseKey.key_inj heq).2 ▸ List.mem_map_of_mem hkr)

section Sweep

/-- The index without the entries of a lease and the given keys. -/
def without (id : UInt64) (ks : List Bytes) (t : Table Bytes Bytes) : Table Bytes Bytes :=
  ks.foldl (fun t k => t.del (DbLeaseKey.key id k)) t

theorem get_without (id : UInt64) (ks : List Bytes) (t : Table Bytes Bytes) (rk : Bytes) :
    (without id ks t).get rk =
      if ∃ k ∈ ks, rk = DbLeaseKey.key id k then none else t.get rk := by
  induction ks generalizing t with
  | nil => simp [without]
  | cons k ks ih =>
      have hstep : without id (k :: ks) t = without id ks (t.del (DbLeaseKey.key id k)) := rfl
      rw [hstep, ih, Table.get_del]
      by_cases hk : rk = DbLeaseKey.key id k
      · simp [hk]
      · by_cases hks : ∃ k ∈ ks, rk = DbLeaseKey.key id k
        · simp [hks]
        · simp [hk, hks]

theorem length_without_le (id : UInt64) (ks : List Bytes) (t : Table Bytes Bytes) :
    (without id ks t).entries.length ≤ t.entries.length := by
  induction ks generalizing t with
  | nil => exact le_rfl
  | cons k ks ih => exact (ih _).trans (t.length_del_le _)

/-- What a sweep has ahead of it: the entries of its lease and then those of others. -/
theorem seek_split (t : Table Bytes Bytes) (id : UInt64) :
    ∃ ks rest : List Bytes,
      (t.seek (putUvarint id)).map Prod.fst = ks.map (DbLeaseKey.key id) ++ rest ∧
      ∀ rk ∈ rest, ∀ k, rk ≠ DbLeaseKey.key id k := by
  have hsorted : ((t.seek (putUvarint id)).map Prod.fst).Pairwise (· < ·) :=
    List.pairwise_map.mpr (t.seek_sorted _)
  have hle : ∀ rk ∈ (t.seek (putUvarint id)).map Prod.fst, putUvarint id ≤ rk := by
    intro rk hrk
    obtain ⟨e, he, rfl⟩ := List.mem_map.mp hrk
    exact (Table.mem_seek.mp he).2
  generalize (t.seek (putUvarint id)).map Prod.fst = l at hsorted hle
  induction l with
  | nil => exact ⟨[], [], rfl, by simp⟩
  | cons rk l ih =>
      obtain ⟨hlt, htail⟩ := List.pairwise_cons.mp hsorted
      by_cases hown : ∃ k, rk = DbLeaseKey.key id k
      · obtain ⟨k, rfl⟩ := hown
        obtain ⟨ks, rest, rfl, hrest⟩ :=
          ih htail (fun rk hrk => hle rk (List.mem_cons_of_mem _ hrk))
        exact ⟨k :: ks, rest, rfl, hrest⟩
      · refine ⟨[], rk :: l, rfl, fun rk' hrk' k hk => ?_⟩
        rcases List.mem_cons.mp hrk' with rfl | hrk'
        · exact hown ⟨k, hk⟩
        · -- an entry between the start of the sweep and one of the lease is of the lease
          have hbetween := hlt rk' hrk'
          rw [hk] at hbetween
          exact hown (exists_append_of_le_of_lt (hle rk List.mem_cons_self) hbetween)

/-- The loop of a sweep takes the first `n` of the entries of its lease. -/
theorem sweepLoop_eq (id : UInt64) (n : Nat) {l : List (Bytes × Bytes)} {ks rest : List Bytes}
    (hl : ∀ e ∈ l, (∃ id k, e.1 = DbLeaseKey.key id k) ∧ e.2 = withChecksum e.1 [])
    (hsplit : l.map Prod.fst = ks.map (DbLeaseKey.key id) ++ rest)
    (hrest : ∀ rk ∈ rest, ∀ k, rk ≠ DbLeaseKey.key id k) (s : Table Bytes Bytes)
    (batch : List Bytes) :
    DbLeaseKey.sweepLoop id n l s batch =
      .ok (Indexes.without id (ks.take n) s, batch ++ ks.take n) := by
  induction n generalizing l ks s batch with
  | zero => simp [DbLeaseKey.sweepLoop, Indexes.without]
  | succ n ih =>
      cases l with
      | nil =>
          obtain ⟨hks, -⟩ := List.append_eq_nil_iff.mp hsplit.symm
          rw [List.map_eq_nil_iff.mp hks]
          simp [DbLeaseKey.sweepLoop, Indexes.without]
      | cons e l =>
          obtain ⟨rk, v⟩ := e
          obtain ⟨⟨id', k', hrk⟩, hv⟩ := hl (rk, v) List.mem_cons_self
          simp only at hrk hv
          have htrim : trimChecksum rk v = .ok [] := by
            rw [hv]
            simp [trimChecksum]
          have hread : readUvarint rk = .ok (id', k') := by
            rw [hrk]
            exact readUvarint_putUvarint id' k'
          rw [DbLeaseKey.sweepLoop, htrim]
          simp only [hread]
          cases ks with
          | nil =>
              have hother : id' ≠ id := by
                rintro rfl
                refine hrest rk ?_ k' hrk
                rw [List.map_nil, List.nil_append] at hsplit
                rw [← hsplit]
                exact List.mem_cons_self
              rw [if_pos hother]
              simp [Indexes.without]
          | cons k ks =>
              rw [List.map_cons, List.map_cons, List.cons_append, List.cons.injEq] at hsplit
              obtain ⟨rfl, rfl⟩ := DbLeaseKey.key_inj (hrk.symm.trans hsplit.1)
              rw [if_neg (fun hne => hne rfl),
                ih (fun e he => hl e (List.mem_cons_of_mem _ he)) hsplit.2, hrk,
                List.take_succ_cons, List.append_assoc, List.singleton_append]
              rfl

/-- The keys of a lease, and what one sweep takes of them. -/
theorem sweep_keysOf (h : LeaseKeyTable t) (id : UInt64) :
    ∃ ks, KeysOf t id ks ∧ DbLeaseKey.sweep t id =
      .ok (Indexes.without id (ks.take DbLeaseKey.batchSize) t, ks.take DbLeaseKey.batchSize) := by
  obtain ⟨ks, rest, hsplit, hrest⟩ := seek_split t id
  have hseek : ∀ e ∈ t.seek (putUvarint id),
      (∃ id k, e.1 = DbLeaseKey.key id k) ∧ e.2 = withChecksum e.1 [] := fun e he =>
    h e.1 e.2 (Table.mem_seek.mp he).1
  have hsorted : ((t.seek (putUvarint id)).map Prod.fst).Pairwise (· < ·) :=
    List.pairwise_map.mpr (t.seek_sorted _)
  refine ⟨ks, ⟨?_, fun k => ⟨fun hk => ?_, fun hk => ?_⟩⟩, ?_⟩
  · rw [hsplit] at hsorted
    have hkeys := List.pairwise_map.mp (List.pairwise_append.mp hsorted).1
    exact hkeys.imp (fun hlt => (append_lt_append_iff _).mp hlt)
  · have hmem : DbLeaseKey.key id k ∈ (t.seek (putUvarint id)).map Prod.fst := by
      rw [hsplit]
      exact List.mem_append_left _ (List.mem_map_of_mem hk)
    obtain ⟨e, he, heq⟩ := List.mem_map.mp hmem
    rw [← heq, (Table.mem_seek.mp he).1]
    rfl
  · obtain ⟨v, hv⟩ := Option.isSome_iff_exists.mp hk
    have hmem : DbLeaseKey.key id k ∈ (t.seek (putUvarint id)).map Prod.fst :=
      List.mem_map.mpr ⟨(DbLeaseKey.key id k, v), Table.mem_seek.mpr ⟨hv, le_append _ _⟩, rfl⟩
    rw [hsplit] at hmem
    rcases List.mem_append.mp hmem with hown | hother
    · obtain ⟨k', hk', heq⟩ := List.mem_map.mp hown
      rwa [(DbLeaseKey.key_inj heq).2] at hk'
    · exact absurd rfl (hrest _ hother k)
  · rw [DbLeaseKey.sweep, sweepLoop_eq id _ hseek hsplit hrest, List.nil_append]

/-- A sweep removes entries of its lease, and finds one if there is one. -/
theorem sweep_entries (h : LeaseKeyTable t) (id : UInt64) :
    ∃ ks, DbLeaseKey.sweep t id = .ok (without id ks t, ks) ∧ ks.Nodup ∧
      (∀ k ∈ ks, (t.get (DbLeaseKey.key id k)).isSome = true) ∧
      (ks = [] → ∀ k, t.get (DbLeaseKey.key id k) = none) := by
  obtain ⟨ks, hks, hsweep⟩ := sweep_keysOf h id
  refine ⟨_, hsweep, ?_, fun k hk => (hks.mem k).mp (List.mem_of_mem_take hk), fun hnil k => ?_⟩
  · exact (hks.sorted.imp (fun hlt => ne_of_lt hlt)).take
  · have habsent : k ∉ ks := by
      rcases List.take_eq_nil_iff.mp hnil with hzero | rfl
      · cases hzero
      · exact List.not_mem_nil
    rw [hks.mem, Bool.not_eq_true, Option.isSome_eq_false_iff, Option.isNone_iff_eq_none] at habsent
    exact habsent

theorem sweep_eq (h : Indexes t att) {id : UInt64} (hid : id ≠ 0) :
    ∃ ks, DbLeaseKey.sweep t id = .ok (without id ks t, ks) ∧ ks.Nodup ∧
      (∀ k ∈ ks, att k = id) ∧ (ks = [] → ∀ k, att k ≠ id) := by
  obtain ⟨ks, hsweep, hnodup, hks, hnil⟩ := sweep_entries h.entry id
  refine ⟨ks, hsweep, hnodup, fun k hk => ((h.get id k).mp (hks k hk)).2, fun hempty k hk => ?_⟩
  have hsome := (h.get id k).mpr ⟨hid, hk⟩
  rw [hnil hempty k] at hsome
  cases hsome

end Sweep

end Indexes

end Turbokube
