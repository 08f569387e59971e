import Turbokube.Lmdb.Table

/-!
# Tables with sorted duplicates

A key of such a table has several values, kept in ascending order, and it is in
the table exactly while it has one.  `dups t k` are the values of `k` as a
cursor walks them, `pairs t` is what a cursor meets that goes through the whole
table value by value, and `seek` what one meets that goes key by key.

With its second value a key gets a page of its own for them, and keeps that page
until its last value is gone.  No read depends on it, but a cursor that deletes
does, so the table remembers it (`sub`).
-/

namespace Lmdb

variable {κ ν : Type} [LinearOrder κ] [LinearOrder ν]

def insertDup (v : ν) : List ν → List ν
  | [] => [v]
  | w :: rest =>
      if v < w then v :: w :: rest
      else if v = w then w :: rest
      else w :: insertDup v rest

@[simp] theorem mem_insertDup {v x : ν} {l : List ν} : x ∈ insertDup v l ↔ x = v ∨ x ∈ l := by
  induction l with
  | nil => simp [insertDup]
  | cons w rest ih =>
      rw [insertDup]
      split
      · simp
      · split
        · rename_i heq
          simp [heq]
        · simp only [List.mem_cons, ih]
          tauto

theorem insertDup_ne_nil (v : ν) (l : List ν) : insertDup v l ≠ [] :=
  List.ne_nil_of_mem (mem_insertDup.mpr (.inl rfl))

theorem insertDup_sorted {v : ν} {l : List ν} (hl : l.Pairwise (· < ·)) :
    (insertDup v l).Pairwise (· < ·) := by
  induction l with
  | nil => simp [insertDup]
  | cons w rest ih =>
      obtain ⟨hw, hrest⟩ := List.pairwise_cons.mp hl
      rw [insertDup]
      split
      · rename_i hlt
        refine List.pairwise_cons.mpr ⟨fun x hx => ?_, hl⟩
        rcases List.mem_cons.mp hx with rfl | hx
        · exact hlt
        · exact hlt.trans (hw x hx)
      · rename_i hnlt
        split
        · exact hl
        · rename_i hne
          refine List.pairwise_cons.mpr ⟨fun x hx => ?_, ih hrest⟩
          rcases mem_insertDup.mp hx with rfl | hx
          · exact lt_of_le_of_ne (not_lt.mp hnlt) (Ne.symm hne)
          · exact hw x hx

/-- A value below all others goes to the front. -/
theorem insertDup_of_forall_lt {v : ν} {l : List ν} (h : ∀ w ∈ l, v < w) :
    insertDup v l = v :: l := by
  cases l with
  | nil => rfl
  | cons w rest => rw [insertDup, if_pos (h w List.mem_cons_self)]

structure DupSet (ν : Type) [LinearOrder ν] where
  elems : List ν
  /-- The values are on a page of their own. -/
  sub : Bool
  sorted : elems.Pairwise (· < ·)
  nonempty : elems ≠ []
  several : 1 < elems.length → sub = true

namespace DupSet

def single (v : ν) : DupSet ν := ⟨[v], false, by simp, by simp, by simp⟩

def insert (s : DupSet ν) (v : ν) : DupSet ν where
  elems := insertDup v s.elems
  sub := s.sub || decide (1 < (insertDup v s.elems).length)
  sorted := insertDup_sorted s.sorted
  nonempty := insertDup_ne_nil v s.elems
  several h := by simp [h]

/-- The values other than `v`, when there are any. -/
def erase (s : DupSet ν) (v : ν) (h : s.elems.filter (· ≠ v) ≠ []) : DupSet ν where
  elems := s.elems.filter (· ≠ v)
  sub := s.sub
  sorted := s.sorted.filter _
  nonempty := h
  several hlen := s.several (hlen.trans_le (List.length_filter_le _ _))

theorem ext_elems {s t : DupSet ν} (h : s.elems = t.elems) (hsub : s.sub = t.sub) : s = t := by
  cases s
  cases t
  cases h
  cases hsub
  rfl

end DupSet

structure DupTable (κ ν : Type) [LinearOrder κ] [LinearOrder ν] where
  table : Table κ (DupSet ν)

namespace DupTable

def empty : DupTable κ ν := ⟨Table.empty⟩

def dups (t : DupTable κ ν) (k : κ) : List ν := ((t.table.get k).map DupSet.elems).getD []

def sub (t : DupTable κ ν) (k : κ) : Bool := ((t.table.get k).map DupSet.sub).getD false

def put (t : DupTable κ ν) (k : κ) (v : ν) : DupTable κ ν :=
  match t.table.get k with
  | none => ⟨t.table.put k (DupSet.single v)⟩
  | some s => ⟨t.table.put k (s.insert v)⟩

/-- Remove one value of a key, and the key with its last value. -/
def delDup (t : DupTable κ ν) (k : κ) (v : ν) : DupTable κ ν :=
  match t.table.get k with
  | none => t
  | some s =>
      if h : s.elems.filter (· ≠ v) = [] then ⟨t.table.del k⟩
      else ⟨t.table.put k (s.erase v h)⟩

def seek (t : DupTable κ ν) (k : κ) : List (κ × List ν) :=
  (t.table.seek k).map (fun e => (e.1, e.2.elems))

def pairs (t : DupTable κ ν) : List (κ × ν) :=
  t.table.entries.flatMap (fun e => e.2.elems.map (fun v => (e.1, v)))

def seekPairs (t : DupTable κ ν) (k : κ) : List (κ × ν) := t.pairs.filter (fun p => k ≤ p.1)

@[simp] theorem dups_empty (k : κ) : (empty : DupTable κ ν).dups k = [] := rfl

theorem dups_sorted (t : DupTable κ ν) (k : κ) : (t.dups k).Pairwise (· < ·) := by
  rw [dups]
  cases t.table.get k with
  | none => simp
  | some s => exact s.sorted

theorem dups_eq_nil_iff {t : DupTable κ ν} {k : κ} : t.dups k = [] ↔ t.table.get k = none := by
  rw [dups]
  cases t.table.get k with
  | none => simp
  | some s => simpa using s.nonempty

theorem ext_dups {s t : DupTable κ ν} (h : ∀ k, s.dups k = t.dups k)
    (hsub : ∀ k, s.dups k ≠ [] → s.sub k = t.sub k) : s = t := by
  have htable : s.table = t.table := by
    apply Table.ext_get
    intro k
    have hk := h k
    cases hs : s.table.get k with
    | none =>
        have hnil := dups_eq_nil_iff.mpr hs
        rw [hk, dups_eq_nil_iff] at hnil
        exact hnil.symm
    | some a =>
        cases ht : t.table.get k with
        | none =>
            have hnil := dups_eq_nil_iff.mpr ht
            rw [← hk, dups_eq_nil_iff, hs] at hnil
            exact absurd hnil (by simp)
        | some b =>
            have helems : a.elems = b.elems := by simpa [dups, hs, ht] using hk
            have hpage : a.sub = b.sub := by
              have hne : s.dups k ≠ [] := by simpa [dups, hs] using a.nonempty
              simpa [sub, hs, ht] using hsub k hne
            rw [DupSet.ext_elems helems hpage]
  cases s
  cases t
  cases htable
  rfl

theorem dups_put (t : DupTable κ ν) (k k' : κ) (v : ν) :
    (t.put k v).dups k' = if k' = k then insertDup v (t.dups k) else t.dups k' := by
  rw [put]
  cases hs : t.table.get k with
  | none =>
      by_cases hk : k' = k
      · simp [dups, hk, hs, DupSet.single, insertDup]
      · simp [dups, Table.get_put, hk]
  | some s =>
      by_cases hk : k' = k
      · simp [dups, hk, hs, DupSet.insert]
      · simp [dups, Table.get_put, hk]

theorem mem_dups_put {t : DupTable κ ν} {k k' : κ} {v x : ν} :
    x ∈ (t.put k v).dups k' ↔ k' = k ∧ x = v ∨ x ∈ t.dups k' := by
  rw [dups_put]
  by_cases hk : k' = k
  · simp [hk]
  · simp [hk]

theorem dups_delDup (t : DupTable κ ν) (k k' : κ) (v : ν) :
    (t.delDup k v).dups k' = if k' = k then (t.dups k).filter (· ≠ v) else t.dups k' := by
  rw [delDup]
  cases hs : t.table.get k with
  | none =>
      by_cases hk : k' = k
      · simp [dups, hk, hs]
      · simp [hk]
  | some s =>
      simp only
      split
      · rename_i hnil
        by_cases hk : k' = k
        · simpa [dups, Table.get_del, hk, hs] using hnil
        · simp [dups, Table.get_del, hk]
      · by_cases hk : k' = k
        · simp [dups, hk, hs, DupSet.erase]
        · simp [dups, Table.get_put, hk]

/-- The values that are left stay where they are. -/
theorem sub_delDup {t : DupTable κ ν} {k k' : κ} {v : ν} (h : (t.delDup k v).dups k' ≠ []) :
    (t.delDup k v).sub k' = t.sub k' := by
  rw [delDup] at h ⊢
  cases hs : t.table.get k with
  | none => rfl
  | some s =>
      simp only [hs] at h ⊢
      by_cases hnil : s.elems.filter (· ≠ v) = []
      · rw [dif_pos hnil] at h ⊢
        have hk : k' ≠ k := fun hk => h (by simp [dups, Table.get_del, hk])
        simp [sub, Table.get_del, hk]
      · rw [dif_neg hnil]
        by_cases hk : k' = k
        · simp [sub, hk, hs, DupSet.erase]
        · simp [sub, Table.get_put, hk]

theorem mem_dups_delDup {t : DupTable κ ν} {k k' : κ} {v x : ν} :
    x ∈ (t.delDup k v).dups k' ↔ x ∈ t.dups k' ∧ ¬ (k' = k ∧ x = v) := by
  rw [dups_delDup]
  by_cases hk : k' = k
  · simp [hk]
  · simp [hk]

theorem mem_pairs {t : DupTable κ ν} {p : κ × ν} : p ∈ t.pairs ↔ p.2 ∈ t.dups p.1 := by
  rw [pairs, List.mem_flatMap, dups]
  constructor
  · rintro ⟨e, he, hp⟩
    obtain ⟨v, hv, rfl⟩ := List.mem_map.mp hp
    have hget : t.table.get e.1 = some e.2 := Table.get_eq_some_iff.mpr he
    simpa [hget] using hv
  · intro h
    cases hs : t.table.get p.1 with
    | none => simp [hs] at h
    | some s =>
        have hmem := Table.get_eq_some_iff.mp hs
        exact ⟨(p.1, s), hmem, List.mem_map.mpr ⟨p.2, by simpa [hs] using h, rfl⟩⟩

theorem pairs_sorted (t : DupTable κ ν) :
    t.pairs.Pairwise (fun a b => a.1 < b.1 ∨ a.1 = b.1 ∧ a.2 < b.2) := by
  rw [pairs, List.pairwise_flatMap]
  constructor
  · intro e _
    rw [List.pairwise_map]
    exact e.2.sorted.imp (fun h => .inr ⟨rfl, h⟩)
  · refine t.table.sorted.imp ?_
    intro a b hab x hx y hy
    obtain ⟨v, -, rfl⟩ := List.mem_map.mp hx
    obtain ⟨w, -, rfl⟩ := List.mem_map.mp hy
    exact .inl hab

/-- Lists of pairs in cursor order are determined by their members. -/
theorem pairs_ext {l₁ l₂ : List (κ × ν)}
    (h₁ : l₁.Pairwise (fun a b => a.1 < b.1 ∨ a.1 = b.1 ∧ a.2 < b.2))
    (h₂ : l₂.Pairwise (fun a b => a.1 < b.1 ∨ a.1 = b.1 ∧ a.2 < b.2))
    (h : ∀ p, p ∈ l₁ ↔ p ∈ l₂) : l₁ = l₂ := by
  have : Std.Antisymm (fun a b : κ × ν => a.1 < b.1 ∨ a.1 = b.1 ∧ a.2 < b.2) := by
    refine ⟨fun a b hab hba => ?_⟩
    rcases hab with hab | ⟨hab, hab'⟩
    · rcases hba with hba | ⟨hba, -⟩
      · exact absurd hab hba.asymm
      · exact absurd hba hab.ne'
    · rcases hba with hba | ⟨-, hba'⟩
      · exact absurd hab hba.ne'
      · exact absurd hab' hba'.asymm
  have : Std.Irrefl (fun a b : κ × ν => a.1 < b.1 ∨ a.1 = b.1 ∧ a.2 < b.2) := by
    refine ⟨fun a ha => ?_⟩
    rcases ha with ha | ⟨-, ha⟩
    · exact lt_irrefl _ ha
    · exact lt_irrefl _ ha
  exact h₁.eq_of_mem_iff h₂ h

theorem seek_sorted (t : DupTable κ ν) (k : κ) :
    (t.seek k).Pairwise (fun a b => a.1 < b.1) := by
  rw [seek, List.pairwise_map]
  exact t.table.seek_sorted k

theorem mem_seek {t : DupTable κ ν} {k : κ} {e : κ × List ν} :
    e ∈ t.seek k ↔ e.2 = t.dups e.1 ∧ e.2 ≠ [] ∧ k ≤ e.1 := by
  rw [seek, List.mem_map]
  constructor
  · rintro ⟨a, ha, rfl⟩
    obtain ⟨hget, hle⟩ := Table.mem_seek.mp ha
    exact ⟨by simp [dups, hget], a.2.nonempty, hle⟩
  · rintro ⟨hdups, hne, hle⟩
    cases hs : t.table.get e.1 with
    | none =>
        rw [hdups] at hne
        exact absurd (dups_eq_nil_iff.mpr hs) hne
    | some s =>
        refine ⟨(e.1, s), Table.mem_seek.mpr ⟨hs, hle⟩, ?_⟩
        have helems : e.2 = s.elems := by simpa [dups, hs] using hdups
        rw [← helems]

/-- The first key at or above a stored key is that key. -/
theorem seek_of_dups_ne_nil {t : DupTable κ ν} {k : κ} (h : t.dups k ≠ []) :
    ∃ rest, t.seek k = (k, t.dups k) :: rest ∧ ∀ e ∈ rest, k < e.1 := by
  cases hs : t.table.get k with
  | none => exact absurd (dups_eq_nil_iff.mpr hs) h
  | some s =>
      obtain ⟨rest, hseek, hrest⟩ := Table.seek_of_get hs
      refine ⟨rest.map (fun e => (e.1, e.2.elems)), ?_, ?_⟩
      · simp [seek, hseek, dups, hs]
      · intro e he
        obtain ⟨a, ha, rfl⟩ := List.mem_map.mp he
        exact hrest a ha

/-- A cursor set to `k` stands on `k'` when no stored key is in between. -/
theorem seek_of_first {t : DupTable κ ν} {k k' : κ} (hle : k ≤ k') (h : t.dups k' ≠ [])
    (hfirst : ∀ x, k ≤ x → t.dups x ≠ [] → k' ≤ x) :
    ∃ rest, t.seek k = (k', t.dups k') :: rest := by
  have hmem : (k', t.dups k') ∈ t.seek k := mem_seek.mpr ⟨rfl, h, hle⟩
  cases hs : t.seek k with
  | nil => simp [hs] at hmem
  | cons e rest =>
      obtain ⟨hdups, hne, hle'⟩ := mem_seek.mp (hs ▸ List.mem_cons_self : e ∈ t.seek k)
      have hge := hfirst e.1 hle' (hdups ▸ hne)
      rw [hs] at hmem
      rcases List.mem_cons.mp hmem with heq | hrest
      · exact ⟨rest, by rw [heq]⟩
      · have hsorted := t.seek_sorted k
        rw [hs] at hsorted
        exact absurd ((List.pairwise_cons.mp hsorted).1 _ hrest) (not_lt.mpr hge)

/-- The values of a key among all that a cursor meets. -/
theorem pairs_filter_key (t : DupTable κ ν) (k : κ) :
    t.pairs.filter (fun p => p.1 = k) = (t.dups k).map (fun v => (k, v)) := by
  refine pairs_ext (t.pairs_sorted.filter _) ?_ (fun p => ?_)
  · rw [List.pairwise_map]
    exact (t.dups_sorted k).imp (fun h => .inr ⟨rfl, h⟩)
  · rw [List.mem_filter, mem_pairs, decide_eq_true_eq, List.mem_map]
    constructor
    · rintro ⟨hp, rfl⟩
      exact ⟨p.2, hp, rfl⟩
    · rintro ⟨v, hv, rfl⟩
      exact ⟨hv, rfl⟩

/-- Past a key without values a cursor meets only greater keys. -/
theorem lt_of_mem_seek_of_dups_eq_nil {t : DupTable κ ν} {k : κ} (h : t.dups k = [])
    {e : κ × List ν} (he : e ∈ t.seek k) : k < e.1 := by
  obtain ⟨hdups, hne, hle⟩ := mem_seek.mp he
  refine lt_of_le_of_ne hle (fun heq => ?_)
  rw [← heq, h] at hdups
  exact hne hdups

/-- The keys a cursor meets from `k` on. -/
def keysFrom (t : DupTable κ ν) (k : κ) : List κ := (t.seek k).map Prod.fst

theorem mem_keysFrom {t : DupTable κ ν} {k k' : κ} :
    k' ∈ t.keysFrom k ↔ t.dups k' ≠ [] ∧ k ≤ k' := by
  rw [keysFrom, List.mem_map]
  constructor
  · rintro ⟨e, he, rfl⟩
    obtain ⟨hdups, hne, hle⟩ := mem_seek.mp he
    exact ⟨by rw [← hdups]; exact hne, hle⟩
  · rintro ⟨hne, hle⟩
    exact ⟨(k', t.dups k'), mem_seek.mpr ⟨rfl, hne, hle⟩, rfl⟩

theorem keysFrom_sorted (t : DupTable κ ν) (k : κ) : (t.keysFrom k).Pairwise (· < ·) := by
  rw [keysFrom, List.pairwise_map]
  exact t.seek_sorted k

theorem seek_eq_map (t : DupTable κ ν) (k : κ) :
    t.seek k = (t.keysFrom k).map (fun k' => (k', t.dups k')) := by
  rw [keysFrom, List.map_map]
  conv => lhs; rw [← List.map_id (t.seek k)]
  exact List.map_congr_left (fun e he => Prod.ext rfl (mem_seek.mp he).1)

theorem keysFrom_congr {s t : DupTable κ ν} (h : ∀ k, s.dups k = [] ↔ t.dups k = []) (k : κ) :
    s.keysFrom k = t.keysFrom k := by
  refine (s.keysFrom_sorted k).eq_of_mem_iff (t.keysFrom_sorted k) (fun k' => ?_)
  rw [mem_keysFrom, mem_keysFrom, Ne, Ne, h k']

end DupTable

end Lmdb
