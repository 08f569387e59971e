import Mathlib.Data.List.Sort
import Mathlib.Order.Basic

/-!
# Ordered tables

A table keeps its entries strictly ascending in the key, so a key has at most
one value and a cursor meets the keys in order.  The order is a field of the
structure: an unsorted table cannot be built.

`get` and membership in `entries` say the same (`get_eq_some_iff`), and two
tables with equal `get` are equal (`ext_get`), so the operations are specified
by what they do to `get`.  `seek t k` is what a cursor set to the first key at
or above `k` still has ahead of it.
-/

namespace Lmdb

variable {κ ν : Type} [LinearOrder κ]

def insertEntry (k : κ) (v : ν) : List (κ × ν) → List (κ × ν)
  | [] => [(k, v)]
  | e :: rest =>
      if k < e.1 then (k, v) :: e :: rest
      else if k = e.1 then (k, v) :: rest
      else e :: insertEntry k v rest

theorem mem_insertEntry {k : κ} {v : ν} {l : List (κ × ν)}
    (hl : l.Pairwise (fun a b => a.1 < b.1)) {e : κ × ν} :
    e ∈ insertEntry k v l ↔ e = (k, v) ∨ e.1 ≠ k ∧ e ∈ l := by
  induction l with
  | nil => simp [insertEntry]
  | cons a rest ih =>
      obtain ⟨ha, hrest⟩ := List.pairwise_cons.mp hl
      rw [insertEntry]
      split
      · rename_i hlt
        rw [List.mem_cons]
        refine or_congr_right ⟨fun h => ⟨?_, h⟩, And.right⟩
        rcases List.mem_cons.mp h with rfl | h
        · exact hlt.ne'
        · exact (hlt.trans (ha e h)).ne'
      · split
        · rename_i heq
          rw [List.mem_cons, List.mem_cons]
          refine or_congr_right ⟨fun h => ⟨heq ▸ (ha e h).ne', .inr h⟩, fun h => ?_⟩
          exact h.2.resolve_left (fun he => h.1 (he ▸ heq.symm))
        · rename_i hne
          rw [List.mem_cons, ih hrest, List.mem_cons]
          constructor
          · rintro (rfl | h | h)
            · exact .inr ⟨Ne.symm hne, .inl rfl⟩
            · exact .inl h
            · exact .inr ⟨h.1, .inr h.2⟩
          · rintro (h | ⟨hk, h | h⟩)
            · exact .inr (.inl h)
            · exact .inl h
            · exact .inr (.inr ⟨hk, h⟩)

theorem insertEntry_sorted {k : κ} {v : ν} {l : List (κ × ν)}
    (hl : l.Pairwise (fun a b => a.1 < b.1)) :
    (insertEntry k v l).Pairwise (fun a b => a.1 < b.1) := by
  induction l with
  | nil => simp [insertEntry]
  | cons a rest ih =>
      obtain ⟨ha, hrest⟩ := List.pairwise_cons.mp hl
      rw [insertEntry]
      split
      · rename_i hlt
        refine List.pairwise_cons.mpr ⟨fun e he => ?_, hl⟩
        rcases List.mem_cons.mp he with rfl | he
        · exact hlt
        · exact hlt.trans (ha e he)
      · rename_i hnlt
        split
        · rename_i heq
          refine List.pairwise_cons.mpr ⟨fun e he => ?_, hrest⟩
          rw [heq]
          exact ha e he
        · rename_i hne
          refine List.pairwise_cons.mpr ⟨fun e he => ?_, ih hrest⟩
          rcases (mem_insertEntry hrest).mp he with rfl | ⟨-, he⟩
          · exact lt_of_le_of_ne (not_lt.mp hnlt) (Ne.symm hne)
          · exact ha e he

structure Table (κ ν : Type) [LinearOrder κ] where
  entries : List (κ × ν)
  sorted : entries.Pairwise (fun a b => a.1 < b.1)

namespace Table

def empty : Table κ ν := ⟨[], .nil⟩

def get (t : Table κ ν) (k : κ) : Option ν := (t.entries.find? (fun e => e.1 = k)).map Prod.snd

def put (t : Table κ ν) (k : κ) (v : ν) : Table κ ν :=
  ⟨insertEntry k v t.entries, insertEntry_sorted t.sorted⟩

def del (t : Table κ ν) (k : κ) : Table κ ν :=
  ⟨t.entries.filter (fun e => e.1 ≠ k), t.sorted.filter _⟩

def seek (t : Table κ ν) (k : κ) : List (κ × ν) := t.entries.filter (fun e => k ≤ e.1)

theorem eq_of_mem_of_key_eq {t : Table κ ν} {a b : κ × ν} (ha : a ∈ t.entries)
    (hb : b ∈ t.entries) (h : a.1 = b.1) : a = b := by
  have hall : ∀ l : List (κ × ν), l.Pairwise (fun a b => a.1 < b.1) → a ∈ l → b ∈ l → a = b := by
    intro l hl
    induction l with
    | nil => intro ha; exact absurd ha List.not_mem_nil
    | cons e rest ih =>
        obtain ⟨he, hrest⟩ := List.pairwise_cons.mp hl
        intro ha hb
        rcases List.mem_cons.mp ha with hae | ha'
        · rcases List.mem_cons.mp hb with hbe | hb'
          · rw [hae, hbe]
          · exact absurd (hae ▸ h) (he b hb').ne
        · rcases List.mem_cons.mp hb with hbe | hb'
          · exact absurd (hbe ▸ h) (he a ha').ne'
          · exact ih hrest ha' hb'
  exact hall t.entries t.sorted ha hb

theorem get_eq_some_iff {t : Table κ ν} {k : κ} {v : ν} :
    t.get k = some v ↔ (k, v) ∈ t.entries := by
  rw [get, Option.map_eq_some_iff]
  constructor
  · rintro ⟨e, he, rfl⟩
    have hk : e.1 = k := by simpa using List.find?_some he
    rw [← hk]
    exact List.mem_of_find?_eq_some he
  · intro h
    cases hf : t.entries.find? (fun e => e.1 = k) with
    | none =>
        have := List.find?_eq_none.mp hf (k, v) h
        simp at this
    | some e =>
        have hk : e.1 = k := by simpa using List.find?_some hf
        have he := eq_of_mem_of_key_eq (List.mem_of_find?_eq_some hf) h hk
        exact ⟨e, rfl, by rw [he]⟩

/-- Equal lookups on sorted entries force equal entries. -/
theorem ext_get {s t : Table κ ν} (h : ∀ k, s.get k = t.get k) : s = t := by
  have hmem : ∀ e, e ∈ s.entries ↔ e ∈ t.entries := by
    intro e
    rw [← get_eq_some_iff (t := s) (k := e.1) (v := e.2), h,
      ← get_eq_some_iff (t := t) (k := e.1) (v := e.2)]
  have : Std.Antisymm (fun a b : κ × ν => a.1 < b.1) :=
    ⟨fun a b hab hba => absurd hab hba.asymm⟩
  have : Std.Irrefl (fun a b : κ × ν => a.1 < b.1) := ⟨fun a => lt_irrefl a.1⟩
  have hentries : s.entries = t.entries := s.sorted.eq_of_mem_iff t.sorted hmem
  cases s
  cases t
  cases hentries
  rfl

@[simp] theorem get_empty (k : κ) : (empty : Table κ ν).get k = none := rfl

theorem get_put (t : Table κ ν) (k k' : κ) (v : ν) :
    (t.put k v).get k' = if k' = k then some v else t.get k' := by
  apply Option.ext
  intro w
  rw [get_eq_some_iff]
  show (k', w) ∈ insertEntry k v t.entries ↔ _
  rw [mem_insertEntry t.sorted]
  by_cases hk : k' = k
  · subst hk
    simp [eq_comm]
  · simp [hk, get_eq_some_iff]

@[simp] theorem get_put_self (t : Table κ ν) (k : κ) (v : ν) : (t.put k v).get k = some v := by
  rw [get_put, if_pos rfl]

theorem get_put_ne (t : Table κ ν) {k k' : κ} (v : ν) (h : k' ≠ k) :
    (t.put k v).get k' = t.get k' := by
  rw [get_put, if_neg h]

theorem get_del (t : Table κ ν) (k k' : κ) :
    (t.del k).get k' = if k' = k then none else t.get k' := by
  apply Option.ext
  intro w
  rw [get_eq_some_iff]
  show (k', w) ∈ t.entries.filter _ ↔ _
  by_cases hk : k' = k
  · simp [hk]
  · simp [hk, get_eq_some_iff]

theorem length_del_le (t : Table κ ν) (k : κ) : (t.del k).entries.length ≤ t.entries.length :=
  List.length_filter_le _ _

theorem length_del_lt {t : Table κ ν} {k : κ} {v : ν} (h : t.get k = some v) :
    (t.del k).entries.length < t.entries.length :=
  List.length_filter_lt_length_iff_exists.mpr ⟨(k, v), get_eq_some_iff.mp h, by simp⟩

theorem mem_seek {t : Table κ ν} {k : κ} {e : κ × ν} :
    e ∈ t.seek k ↔ t.get e.1 = some e.2 ∧ k ≤ e.1 := by
  rw [seek, List.mem_filter, get_eq_some_iff]
  simp

theorem seek_sorted (t : Table κ ν) (k : κ) :
    (t.seek k).Pairwise (fun a b => a.1 < b.1) := t.sorted.filter _

/-- The first entry at or above a stored key is that key's. -/
theorem seek_of_get {t : Table κ ν} {k : κ} {v : ν} (h : t.get k = some v) :
    ∃ rest, t.seek k = (k, v) :: rest ∧ ∀ e ∈ rest, k < e.1 := by
  have hmem : (k, v) ∈ t.seek k := mem_seek.mpr ⟨h, le_rfl⟩
  have hsorted := t.seek_sorted k
  cases hs : t.seek k with
  | nil => rw [hs] at hmem; exact absurd hmem List.not_mem_nil
  | cons e rest =>
      rw [hs] at hmem hsorted
      obtain ⟨he, -⟩ := List.pairwise_cons.mp hsorted
      rcases List.mem_cons.mp hmem with heq | hrest
      · subst heq
        exact ⟨rest, rfl, he⟩
      · have hlt := he _ hrest
        have hle : k ≤ e.1 := (mem_seek.mp (hs ▸ List.mem_cons_self)).2
        exact absurd hlt (not_lt.mpr hle)

end Table

/-- Lists in the order of a key of their members are the same when their members are. -/
theorem eq_of_sorted_by {α : Type} {f : α → κ} {l l' : List α}
    (h : l.Pairwise (fun x y => f x < f y)) (h' : l'.Pairwise (fun x y => f x < f y))
    (hmem : ∀ x, x ∈ l ↔ x ∈ l') : l = l' := by
  have : Std.Antisymm (fun x y : α => f x < f y) := ⟨fun x y hxy hyx => absurd hxy hyx.asymm⟩
  have : Std.Irrefl (fun x y : α => f x < f y) := ⟨fun x => lt_irrefl (f x)⟩
  exact h.eq_of_mem_iff h' hmem

end Lmdb
