import Mathlib.Data.List.Flatten
import Turbokube.Lmdb.Dup

/-!
# A cursor that deletes what it stands on

When the last value of a key is deleted, the key goes with it.  LMDB leaves the
cursor on the key behind it and marks it, so that `Next` returns that key and does
not step over it.  But every call clears the mark, also one that fails: `NextDup`
finds nothing, and a `Next` after it steps over the key.  Only a key with a page of
its own is entered all the same, since the cursor of that page is marked as well and
keeps its mark.

`Cursor.advance` is the sequence of `Del`, `NextDup` and, where this finds nothing,
`Next`.  `walk t` are the entries that a cursor meets which starts at the first one
and goes on like this.  `walk_eq` says which keys these are.
-/

namespace Lmdb

variable {κ ν : Type} [LinearOrder ν]

/-- Where a cursor is that started at the first entry and deleted each one it was
on. -/
inductive Cursor (κ ν : Type) [LinearOrder ν] where
  /-- On a value.  The other values of its key come next. -/
  | on (key : κ) (value : ν) (values : List ν) (ahead : List (κ × DupSet ν))
  /-- Behind a deleted value of a key that has others. -/
  | inside (key : κ) (values : List ν) (ahead : List (κ × DupSet ν))
  /-- Behind a deleted key, on the first one of `ahead`. -/
  | between (mark : Bool) (ahead : List (κ × DupSet ν))

namespace Cursor

def enter : List (κ × DupSet ν) → Option (κ × ν) × Cursor κ ν
  | [] => (none, between false [])
  | (k, s) :: ahead =>
      (some (k, s.elems.head s.nonempty), on k (s.elems.head s.nonempty) s.elems.tail ahead)

def del : Cursor κ ν → Cursor κ ν
  | on _ _ [] ahead => between true ahead
  | on k _ (v :: vs) ahead => inside k (v :: vs) ahead
  | c => c

def nextDup : Cursor κ ν → Option (κ × ν) × Cursor κ ν
  | on k _ (v :: vs) ahead => (some (k, v), on k v vs ahead)
  | inside k (v :: vs) ahead => (some (k, v), on k v vs ahead)
  | between _ ahead => (none, between false ahead)
  | c => (none, c)

def next : Cursor κ ν → Option (κ × ν) × Cursor κ ν
  | on k _ (v :: vs) ahead => (some (k, v), on k v vs ahead)
  | inside k (v :: vs) ahead => (some (k, v), on k v vs ahead)
  | on _ _ [] ahead => enter ahead
  | inside _ [] ahead => enter ahead
  | between true ahead => enter ahead
  | between false [] => enter []
  | between false ((k, s) :: ahead) => if s.sub then enter ((k, s) :: ahead) else enter ahead

def advance (c : Cursor κ ν) : Option (κ × ν) × Cursor κ ν :=
  match c.del.nextDup with
  | (some e, c) => (some e, c)
  | (none, c) => c.next

/-- The entries met, up to a number of them. -/
def met : Nat → Option (κ × ν) × Cursor κ ν → List (κ × ν)
  | n + 1, (some e, c) => e :: met n c.advance
  | _, _ => []

end Cursor

/-- The entries of some keys. -/
def spread (l : List (κ × DupSet ν)) : List (κ × ν) :=
  l.flatMap (fun e => e.2.elems.map (fun v => (e.1, v)))

/-- The keys met, where the first one may be `stepping` over. -/
def visited : Bool → List (κ × DupSet ν) → List (κ × DupSet ν)
  | _, [] => []
  | stepping, e :: ahead =>
      if stepping && !e.2.sub then visited false ahead else e :: visited true ahead

namespace Cursor

/-- All values of the key are met, and then what comes after the call that found no
other. -/
theorem met_on (k : κ) (v : ν) (vs : List ν) (ahead : List (κ × DupSet ν)) (n : Nat) :
    met (vs.length + 1 + n) (some (k, v), on k v vs ahead) =
      (v :: vs).map (fun v => (k, v)) ++ met n (between false ahead).next := by
  induction vs generalizing v with
  | nil =>
      rw [List.length_nil, Nat.zero_add, Nat.add_comm, met]
      rfl
  | cons w ws ih =>
      rw [show (w :: ws).length + 1 + n = ws.length + 1 + n + 1 by simp; omega, met]
      show (k, v) :: met _ (some (k, w), on k w ws ahead) = _
      rw [ih w]
      rfl

/-- What is met from the first key on, and behind a deleted one. -/
theorem met_eq {l : List (κ × DupSet ν)} {n : Nat} (hn : (spread l).length ≤ n) :
    met n (enter l) = spread (visited false l) ∧
      met n (between false l).next = spread (visited true l) := by
  induction l generalizing n with
  | nil =>
      constructor
      · cases n <;> rfl
      · cases n <;> rfl
  | cons e l ih =>
      obtain ⟨k, s⟩ := e
      have hlen : (spread ((k, s) :: l)).length = s.elems.length + (spread l).length := by
        simp [spread]
      have hcons : s.elems.head s.nonempty :: s.elems.tail = s.elems :=
        List.cons_head_tail s.nonempty
      have hpos := List.length_pos_iff.mpr s.nonempty
      have htail : s.elems.tail.length + 1 = s.elems.length := by
        rw [List.length_tail]
        omega
      obtain ⟨m, rfl⟩ : ∃ m, n = s.elems.tail.length + 1 + m := ⟨n - s.elems.length, by omega⟩
      have henter : met (s.elems.tail.length + 1 + m) (enter ((k, s) :: l)) =
          spread ((k, s) :: visited true l) := by
        rw [enter, met_on, hcons, (ih (n := m) (by omega)).2]
        rfl
      constructor
      · rw [henter]
        rfl
      · rw [next, visited]
        cases hs : s.sub with
        | true => simpa [hs] using henter
        | false =>
            simpa [hs] using (ih (n := s.elems.tail.length + 1 + m) (by omega)).1

end Cursor

section Visited

variable {l : List (κ × DupSet ν)} {e : κ × DupSet ν}

theorem visited_sublist (stepping : Bool) (l : List (κ × DupSet ν)) :
    (visited stepping l).Sublist l := by
  induction l generalizing stepping with
  | nil => exact .slnil
  | cons e l ih =>
      rw [visited]
      split
      · exact (ih false).cons e
      · exact (ih true).cons_cons e

/-- A key with a page of its own is not stepped over. -/
theorem mem_visited_of_sub (stepping : Bool) (he : e ∈ l) (hsub : e.2.sub = true) :
    e ∈ visited stepping l := by
  induction l generalizing stepping with
  | nil => cases he
  | cons a l ih =>
      rw [visited]
      rcases List.mem_cons.mp he with rfl | he
      · rw [hsub, Bool.not_true, Bool.and_false]
        exact List.mem_cons_self
      · split
        · exact ih false he
        · exact List.mem_cons_of_mem _ (ih true he)

/-- Of two keys in a row one is met. -/
theorem visited_of_two (stepping : Bool) (pre : List (κ × DupSet ν)) (a b : κ × DupSet ν)
    (post : List (κ × DupSet ν)) :
    a ∈ visited stepping (pre ++ a :: b :: post) ∨
      b ∈ visited stepping (pre ++ a :: b :: post) := by
  induction pre generalizing stepping with
  | nil =>
      rw [List.nil_append, visited]
      split
      · exact .inr (by simp [visited])
      · exact .inl List.mem_cons_self
  | cons c pre ih =>
      rw [List.cons_append, visited]
      split
      · exact ih false
      · exact (ih true).imp (List.mem_cons_of_mem _) (List.mem_cons_of_mem _)

/-- A key that is met although those before it were met has a page of its own. -/
theorem sub_of_mem_visited [LinearOrder κ] (hsorted : l.Pairwise (fun a b => a.1 < b.1))
    (he : e ∈ visited true l)
    (hbefore : ∀ a ∈ l, a.1 < e.1 → a ∈ visited true l) : e.2.sub = true := by
  induction l with
  | nil => cases he
  | cons a l ih =>
      obtain ⟨ha, hsorted⟩ := List.pairwise_cons.mp hsorted
      have hmem := (visited_sublist true _).subset he
      have hle : a.1 ≤ e.1 := by
        rcases List.mem_cons.mp hmem with rfl | hmem
        · exact le_rfl
        · exact (ha e hmem).le
      -- the first key is met, so it has a page
      have hfirst : a ∈ visited true (a :: l) := by
        rcases hle.lt_or_eq with hlt | heq
        · exact hbefore a List.mem_cons_self hlt
        · rcases List.mem_cons.mp hmem with rfl | hmem
          · exact he
          · exact absurd heq (ha e hmem).ne
      have hsub : a.2.sub = true := by
        by_contra hsub
        rw [Bool.not_eq_true] at hsub
        rw [visited, hsub] at hfirst
        exact lt_irrefl _ (ha a ((visited_sublist false l).subset hfirst))
      have hstep : visited true (a :: l) = a :: visited true l := by
        rw [visited, hsub]
        rfl
      rw [hstep] at he hbefore
      rcases List.mem_cons.mp he with rfl | he
      · exact hsub
      · refine ih hsorted he (fun b hb hlt => ?_)
        rcases List.mem_cons.mp (hbefore b (List.mem_cons_of_mem _ hb) hlt) with rfl | hmem
        · exact absurd (ha b hb) (lt_irrefl _)
        · exact hmem

end Visited

namespace DupTable

variable [LinearOrder κ] {t : DupTable κ ν} {k k' : κ}

def walk (t : DupTable κ ν) : List (κ × ν) :=
  Cursor.met t.pairs.length (Cursor.enter t.table.entries)

/-- A key that the walk meets. -/
def Visits (t : DupTable κ ν) (k : κ) : Prop := ∃ s, (k, s) ∈ visited false t.table.entries

theorem walk_eq (t : DupTable κ ν) : t.walk = spread (visited false t.table.entries) :=
  (Cursor.met_eq (n := t.pairs.length) le_rfl).1

theorem walk_sublist (t : DupTable κ ν) : t.walk.Sublist t.pairs := by
  rw [walk_eq]
  exact (visited_sublist false _).flatMap _

theorem mem_walk {p : κ × ν} : p ∈ t.walk ↔ p ∈ t.pairs ∧ t.Visits p.1 := by
  constructor
  · intro hp
    refine ⟨t.walk_sublist.subset hp, ?_⟩
    rw [walk_eq, spread, List.mem_flatMap] at hp
    obtain ⟨e, he, hp⟩ := hp
    obtain ⟨v, -, rfl⟩ := List.mem_map.mp hp
    exact ⟨e.2, he⟩
  · rintro ⟨hp, s, hs⟩
    rw [walk_eq, spread, List.mem_flatMap]
    have hget := Table.get_eq_some_iff.mpr ((visited_sublist false _).subset hs)
    rw [mem_pairs, dups, hget] at hp
    exact ⟨_, hs, List.mem_map_of_mem hp⟩

theorem exists_entry (h : t.dups k ≠ []) : ∃ s, (k, s) ∈ t.table.entries := by
  cases hget : t.table.get k with
  | none => exact absurd (dups_eq_nil_iff.mpr hget) h
  | some s => exact ⟨s, Table.get_eq_some_iff.mp hget⟩

theorem dups_of_entry {s : DupSet ν} (h : (k, s) ∈ t.table.entries) : t.dups k ≠ [] := by
  rw [dups, Table.get_eq_some_iff.mpr h]
  exact s.nonempty

theorem Visits.dups_ne_nil (h : t.Visits k) : t.dups k ≠ [] := by
  obtain ⟨s, hs⟩ := h
  exact dups_of_entry ((visited_sublist false _).subset hs)

theorem visits_of_sub (h : t.sub k = true) : t.Visits k := by
  cases hget : t.table.get k with
  | none => simp [sub, hget] at h
  | some s =>
      refine ⟨s, mem_visited_of_sub false (Table.get_eq_some_iff.mp hget) ?_⟩
      simpa [sub, hget] using h

theorem visits_first (h : t.dups k ≠ []) (hfirst : ∀ k', t.dups k' ≠ [] → k ≤ k') :
    t.Visits k := by
  obtain ⟨s, hs⟩ := exists_entry h
  cases hl : t.table.entries with
  | nil =>
      rw [hl] at hs
      cases hs
  | cons e l =>
      have hsorted := t.table.sorted
      have hle := hfirst e.1 (dups_of_entry (s := e.2) (by rw [hl]; exact List.mem_cons_self))
      rw [hl] at hs hsorted
      rcases List.mem_cons.mp hs with rfl | hs
      · exact ⟨s, by rw [hl]; exact List.mem_cons_self⟩
      · exact absurd ((List.pairwise_cons.mp hsorted).1 _ hs) (not_lt.mpr hle)

/-- Of two keys or those between them one is met. -/
theorem visits_of_lt (h : t.dups k ≠ []) (h' : t.dups k' ≠ []) (hlt : k < k') :
    ∃ x, k ≤ x ∧ x ≤ k' ∧ t.Visits x := by
  obtain ⟨s, hs⟩ := exists_entry h
  obtain ⟨s', hs'⟩ := exists_entry h'
  obtain ⟨pre, post, hl⟩ := List.append_of_mem hs
  have hsorted := t.table.sorted
  rw [hl] at hs' hsorted
  obtain ⟨-, hpost, hpre⟩ := List.pairwise_append.mp hsorted
  obtain ⟨hk, hpost⟩ := List.pairwise_cons.mp hpost
  have hmem : (k', s') ∈ post := by
    rcases List.mem_append.mp hs' with hs' | hs'
    · exact absurd (hpre _ hs' _ List.mem_cons_self) hlt.not_gt
    · rcases List.mem_cons.mp hs' with heq | hs'
      · exact absurd (congrArg Prod.fst heq) hlt.ne'
      · exact hs'
  cases post with
  | nil => cases hmem
  | cons e post =>
      have hle : e.1 ≤ k' := by
        rcases List.mem_cons.mp hmem with heq | hmem
        · exact (congrArg Prod.fst heq).ge
        · exact ((List.pairwise_cons.mp hpost).1 _ hmem).le
      rcases visited_of_two false pre (k, s) e post with hmet | hmet
      · exact ⟨k, le_rfl, hlt.le, s, by rw [hl]; exact hmet⟩
      · exact ⟨e.1, (hk e List.mem_cons_self).le, hle, e.2, by rw [hl]; exact hmet⟩

/-- A key behind others that are all met is met only if it has a page of its own. -/
theorem sub_of_visits (h : t.Visits k) (hlt : ∃ x, t.dups x ≠ [] ∧ x < k)
    (hbefore : ∀ x, t.dups x ≠ [] → x < k → t.Visits x) : t.sub k = true := by
  obtain ⟨s, hs⟩ := h
  obtain ⟨x, hx, hxk⟩ := hlt
  have hsub : s.sub = t.sub k := by
    simp [sub, Table.get_eq_some_iff.mpr ((visited_sublist false _).subset hs)]
  rw [← hsub]
  have hvisits : ∀ a ∈ t.table.entries, a.1 < k → a ∈ visited false t.table.entries := by
    intro a ha hak
    obtain ⟨s', hs'⟩ := hbefore a.1 (dups_of_entry (s := a.2) ha) hak
    have hget := Table.get_eq_some_iff.mpr ((visited_sublist false _).subset hs')
    rw [Table.get_eq_some_iff.mpr (show (a.1, a.2) ∈ t.table.entries from ha)] at hget
    rwa [← Option.some.inj hget] at hs'
  obtain ⟨sx, hsx⟩ := exists_entry hx
  cases hl : t.table.entries with
  | nil =>
      rw [hl] at hsx
      cases hsx
  | cons e l =>
      have hsorted := t.table.sorted
      rw [hl] at hs hsx hvisits hsorted
      obtain ⟨he, hsorted⟩ := List.pairwise_cons.mp hsorted
      have hfirst : visited false (e :: l) = e :: visited true l := rfl
      rw [hfirst] at hs hvisits
      have hek : e.1 < k := by
        rcases List.mem_cons.mp hsx with heq | hsx
        · rw [← heq]
          exact hxk
        · exact (he _ hsx).trans hxk
      rcases List.mem_cons.mp hs with heq | hs
      · exact absurd (congrArg Prod.fst heq) hek.ne'
      · refine sub_of_mem_visited hsorted hs (fun a ha hlt => ?_)
        rcases List.mem_cons.mp (hvisits a (List.mem_cons_of_mem _ ha) hlt) with rfl | hmem
        · exact absurd (he a ha) (lt_irrefl _)
        · exact hmem

end DupTable

end Lmdb
