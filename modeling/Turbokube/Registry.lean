import Turbokube.Lmdb.Table

/-!
# Registries whose holders call back

A registry gives ids to holders, which are numbered in the order they come.  A holder that is
cancelled loses its id at once and calls back later.  The call back looks the id up again, and
removes and cancels whoever has it by then.

`Consistent` says that the ids in the table are those of the holders that were not cancelled,
and that no holder whose call back is still to come finds its id.  A new holder keeps it so if
its id is not one that a late call back will look up (`Consistent.add`).
-/

namespace Registry

open Lmdb

variable {κ : Type} [LinearOrder κ]

structure Holder (κ : Type) where
  id : κ
  canceled : Bool := false
  called : Bool := false

/-- The holder was cancelled, and its call back is still to come. -/
def Holder.Late (m : Holder κ) : Prop := m.canceled = true ∧ m.called = false

def Holder.cancel (m : Holder κ) : Holder κ := { m with canceled := true }

def Holder.call (m : Holder κ) : Holder κ := { m with called := true }

theorem map_modify {α β : Type} {f : α → α} {f' : β → β} {g : α → β}
    (h : ∀ a, g (f a) = f' (g a)) (l : List α) (i : Nat) :
    (l.modify i f).map g = (l.map g).modify i f' := by
  refine List.ext_getElem? (fun j => ?_)
  rw [List.getElem?_map, List.getElem?_modify, List.getElem?_modify, List.getElem?_map]
  cases l[j]? with
  | none => rfl
  | some a =>
      simp only [Option.map_eq_map, Option.map_some]
      split
      · rw [h]
      · rfl

theorem map_modify_of_eq {α β : Type} {f : α → α} {g : α → β} (h : ∀ a, g (f a) = g a)
    (l : List α) (i : Nat) : (l.modify i f).map g = l.map g := by
  rw [@map_modify _ _ f id g h, List.modify_id]

/-- What is at a place of a list of which one place was changed. -/
theorem getElem?_modify_cases {α : Type} {f : α → α} {l : List α} {i j : Nat} {a : α}
    (h : (l.modify i f)[j]? = some a) :
    i = j ∧ (∃ b, l[j]? = some b ∧ a = f b) ∨ i ≠ j ∧ l[j]? = some a := by
  rw [List.getElem?_modify] at h
  obtain ⟨b, hb, hab⟩ := Option.map_eq_some_iff.mp h
  split at hab
  · next heq => exact .inl ⟨heq, b, hb, hab.symm⟩
  · next hne =>
      obtain rfl := hab
      exact .inr ⟨hne, hb⟩

theorem mem_modify_cases {α : Type} {f : α → α} {l : List α} {i : Nat} {a : α}
    (h : a ∈ l.modify i f) : (∃ b, l[i]? = some b ∧ a = f b) ∨ a ∈ l := by
  obtain ⟨j, hj⟩ := List.mem_iff_getElem?.mp h
  rcases getElem?_modify_cases hj with ⟨rfl, hb⟩ | ⟨-, hj⟩
  · exact .inl hb
  · exact .inr (List.mem_of_getElem? hj)

structure Consistent (t : Table κ Nat) (l : List (Holder κ)) : Prop where
  entry : ∀ k i, t.get k = some i → ∃ m, l[i]? = some m ∧ m.id = k ∧ m.canceled = false
  registered : ∀ i m, l[i]? = some m → m.canceled = false → t.get m.id = some i
  late : ∀ m ∈ l, m.Late → t.get m.id = none
  called : ∀ m ∈ l, m.called = true → m.canceled = true

namespace Consistent

variable {t : Table κ Nat} {l : List (Holder κ)} {k : κ} {i : Nat} {m : Holder κ}

theorem empty : Consistent (.empty : Table κ Nat) [] where
  entry _ _ h := by cases h
  registered _ _ h := by cases h
  late _ h := by cases h
  called _ h := by cases h

theorem add (h : Consistent t l) (hfree : t.get k = none)
    (hlate : ∀ m ∈ l, m.Late → m.id ≠ k) :
    Consistent (t.put k l.length) (l ++ [{ id := k }]) := by
  constructor
  case entry =>
    intro k' j hget
    rw [Table.get_put] at hget
    split at hget
    · next heq =>
        obtain rfl := Option.some.inj hget
        exact ⟨_, List.getElem?_concat_length, heq.symm, rfl⟩
    · obtain ⟨m, hm, hid, hc⟩ := h.entry k' j hget
      exact ⟨m, List.getElem?_append_left (List.getElem?_eq_some_iff.mp hm).1 ▸ hm, hid, hc⟩
  case registered =>
    intro j m hm hc
    rw [List.getElem?_append] at hm
    split at hm
    · have hget := h.registered j m hm hc
      have hne : m.id ≠ k := fun heq => by
        rw [heq, hfree] at hget
        cases hget
      rw [Table.get_put_ne _ _ hne]
      exact hget
    · next hge =>
        obtain ⟨hlt, rfl⟩ := List.getElem?_eq_some_iff.mp hm
        rw [List.length_singleton] at hlt
        have hj : j = l.length := by omega
        rw [List.getElem_singleton, Table.get_put_self, hj]
  case late =>
    intro m hm hml
    rcases List.mem_append.mp hm with hm | hm
    · rw [Table.get_put_ne _ _ (hlate m hm hml)]
      exact h.late m hm hml
    · rw [List.mem_singleton.mp hm] at hml
      cases hml.1
  case called =>
    intro m hm hcalled
    rcases List.mem_append.mp hm with hm | hm
    · exact h.called m hm hcalled
    · rw [List.mem_singleton.mp hm] at hcalled
      cases hcalled

theorem cancel (h : Consistent t l) (hget : t.get k = some i) :
    Consistent (t.del k) (l.modify i Holder.cancel) := by
  obtain ⟨mi, hmi, hid, -⟩ := h.entry k i hget
  constructor
  case entry =>
    intro k' j hj
    rw [Table.get_del] at hj
    split at hj
    · cases hj
    · next hne =>
        obtain ⟨m, hm, hmid, hc⟩ := h.entry k' j hj
        have hij : i ≠ j := fun heq => by
          rw [← heq, hmi] at hm
          obtain rfl := Option.some.inj hm
          exact hne (hmid.symm.trans hid)
        exact ⟨m, (List.getElem?_modify_ne _ _ hij).trans hm, hmid, hc⟩
  case registered =>
    intro j m hm hc
    rcases getElem?_modify_cases hm with ⟨-, b, -, rfl⟩ | ⟨hij, hm⟩
    · cases hc
    · have hj := h.registered j m hm hc
      have hne : m.id ≠ k := fun heq => by
        rw [heq, hget] at hj
        exact hij (Option.some.inj hj)
      rw [Table.get_del, if_neg hne]
      exact hj
  case late =>
    intro m hm hml
    obtain ⟨j, hj⟩ := List.mem_iff_getElem?.mp hm
    rw [Table.get_del]
    split
    · rfl
    · next hne =>
        rcases getElem?_modify_cases hj with ⟨heq, b, hb, rfl⟩ | ⟨-, hj⟩
        · rw [← heq, hmi] at hb
          obtain rfl := Option.some.inj hb
          exact absurd hid hne
        · exact h.late m (List.mem_of_getElem? hj) hml
  case called =>
    intro m hm hcalled
    obtain ⟨j, hj⟩ := List.mem_iff_getElem?.mp hm
    rcases getElem?_modify_cases hj with ⟨-, b, -, rfl⟩ | ⟨-, hj⟩
    · rfl
    · exact h.called m (List.mem_of_getElem? hj) hcalled

theorem call (h : Consistent t l) (hm : l[i]? = some m) (hc : m.canceled = true) :
    Consistent t (l.modify i Holder.call) := by
  constructor
  case entry =>
    intro k j hget
    obtain ⟨m', hm', hid, hc'⟩ := h.entry k j hget
    have hij : i ≠ j := fun heq => by
      rw [← heq, hm] at hm'
      obtain rfl := Option.some.inj hm'
      rw [hc] at hc'
      cases hc'
    exact ⟨m', (List.getElem?_modify_ne _ _ hij).trans hm', hid, hc'⟩
  case registered =>
    intro j m' hm' hc'
    rcases getElem?_modify_cases hm' with ⟨heq, b, hb, rfl⟩ | ⟨-, hm'⟩
    · exact h.registered j b hb hc'
    · exact h.registered j m' hm' hc'
  case late =>
    intro m' hm' hml
    obtain ⟨j, hj⟩ := List.mem_iff_getElem?.mp hm'
    rcases getElem?_modify_cases hj with ⟨-, b, -, rfl⟩ | ⟨-, hj⟩
    · cases hml.2
    · exact h.late m' (List.mem_of_getElem? hj) hml
  case called =>
    intro m' hm' hcalled
    obtain ⟨j, hj⟩ := List.mem_iff_getElem?.mp hm'
    rcases getElem?_modify_cases hj with ⟨heq, b, hb, rfl⟩ | ⟨-, hj⟩
    · rw [← heq, hm] at hb
      obtain rfl := Option.some.inj hb
      exact hc
    · exact h.called m' (List.mem_of_getElem? hj) hcalled

/-- A holder that was not cancelled finds itself. -/
theorem call_own (h : Consistent t l) (hm : l[i]? = some m) (hc : m.canceled = false) :
    Consistent (t.del m.id) ((l.modify i Holder.cancel).modify i Holder.call) := by
  have hcancel := h.cancel (h.registered i m hm hc)
  have hget : (l.modify i Holder.cancel)[i]? = some m.cancel := by
    rw [List.getElem?_modify_eq, hm]
    rfl
  exact hcancel.call hget rfl

end Consistent

end Registry
