import Mathlib.Data.List.Lex
import Mathlib.Order.Basic

/-!
# Byte strings

Byte strings are lists of bytes in lexicographic order, the order in which an
ordered store with the default comparison keeps its keys.  The order on bytes
is the one of their values.
-/

namespace Encoding

abbrev Bytes := List UInt8

instance byteLinearOrder : LinearOrder UInt8 where
  le_refl a := Nat.le_refl a.toNat
  le_trans a b c := @Nat.le_trans a.toNat b.toNat c.toNat
  le_antisymm a b hab hba := UInt8.toNat_inj.mp (Nat.le_antisymm hab hba)
  le_total a b := Nat.le_total a.toNat b.toNat
  lt_iff_le_not_ge a b := by
    rw [UInt8.lt_iff_toNat_lt, UInt8.le_iff_toNat_le, UInt8.le_iff_toNat_le]
    omega
  toDecidableLE := inferInstance
  toDecidableEq := inferInstance
  toDecidableLT := inferInstance

theorem nil_lt_cons (b : UInt8) (s : Bytes) : ([] : Bytes) < b :: s := List.Lex.nil

theorem cons_lt_cons_iff {a b : UInt8} {s t : Bytes} :
    a :: s < b :: t ↔ a < b ∨ a = b ∧ s < t := List.cons_lt_cons_iff

/-- A common prefix does not affect the order. -/
theorem append_lt_append_iff (p : Bytes) {s t : Bytes} : p ++ s < p ++ t ↔ s < t := by
  induction p with
  | nil => exact Iff.rfl
  | cons b p ih =>
      rw [List.cons_append, List.cons_append, cons_lt_cons_iff, ih]
      constructor
      · rintro (h | h)
        · exact absurd h (lt_irrefl b)
        · exact h.2
      · intro h
        exact .inr ⟨rfl, h⟩

/-- Two strings of one length that differ decide the order of everything that
extends them. -/
theorem append_lt_append_of_lt {p q : Bytes} (hlen : p.length = q.length) (h : p < q)
    (s t : Bytes) : p ++ s < q ++ t := by
  induction p generalizing q with
  | nil =>
      have hq : q = [] := List.length_eq_zero_iff.mp hlen.symm
      subst hq
      exact absurd h (lt_irrefl _)
  | cons a p ih =>
      cases q with
      | nil => exact absurd hlen (by simp)
      | cons b q =>
          rw [List.cons_append, List.cons_append, cons_lt_cons_iff]
          rcases cons_lt_cons_iff.mp h with hab | ⟨hab, hpq⟩
          · exact .inl hab
          · exact .inr ⟨hab, ih (by simpa using hlen) hpq⟩

/-- A string is not above its extensions. -/
theorem le_append (p s : Bytes) : p ≤ p ++ s := by
  induction p with
  | nil =>
      cases s with
      | nil => exact le_rfl
      | cons b s => exact (nil_lt_cons b s).le
  | cons b p ih =>
      rw [List.cons_append]
      exact List.cons_le_cons b ih

/-- What lies between a string and one of its extensions extends it. -/
theorem exists_append_of_le_of_lt {p x s : Bytes} (hle : p ≤ x) (hlt : x < p ++ s) :
    ∃ z, x = p ++ z := by
  induction p generalizing x with
  | nil => exact ⟨x, rfl⟩
  | cons a p ih =>
      cases x with
      | nil => exact absurd (nil_lt_cons a p) (not_lt.mpr hle)
      | cons b x =>
          rw [List.cons_append, cons_lt_cons_iff] at hlt
          rcases hlt with hba | ⟨rfl, hlt⟩
          · exact absurd (cons_lt_cons_iff.mpr (.inl hba)) (not_lt.mpr hle)
          · have hle' : p ≤ x := not_lt.mp (fun h =>
              not_lt.mpr hle (cons_lt_cons_iff.mpr (.inr ⟨rfl, h⟩)))
            obtain ⟨z, rfl⟩ := ih hle' hlt
            exact ⟨z, rfl⟩

end Encoding
