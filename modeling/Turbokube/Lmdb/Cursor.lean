import Turbokube.Encoding.Bytes
import Turbokube.Lmdb.Dup

/-!
# Keyed access with its errors

The store refuses to position a cursor on an empty key, and it reports absent
keys.  A key above the size of those it stores is no error here: the cursor is set
to the first key behind it.  `setRange` returns what the cursor has ahead of it,
its position first.
-/

namespace Lmdb

open Encoding

inductive Error where
  | notFound
  | badValSize
  deriving DecidableEq, Repr

/-- The size of the keys that can be stored. -/
def maxKeySize : Nat := 511

def setRange (t : DupTable Bytes Bytes) (k : Bytes) : Except Error (List (Bytes × List Bytes)) :=
  if k.length = 0 then .error .badValSize
  else
    match t.seek k with
    | [] => .error .notFound
    | ahead => .ok ahead

def Table.fetch {ν : Type} (t : Table Bytes ν) (k : Bytes) : Except Error ν :=
  match t.get k with
  | none => .error .notFound
  | some v => .ok v

def Table.remove {ν : Type} (t : Table Bytes ν) (k : Bytes) : Except Error (Table Bytes ν) :=
  match t.get k with
  | none => .error .notFound
  | some _ => .ok (t.del k)

theorem setRange_nil (t : DupTable Bytes Bytes) : setRange t [] = .error .badValSize := rfl

theorem setRange_of_ne_nil {t : DupTable Bytes Bytes} {k : Bytes} (hk : k ≠ []) :
    setRange t k =
      match t.seek k with
      | [] => .error .notFound
      | ahead => .ok ahead := by
  rw [setRange, if_neg (fun h => hk (List.length_eq_zero_iff.mp h))]

/-- A cursor set to a stored key stands on it. -/
theorem setRange_of_dups_ne_nil {t : DupTable Bytes Bytes} {k : Bytes} (hk : k ≠ [])
    (h : t.dups k ≠ []) :
    ∃ rest, setRange t k = .ok ((k, t.dups k) :: rest) ∧ ∀ e ∈ rest, k < e.1 := by
  obtain ⟨rest, hseek, hrest⟩ := DupTable.seek_of_dups_ne_nil h
  exact ⟨rest, by rw [setRange_of_ne_nil hk, hseek], hrest⟩

/-- A cursor set to a key without values finds nothing or stands on a greater
key. -/
theorem setRange_of_dups_eq_nil {t : DupTable Bytes Bytes} {k : Bytes} (hk : k ≠ [])
    (h : t.dups k = []) :
    setRange t k = .error .notFound ∨
      ∃ e rest, setRange t k = .ok (e :: rest) ∧ k < e.1 := by
  rw [setRange_of_ne_nil hk]
  cases hs : t.seek k with
  | nil => exact .inl rfl
  | cons e rest =>
      have hmem : e ∈ t.seek k := by rw [hs]; exact List.mem_cons_self
      exact .inr ⟨e, rest, rfl, DupTable.lt_of_mem_seek_of_dups_eq_nil h hmem⟩

end Lmdb
