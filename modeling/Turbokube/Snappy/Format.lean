import Mathlib.Logic.Relation
import Turbokube.Encoding.LittleEndian

/-!
# The snappy block format

A block is the length of the data as a varint and a sequence of elements.  An element is a literal,
which brings its own bytes, or a copy of bytes already decoded, given by how far back they start.  A
copy may reach into the bytes it writes itself.

`readElement` reads one element and `Element.apply` decodes it into a buffer of a given capacity.
`Decodes cap` is any number of such steps.
-/

namespace Snappy

open Encoding

inductive Element where
  | literal (bytes : Bytes)
  | copy (offset length : Nat)
  deriving DecidableEq, Repr

/-- Append `length` bytes, each the one `offset` back. -/
def copyFrom (offset : Nat) : Nat → Bytes → Bytes
  | 0, out => out
  | length + 1, out => copyFrom offset length (out ++ [out.getD (out.length - offset) 0])

def Element.apply (cap : Nat) (out : Bytes) : Element → Option Bytes
  | .literal bytes => if out.length + bytes.length ≤ cap then some (out ++ bytes) else none
  | .copy offset length =>
      if 0 < offset ∧ offset ≤ out.length ∧ out.length + length ≤ cap then
        some (copyFrom offset length out)
      else none

/-- The number of bytes after a tag that belong to it. -/
def operands (tag : UInt8) : Nat :=
  match tag.toNat % 4 with
  | 0 => tag.toNat / 4 - 59
  | 1 => 1
  | 2 => 2
  | _ => 4

/-- The length of a literal, in the tag itself or in its operand `x`. -/
def literalLength (tag : UInt8) (x : Nat) : Nat :=
  (if tag.toNat / 4 < 60 then tag.toNat / 4 else x) + 1

/-- The element that starts with a tag, from what follows it. -/
def readTagged (tag : UInt8) (rest : Bytes) : Option (Element × Bytes) :=
  if rest.length < operands tag then none
  else
    let x := leNat (rest.take (operands tag))
    let rest := rest.drop (operands tag)
    match tag.toNat % 4 with
    | 0 =>
        if rest.length < literalLength tag x then none
        else
          some (.literal (rest.take (literalLength tag x)), rest.drop (literalLength tag x))
    | 1 => some (.copy (tag.toNat / 32 * 256 + x) (4 + tag.toNat / 4 % 8), rest)
    | _ => some (.copy x (1 + tag.toNat / 4), rest)

def readElement : Bytes → Option (Element × Bytes)
  | [] => none
  | tag :: rest => readTagged tag rest

/-- The length a block starts with, and its elements. -/
def header : Bytes → Option (Nat × Bytes)
  | [] => none
  | b :: rest =>
      if b.toNat < 128 then some (b.toNat, rest)
      else
        match header rest with
        | none => none
        | some (n, rest) => some (b.toNat - 128 + 128 * n, rest)

/-- One element of the input is decoded.  A state is what is left of the input and the output. -/
def Step (cap : Nat) (p q : Bytes × Bytes) : Prop :=
  ∃ e, readElement p.1 = some (e, q.1) ∧ e.apply cap p.2 = some q.2

def Decodes (cap : Nat) : Bytes × Bytes → Bytes × Bytes → Prop := Relation.ReflTransGen (Step cap)

theorem copyFrom_length (offset length : Nat) (out : Bytes) :
    (copyFrom offset length out).length = out.length + length := by
  induction length generalizing out with
  | zero => rfl
  | succ length ih =>
      rw [copyFrom, ih, List.length_append, List.length_singleton]
      omega

theorem copyFrom_add (offset m n : Nat) (out : Bytes) :
    copyFrom offset (m + n) out = copyFrom offset n (copyFrom offset m out) := by
  induction m generalizing out with
  | zero => rw [Nat.zero_add, copyFrom]
  | succ m ih => rw [Nat.succ_add, copyFrom, ih, copyFrom]

/-- Copying bytes that occur again further on. -/
theorem copyFrom_eq {out data : Bytes} {offset : Nat} (hpos : 0 < offset)
    (hle : offset ≤ out.length)
    (h : ∀ j < data.length, (out ++ data)[out.length - offset + j]? = data[j]?) :
    copyFrom offset data.length out = out ++ data := by
  induction data generalizing out with
  | nil => rw [List.length_nil, copyFrom, List.append_nil]
  | cons b data ih =>
      have hfirst : out.getD (out.length - offset) 0 = b := by
        have hb := h 0 (Nat.zero_lt_succ _)
        rw [Nat.add_zero, List.getElem?_append_left (by omega)] at hb
        rw [List.getD_eq_getElem?_getD, hb]
        rfl
      rw [List.length_cons, copyFrom, hfirst, ih, List.append_assoc, List.singleton_append]
      · rw [List.length_append]
        omega
      · intro j hj
        have hnext := h (j + 1) (Nat.succ_lt_succ hj)
        rw [List.getElem?_cons_succ] at hnext
        rw [List.append_assoc, List.singleton_append, List.length_append, List.length_singleton,
          ← hnext]
        congr 1
        omega

theorem Element.apply_length_le {cap : Nat} {out out' : Bytes} {e : Element}
    (h : e.apply cap out = some out') : out'.length ≤ cap := by
  cases e with
  | literal bytes =>
      rw [apply] at h
      split at h
      · rename_i hle
        rw [← Option.some.inj h, List.length_append]
        exact hle
      · cases h
  | copy offset length =>
      rw [apply] at h
      split at h
      · rename_i hok
        rw [← Option.some.inj h, copyFrom_length]
        exact hok.2.2
      · cases h

/-- What follows an element is an end of the input, shorter by the tag at least. -/
theorem readElement_drop {src rest : Bytes} {e : Element} (h : readElement src = some (e, rest)) :
    ∃ n, 0 < n ∧ n ≤ src.length ∧ rest = src.drop n := by
  cases src with
  | nil => cases h
  | cons tag more =>
      rw [readElement, readTagged] at h
      split at h
      · cases h
      · rename_i hlen
        simp only at h
        split at h
        · split at h
          · cases h
          · rename_i hlit
            obtain ⟨-, rfl⟩ := Prod.mk.inj (Option.some.inj h)
            rw [List.length_drop] at hlit
            rw [List.drop_drop]
            refine ⟨operands tag + literalLength tag _ + 1, Nat.succ_pos _, ?_,
              (List.drop_succ_cons ..).symm⟩
            rw [List.length_cons]
            omega
        all_goals
          obtain ⟨-, rfl⟩ := Prod.mk.inj (Option.some.inj h)
          refine ⟨operands tag + 1, Nat.succ_pos _, ?_, ?_⟩
          · rw [List.length_cons]
            omega
          · rw [List.drop_succ_cons]

/-- `bytes` take the output from `out` to `out'`, whatever follows them. -/
def Emits (cap : Nat) (bytes out out' : Bytes) : Prop :=
  ∀ rest, Decodes cap (bytes ++ rest, out) (rest, out')

theorem Emits.nil (cap : Nat) (out : Bytes) : Emits cap [] out out := fun _ => .refl

theorem Emits.append {cap : Nat} {b₁ b₂ out out₁ out₂ : Bytes} (h₁ : Emits cap b₁ out out₁)
    (h₂ : Emits cap b₂ out₁ out₂) : Emits cap (b₁ ++ b₂) out out₂ := by
  intro rest
  rw [List.append_assoc]
  exact (h₁ _).trans (h₂ rest)

theorem Emits.of_element {cap : Nat} {bytes out out' : Bytes} {e : Element}
    (hread : ∀ rest, readElement (bytes ++ rest) = some (e, rest))
    (happly : e.apply cap out = some out') : Emits cap bytes out out' :=
  fun rest => .single ⟨e, hread rest, happly⟩

theorem readTagged_literal {tag : UInt8} {ops lit : Bytes} (htag : tag.toNat % 4 = 0)
    (hops : ops.length = operands tag) (hlen : literalLength tag (leNat ops) = lit.length)
    (rest : Bytes) : readTagged tag (ops ++ (lit ++ rest)) = some (.literal lit, rest) := by
  rw [readTagged, if_neg (by rw [List.length_append]; omega), ← hops, List.take_left,
    List.drop_left, htag]
  simp only [hlen]
  rw [if_neg (by rw [List.length_append]; omega), List.take_left, List.drop_left]

theorem readTagged_copy1 {tag : UInt8} {ops : Bytes} (htag : tag.toNat % 4 = 1)
    (hops : ops.length = operands tag) (rest : Bytes) :
    readTagged tag (ops ++ rest) =
      some (.copy (tag.toNat / 32 * 256 + leNat ops) (4 + tag.toNat / 4 % 8), rest) := by
  rw [readTagged, if_neg (by rw [List.length_append]; omega), ← hops, List.take_left,
    List.drop_left, htag]
  rfl

theorem readTagged_copy2 {tag : UInt8} {ops : Bytes} (htag : tag.toNat % 4 = 2)
    (hops : ops.length = operands tag) (rest : Bytes) :
    readTagged tag (ops ++ rest) = some (.copy (leNat ops) (1 + tag.toNat / 4), rest) := by
  rw [readTagged, if_neg (by rw [List.length_append]; omega), ← hops, List.take_left,
    List.drop_left, htag]
  rfl

theorem Step.unique {cap : Nat} {p q q' : Bytes × Bytes} (h : Step cap p q) (h' : Step cap p q') :
    q = q' := by
  obtain ⟨e, hread, happly⟩ := h
  obtain ⟨e', hread', happly'⟩ := h'
  obtain ⟨rfl, hfst⟩ := Prod.mk.inj (Option.some.inj (hread.symm.trans hread'))
  exact Prod.ext hfst (Option.some.inj (happly.symm.trans happly'))

end Snappy
