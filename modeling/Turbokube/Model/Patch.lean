import Turbokube.Encoding.Uvarint
import Turbokube.Model.Lcs

/-!
# Making and applying a patch

A patch is the size of the target, a number of edits, and for each edit the part of the source it
replaces, the number of bytes that replace it and these bytes.  `Apply` reads every number as an
unsigned varint and converts it to an `int`, so one from 2^63 on is negative.  A slice that is out
of range and a negative count of bytes to read end it with a run-time panic.

The Zig port casts the numbers to a `usize` of 32 bits, which is a fault for one that does not fit,
and compares each edit with the end of the one before.
-/

namespace Turbokube

open Encoding

namespace Patch

/-- The error of `Apply`, which comes with what has been written so far, or a panic. -/
inductive ApplyError where
  | corrupt (b : Bytes)
  | panic
  deriving DecidableEq, Repr

/-- `readUvarint` of the package. -/
def readInt (r : Bytes) : Except UvarintError (Int × Bytes) :=
  match readUvarint r with
  | .error e => .error e
  | .ok (n, r) => .ok (n.toInt64.toInt, r)

/-- `a[i:j]` for a `j` up to the length of `a`. -/
def slice (a : Bytes) (i j : Int) : Option Bytes :=
  if 0 ≤ i ∧ i ≤ j ∧ j ≤ a.length then some ((a.take j.toNat).drop i.toNat) else none

/-- `Next` of a `bytes.Buffer`: at most `n` bytes, and what is left. -/
def next (r : Bytes) (n : Int) : Option (Bytes × Bytes) :=
  if n < 0 then none else some (r.take n.toNat, r.drop n.toNat)

def applyLoop (a : Bytes) : Nat → Bytes → Int → Bytes → Except ApplyError (Int × Bytes)
  | 0, _, prev, b => .ok (prev, b)
  | count + 1, r, prev, b =>
      match readInt r with
      | .error _ => .error (.corrupt b)
      | .ok (start, r) =>
          if a.length < start then .error (.corrupt b)
          else
            match readInt r with
            | .error _ => .error (.corrupt b)
            | .ok (stop, r) =>
                if a.length < stop then .error (.corrupt b)
                else
                  match readInt r with
                  | .error _ => .error (.corrupt b)
                  | .ok (diff, r) =>
                      match slice a prev start with
                      | none => .error .panic
                      | some kept =>
                          match next r diff with
                          | none => .error .panic
                          | some (repl, r) => applyLoop a count r stop (b ++ kept ++ repl)

/-- A negative count makes no rounds. -/
def apply (a patch b : Bytes) : Except ApplyError Bytes :=
  match readInt patch with
  | .error _ => .error (.corrupt b)
  | .ok (size, r) =>
      match readInt r with
      | .error _ => .error (.corrupt b)
      | .ok (count, r) =>
          match applyLoop a count.toNat r 0 [] with
          | .error e => .error e
          | .ok (prev, b) =>
              match slice a prev a.length with
              | none => .error .panic
              | some kept =>
                  if size ≠ (b ++ kept).length then .error (.corrupt (b ++ kept))
                  else .ok (b ++ kept)

/-- `AppendUvarint(patch, uint64(x))` -/
def appendUvarint (patch : Bytes) (x : Int) : Bytes := patch ++ putUvarint (UInt64.ofInt x)

/-- The edits of a patch.  The port takes the difference of the replacement's offsets as a `usize`
before the slice, which fails in the same cases. -/
def appendDiffs (b : Bytes) : List Lcs.Diff → Bytes → Except Lcs.Fault Bytes
  | [], patch => .ok patch
  | diff :: diffs, patch => do
      let repl ← Lcs.slice b diff.replStart diff.replEnd
      let patch := appendUvarint patch diff.start
      let patch := appendUvarint patch diff.stop
      let patch := appendUvarint patch (diff.replEnd - diff.replStart)
      appendDiffs b diffs (patch ++ repl)

/-- `Generate`, with the label tables the search gets from the pool. -/
def generate (p : Lcs.Port) (vf vb : Lcs.Label) (a b patch : Bytes) : Except Lcs.Fault Bytes := do
  let r ← Lcs.diff p vf vb a b
  let patch := appendUvarint patch b.length
  let patch := appendUvarint patch r.1.length
  appendDiffs b r.1 patch

namespace Zig

inductive ApplyError where
  | corruptPatch
  | fault
  deriving DecidableEq, Repr

def readUvarint (r : Bytes) : Except ApplyError (Nat × Bytes) :=
  match uvarint r with
  | .error _ => .error .corruptPatch
  | .ok (v, r) => if v.toNat < 2 ^ 32 then .ok (v.toNat, r) else .error .fault

def applyLoop (a : Bytes) : Nat → Bytes → Nat → Bytes → Except ApplyError (Nat × Bytes)
  | 0, _, prev, b => .ok (prev, b)
  | count + 1, r, prev, b => do
      let (start, r) ← readUvarint r
      if start > a.length then .error .corruptPatch
      else do
        let (stop, r) ← readUvarint r
        if stop > a.length then .error .corruptPatch
        else do
          let (diff, r) ← readUvarint r
          if prev > start then .error .corruptPatch
          else applyLoop a count (r.drop diff) stop (b ++ (a.take start).drop prev ++ r.take diff)

def apply (a patch : Bytes) : Except ApplyError Bytes := do
  let (size, r) ← readUvarint patch
  let (count, r) ← readUvarint r
  let (prev, b) ← applyLoop a count r 0 []
  if prev > a.length then .error .corruptPatch
  else if size ≠ (b ++ a.drop prev).length then .error .corruptPatch
  else .ok (b ++ a.drop prev)

end Zig

end Patch

end Turbokube
