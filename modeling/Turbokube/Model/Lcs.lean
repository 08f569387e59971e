import Mathlib.Data.List.Sort

/-!
# The bounded search for a common subsequence

The package `lcs` and its Zig port, which keeps the labels in tables of 8 by 8 cells and the
diagonals in arrays of 64.  What is outside these arrays, a slice out of range, a negative offset
cast to `usize` and the panics of the package are faults.

The lengths of two byte strings in memory add up to less than 2^62, and to less than 2^30 for the
port, so no sum of offsets overflows.
-/

namespace Turbokube

namespace Lcs

inductive Port where
  | go
  | zig
  deriving DecidableEq, Repr

inductive Fault where
  | outOfRange
  /-- Read of a cell without a label. -/
  | noLabel
  | noForwardPaths
  | noBackwardPaths
  | diverges
  deriving DecidableEq, Repr

def maxDiffs : Nat := 8

/-- `1 << 25` -/
def infinity : Int := 33554432

def lcsCap : Nat := 64

def maxOutDiffs : Nat := lcsCap + 1

/-- A replacement of a portion of A by a portion of B. -/
structure Diff where
  start : Int
  stop : Int
  replStart : Int
  replEnd : Int
  deriving DecidableEq, Repr

/-- A piece of the edit graph where `A[x+i] == B[y+i]` for `0 <= i < len`. -/
structure Diag where
  x : Int
  y : Int
  len : Int
  deriving DecidableEq, Repr

/-- The port has room for 64 diagonals. -/
def fits (p : Port) (l : List Diag) : Except Fault (List Diag) :=
  match p with
  | .go => .ok l
  | .zig => if l.length ≤ lcsCap then .ok l else .error .outOfRange

def prepend (p : Port) (l : List Diag) (x y : Int) : Except Fault (List Diag) :=
  match l with
  | [] => fits p [⟨x, y, 1⟩]
  | d :: l =>
      if d.x = x + 1 ∧ d.y = y + 1 then .ok (⟨x, y, d.len + 1⟩ :: l)
      else fits p (⟨x, y, 1⟩ :: d :: l)

def append (p : Port) (l : List Diag) (x y : Int) : Except Fault (List Diag) :=
  match l.getLast? with
  | none => fits p (l ++ [⟨x, y, 1⟩])
  | some last =>
      if last.x + last.len = x ∧ last.y + last.len = y then
        .ok (l.dropLast ++ [⟨last.x, last.y, last.len + 1⟩])
      else fits p (l ++ [⟨x, y, 1⟩])

def appendAll (p : Port) (l other : List Diag) : Except Fault (List Diag) := fits p (l ++ other)

/-- By lowest `x`, and if tied, inversely by `len`. -/
def less (d d' : Diag) : Bool :=
  if d.x ≠ d'.x then decide (d.x < d'.x) else decide (d'.len < d.len)

/-- `sort.Slice` is an insertion sort up to twelve elements, and the sort of the port is stable. -/
def sort (l : List Diag) : List Diag := l.insertionSort fun d d' => less d' d = false

inductive Direction where
  | empty
  | leftdown
  | rightup
  | bad
  deriving DecidableEq, Repr

/-- Take `delta` off the end.  The error is what is left if that is nothing. -/
def cutEnd (prop : Diag) (delta : Int) : Except Diag Diag :=
  if prop.len - delta ≤ 0 then .error ⟨prop.x, prop.y, prop.len - delta⟩
  else .ok ⟨prop.x, prop.y, prop.len - delta⟩

/-- Take `delta` off the beginning. -/
def cutStart (prop : Diag) (delta : Int) : Except Diag Diag :=
  if prop.len - delta ≤ 0 then .error ⟨prop.x, prop.y, prop.len - delta⟩
  else .ok ⟨prop.x + delta, prop.y + delta, prop.len - delta⟩

def trimEndX (exist prop : Diag) : Except Diag Diag :=
  if prop.x ≤ exist.x ∧ exist.x < prop.x + prop.len then
    cutEnd prop (prop.x + prop.len - exist.x)
  else .ok prop

def trimStartX (exist prop : Diag) : Except Diag Diag :=
  if exist.x ≤ prop.x ∧ prop.x < exist.x + exist.len then
    cutStart prop (exist.x + exist.len - prop.x)
  else .ok prop

def trimEndY (exist prop : Diag) : Except Diag Diag :=
  if prop.y ≤ exist.y ∧ exist.y < prop.y + prop.len then
    cutEnd prop (prop.y + prop.len - exist.y)
  else .ok prop

def trimStartY (exist prop : Diag) : Except Diag Diag :=
  if exist.y ≤ prop.y ∧ prop.y < exist.y + exist.len then
    cutStart prop (exist.y + exist.len - prop.y)
  else .ok prop

def trim (exist prop : Diag) : Except Diag Diag := do
  let prop ← trimEndX exist prop
  let prop ← trimStartX exist prop
  let prop ← trimEndY exist prop
  trimStartY exist prop

/-- Trim the proposed diagonal to what does not overlap with the existing one. -/
def overlap (exist prop : Diag) : Direction × Diag :=
  match trim exist prop with
  | .error prop => (.empty, prop)
  | .ok prop =>
      if prop.x + prop.len ≤ exist.x ∧ prop.y + prop.len ≤ exist.y then (.leftdown, prop)
      else if exist.x + exist.len ≤ prop.x ∧ exist.y + exist.len ≤ prop.y then (.rightup, prop)
      else (.bad, prop)

/-- The inner loop of `fix`. -/
def fixOverlaps : List Diag → Direction → Diag → Direction × Diag
  | [], dir, nxt => (dir, nxt)
  | d :: tmp, _, nxt =>
      let r := overlap d nxt
      if r.1 = .empty ∨ r.1 = .bad then r else fixOverlaps tmp r.1 r.2

def fixLoop (p : Port) : List Diag → List Diag → Except Fault (List Diag)
  | [], tmp => .ok tmp
  | d :: l, tmp =>
      let r := fixOverlaps tmp .empty d
      if 0 < r.2.len ∧ r.1 ≠ .bad then do
        let tmp ← fits p (tmp ++ [r.2])
        fixLoop p l tmp
      else fixLoop p l tmp

/-- Find a set of diagonals that do not conflict, the longest first. -/
def fix (p : Port) (l : List Diag) : Except Fault (List Diag) :=
  match l.insertionSort fun d d' => d'.len ≤ d.len with
  | [] => .ok []
  | d :: l => do
      let tmp ← fixLoop p l [d]
      .ok (sort tmp)

def pushDiff (p : Port) (diffs : List Diff) (d : Diff) : Except Fault (List Diff) :=
  match p with
  | .go => .ok (diffs ++ [d])
  | .zig =>
      if diffs.length < maxOutDiffs ∧
          0 ≤ d.start ∧ 0 ≤ d.stop ∧ 0 ≤ d.replStart ∧ 0 ≤ d.replEnd then
        .ok (diffs ++ [d])
      else .error .outOfRange

def toDiffsLoop (p : Port) (alen blen : Int) :
    List Diag → Int → Int → List Diff → Except Fault (List Diff)
  | [], pa, pb, diffs =>
      if pa < alen ∨ pb < blen then pushDiff p diffs ⟨pa, alen, pb, blen⟩ else .ok diffs
  | l :: lcs, pa, pb, diffs =>
      if pa < l.x ∨ pb < l.y then do
        let diffs ← pushDiff p diffs ⟨pa, l.x, pb, l.y⟩
        toDiffsLoop p alen blen lcs (l.x + l.len) (l.y + l.len) diffs
      else toDiffsLoop p alen blen lcs (l.x + l.len) (l.y + l.len) diffs

/-- The edits between the diagonals. -/
def toDiffs (p : Port) (lcs : List Diag) (alen blen : Int) : Except Fault (List Diff) :=
  toDiffsLoop p alen blen lcs 0 0 []

def ok (d k : Int) : Bool := decide (0 ≤ d ∧ -d ≤ k ∧ k ≤ d)

def index {β : Type} (l : List β) (i : Int) : Except Fault β :=
  if i < 0 then .error .outOfRange
  else
    match l[i.toNat]? with
    | none => .error .outOfRange
    | some b => .ok b

/-- Row `D` is `nil` or has the labels of diagonals `-D`, `-D+2`, ..., `D`.  A cell of the program
always holds a number.  One that is `none` cannot be read before it is written. -/
abbrev Label := List (List (Option Int))

namespace Label

def get (t : Label) (d k : Int) : Except Fault Int := do
  let row ← index t d
  let cell ← index row ((d + k).tdiv 2)
  match cell with
  | none => .error .noLabel
  | some x => .ok x

/-- The Go table grows to a row when it is first set. -/
def grow (t : Label) (D : Nat) : Label :=
  (t ++ List.replicate (D + 1 - t.length) []).modify D fun row =>
    if row.isEmpty then List.replicate (D + 1) (some 0) else row

def grown (p : Port) (t : Label) (D : Int) : Label :=
  match p with
  | .go => t.grow D.toNat
  | .zig => t

def set (p : Port) (t : Label) (D k x : Int) : Except Fault Label := do
  let row ← index (t.grown p D) D
  let _ ← index row ((D + k).tdiv 2)
  .ok (List.set (t.grown p D) D.toNat (row.set ((D + k).tdiv 2).toNat (some x)))

/-- A table as the pool makes it, or as the port initialises it. -/
def new (p : Port) : Label :=
  match p with
  | .go => List.replicate (maxDiffs / 2) []
  | .zig => List.replicate maxDiffs (List.replicate maxDiffs (some 0))

/-- `g && ok(d, k) && t.get(d, k) == x` -/
def labelled (g : Bool) (t : Label) (d k x : Int) : Except Fault Bool :=
  if g && ok d k then do
    let v ← t.get d k
    .ok (decide (v = x))
  else .ok false

end Label

/-- The values `lo`, `lo + 2`, ... up to `hi`. -/
def steps (lo hi : Int) : List Int :=
  (List.range ((hi - lo + 2) / 2).toNat).map fun (i : Nat) => lo + 2 * (i : Int)

structure EditGraph (α : Type) where
  a : List α
  b : List α
  /-- Forward and backward labels. -/
  vf : Label
  vb : Label
  /-- Maximal value of `D`. -/
  limit : Int
  /-- The bounding rectangle of the current edit graph. -/
  lx : Int
  ly : Int
  ux : Int
  uy : Int
  delta : Int
  deriving Repr

variable {α : Type} [DecidableEq α]

/-- `s[i:j]` -/
def slice (s : List α) (i j : Int) : Except Fault (List α) :=
  if 0 ≤ i ∧ i ≤ j ∧ j ≤ s.length then .ok ((s.take j.toNat).drop i.toNat)
  else .error .outOfRange

/-- The three functions for bytes, runes and strings. -/
def commonPrefixLen : List α → List α → Nat
  | x :: a, y :: b => if x = y then commonPrefixLen a b + 1 else 0
  | _, _ => 0

def commonSuffixLen (a b : List α) : Nat := commonPrefixLen a.reverse b.reverse

namespace EditGraph

def commonPrefixLen (e : EditGraph α) (ai aj bi bj : Int) : Except Fault Int := do
  let s ← slice e.a ai aj
  let t ← slice e.b bi bj
  .ok (Lcs.commonPrefixLen s t)

def commonSuffixLen (e : EditGraph α) (ai aj bi bj : Int) : Except Fault Int := do
  let s ← slice e.a ai aj
  let t ← slice e.b bi bj
  .ok (Lcs.commonSuffixLen s t)

/-- Start at `(x, y)` and go up the diagonal as far as possible. -/
def lookForward (e : EditGraph α) (k relx : Int) : Except Fault Int :=
  let rely := relx - k
  let x := relx + e.lx
  let y := rely + e.ly
  if x < e.ux ∧ y < e.uy then do
    let n ← e.commonPrefixLen x e.ux y e.uy
    .ok (x + n)
  else .ok x

def setForward (p : Port) (e : EditGraph α) (d k relx : Int) : Except Fault (EditGraph α) := do
  let x ← e.lookForward k relx
  let vf ← e.vf.set p d k (x - e.lx)
  .ok { e with vf := vf }

/-- Every round leaves the point with a smaller sum of its coordinates, and the loop ends at the
origin. -/
def forwardlcsLoop (p : Port) (e : EditGraph α) :
    Nat → Int → Int → Int → List Diag → Except Fault (List Diag)
  | 0, _, _, _, _ => .error .diverges
  | fuel + 1, D, k, x, ans =>
      if x = 0 ∧ x - k = 0 then .ok ans
      else do
        let left ← e.vf.labelled true (D - 1) (k - 1) (x - 1)
        if left then forwardlcsLoop p e fuel (D - 1) (k - 1) (x - 1) ans
        else do
          let below ← e.vf.labelled true (D - 1) (k + 1) x
          if below then forwardlcsLoop p e fuel (D - 1) (k + 1) x ans
          else do
            let ans ← prepend p ans (x + e.lx - 1) (x - k + e.ly - 1)
            forwardlcsLoop p e fuel D k (x - 1) ans

/-- Recover the lcs by backtracking from the farthest point reached. -/
def forwardlcs (p : Port) (e : EditGraph α) (D k : Int) : Except Fault (List Diag) := do
  let x ← e.vf.get D k
  forwardlcsLoop p e ((x + (x - k)).toNat + 1) D k x []

/-- The label of an inner diagonal of row `D + 1`. -/
def labelForward (p : Port) (e : EditGraph α) (D k : Int) : Except Fault (EditGraph α) := do
  let v ← e.vf.get D (k - 1)
  let lookv ← e.lookForward k (v + 1)
  let h ← e.vf.get D (k + 1)
  let lookh ← e.lookForward k h
  e.setForward p (D + 1) k (if lookv > lookh then lookv else lookh)

def fdone (p : Port) (e : EditGraph α) (D k : Int) : Except Fault (Option (List Diag)) := do
  let x ← e.vf.get D k
  if x = e.ux ∧ x - k = e.uy then do
    let ans ← e.forwardlcs p D k
    .ok (some ans)
  else .ok none

/-- The loop over the inner diagonals in `forward`. -/
def forwardInner (p : Port) (D : Int) :
    List Int → EditGraph α → Except Fault (EditGraph α × Option (List Diag))
  | [], e => .ok (e, none)
  | k :: ks, e => do
      let e ← e.labelForward p D k
      let done ← e.fdone p (D + 1) k
      match done with
      | some ans => .ok (e, some ans)
      | none => forwardInner p D ks e

/-- From `D` to `D + 1`. -/
def forwardRow (p : Port) (e : EditGraph α) (D : Int) :
    Except Fault (EditGraph α × Option (List Diag)) := do
  let x ← e.vf.get D (-D)
  let e ← e.setForward p (D + 1) (-(D + 1)) x
  let done ← e.fdone p (D + 1) (-(D + 1))
  match done with
  | some ans => .ok (e, some ans)
  | none => do
      let x ← e.vf.get D D
      let e ← e.setForward p (D + 1) (D + 1) (x + 1)
      let done ← e.fdone p (D + 1) (D + 1)
      match done with
      | some ans => .ok (e, some ans)
      | none => forwardInner p D (steps (-D + 1) (D - 1)) e

/-- The diagonal of the path with maximal `x+y` inside the rectangle. -/
def maxForward (e : EditGraph α) : List Int → Int → Int → Except Fault Int
  | [], kmax, _ => .ok kmax
  | k :: ks, kmax, diagmax => do
      let x ← e.vf.get e.limit k
      if x + (x - k) > diagmax ∧ x ≤ e.ux ∧ x - k ≤ e.uy then
        maxForward e ks k (x + (x - k))
      else maxForward e ks kmax diagmax

/-- The rounds of `forward` from `D` on, of which there are as many as the first argument says. -/
def forwardLoop (p : Port) : Nat → Int → EditGraph α → Except Fault (EditGraph α × List Diag)
  | 0, _, e => do
      let kmax ← e.maxForward (steps (-e.limit) e.limit) (-e.limit - 1) (-1)
      let ans ← e.forwardlcs p e.limit kmax
      .ok (e, ans)
  | n + 1, D, e => do
      let r ← e.forwardRow p D
      match r.2 with
      | some ans => .ok (r.1, ans)
      | none => forwardLoop p n (D + 1) r.1

/-- Run the forward algorithm, until success or up to the limit on `D`. -/
def forward (p : Port) (e : EditGraph α) : Except Fault (EditGraph α × List Diag) := do
  let e ← e.setForward p 0 0 e.lx
  let done ← e.fdone p 0 0
  match done with
  | some ans => .ok (e, ans)
  | none => forwardLoop p e.limit.toNat 0 e

/-- Start at `(x, y)` and go down the diagonal as far as possible. -/
def lookBackward (e : EditGraph α) (k relx : Int) : Except Fault Int :=
  let rely := relx - (k + e.delta)
  let x := relx + e.lx
  let y := rely + e.ly
  if x > 0 ∧ y > 0 then do
    let n ← e.commonSuffixLen 0 x 0 y
    .ok (x - n)
  else .ok x

def setBackward (p : Port) (e : EditGraph α) (d k relx : Int) : Except Fault (EditGraph α) := do
  let x ← e.lookBackward k relx
  let vb ← e.vb.set p d k (x - e.lx)
  .ok { e with vb := vb }

def backwardlcsLoop (p : Port) (e : EditGraph α) :
    Nat → Int → Int → Int → List Diag → Except Fault (List Diag)
  | 0, _, _, _, _ => .error .diverges
  | fuel + 1, D, k, x, ans =>
      if x = e.ux ∧ x - (k + e.delta) = e.uy then .ok ans
      else do
        let above ← e.vb.labelled true (D - 1) (k - 1) x
        if above then backwardlcsLoop p e fuel (D - 1) (k - 1) x ans
        else do
          let right ← e.vb.labelled true (D - 1) (k + 1) (x + 1)
          if right then backwardlcsLoop p e fuel (D - 1) (k + 1) (x + 1) ans
          else do
            let ans ← append p ans (x + e.lx) (x - (k + e.delta) + e.ly)
            backwardlcsLoop p e fuel D k (x + 1) ans

/-- Recover the lcs by backtracking. -/
def backwardlcs (p : Port) (e : EditGraph α) (D k : Int) : Except Fault (List Diag) := do
  let x ← e.vb.get D k
  backwardlcsLoop p e ((e.ux - x + (e.uy - (x - (k + e.delta)))).toNat + 1) D k x []

def labelBackward (p : Port) (e : EditGraph α) (D k : Int) : Except Fault (EditGraph α) := do
  let v ← e.vb.get D (k - 1)
  let lookv ← e.lookBackward k v
  let h ← e.vb.get D (k + 1)
  let lookh ← e.lookBackward k (h - 1)
  e.setBackward p (D + 1) k (if lookv < lookh then lookv else lookh)

/-- The forward pass of a round of `twosided`. -/
def forwardPass (p : Port) (e : EditGraph α) (D : Int) : Except Fault (EditGraph α) := do
  let x ← e.vf.get D (-D)
  let e ← e.setForward p (D + 1) (-(D + 1)) x
  let x ← e.vf.get D D
  let e ← e.setForward p (D + 1) (D + 1) (x + 1)
  (steps (-D + 1) (D - 1)).foldlM (fun e k => e.labelForward p D k) e

def backwardPass (p : Port) (e : EditGraph α) (D : Int) : Except Fault (EditGraph α) := do
  let x ← e.vb.get D (-D)
  let e ← e.setBackward p (D + 1) (-(D + 1)) (x - 1)
  let x ← e.vb.get D D
  let e ← e.setBackward p (D + 1) (D + 1) x
  (steps (-D + 1) (D - 1)).foldlM (fun e k => e.labelBackward p D k) e

/-- The loop over the other diagonals in `twoDone`. -/
def twoDoneSpecial (e : EditGraph α) (df db : Int) : List Int → Except Fault (Option Int)
  | [] => .ok none
  | l :: ls => do
      let x ← e.vf.get df l
      let u ← e.vb.get db (l - e.delta)
      if x = u ∨ u = 0 ∨ u - l = 0 ∨ x - l = e.uy ∨ x = e.ux then .ok (some l)
      else twoDoneSpecial e df db ls

def twoDoneLoop (e : EditGraph α) (df db : Int) : List Int → Except Fault (Option Int)
  | [] => .ok none
  | k :: ks => do
      let x ← e.vf.get df k
      let u ← e.vb.get db (k - e.delta)
      if u ≤ x then do
        let l ← e.twoDoneSpecial df db (k :: ks)
        .ok (some (l.getD k))
      else twoDoneLoop e df db ks

/-- Does Myers' Lemma apply? -/
def twoDone (e : EditGraph α) (df db : Int) : Except Fault (Option Int) :=
  if (df + db + e.delta) % 2 ≠ 0 then .ok none
  else
    let kmin := if -df > -db + e.delta then -df else -db + e.delta
    let kmax := if df < db + e.delta then df else db + e.delta
    e.twoDoneLoop df db (steps kmin kmax)

/-- Patch two parts of the lcs together. -/
def joined (p : Port) (e : EditGraph α) (front back : List Diag) :
    Except Fault (EditGraph α × List Diag) := do
  let lcs ← appendAll p front back
  .ok (e, sort lcs)

/-- The last case of `twolcs`: compute another path. -/
def anotherPath (p : Port) (e : EditGraph α) (db kb u v : Int) :
    Except Fault (EditGraph α × List Diag) := do
  let lcs ← e.backwardlcs p db kb
  let r ← forward p { e with ux := u, uy := v }
  joined p { r.1 with ux := e.ux, uy := e.uy } lcs r.2

/-- The cases of `twolcs` in which the forward path leads to `(x, y)`. -/
def throughForward (p : Port) (e : EditGraph α) (df db kf x y u v : Int) :
    Except Fault (EditGraph α × List Diag) :=
  let kb := kf - e.delta
  if u = 0 ∨ v = 0 ∨ x = e.ux ∨ y = e.uy then
    if u = 0 ∨ v = 0 then do
      let lcs ← e.backwardlcs p db kb
      .ok (e, lcs)
    else do
      let lcs ← e.forwardlcs p df kf
      .ok (e, lcs)
  else do
    let right ← e.vb.labelled (decide (x + 1 ≤ e.ux)) (db - 1) (x + 1 - y - e.delta) (x + 1)
    if right then do
      let lcs ← e.backwardlcs p (db - 1) (kb + 1)
      let fwd ← e.forwardlcs p df kf
      e.joined p lcs fwd
    else do
      let above ← e.vb.labelled (decide (y + 1 ≤ e.uy)) (db - 1) (x - (y + 1) - e.delta) x
      if above then do
        let lcs ← e.backwardlcs p (db - 1) (kb - 1)
        let fwd ← e.forwardlcs p df kf
        e.joined p lcs fwd
      else e.anotherPath p db kb u v

def twolcs (p : Port) (e : EditGraph α) (df db kf : Int) :
    Except Fault (EditGraph α × List Diag) := do
  let x ← e.vf.get df kf
  let kb := kf - e.delta
  let u ← e.vb.get db kb
  let v := u - kf
  if x = u then do
    let lcs ← e.forwardlcs p df kf
    let back ← e.backwardlcs p db kb
    e.joined p lcs back
  else do
    let left ← e.vf.labelled (decide (u > 0)) (df - 1) (u - 1 - v) (u - 1)
    if left then do
      let lcs ← e.forwardlcs p (df - 1) (u - 1 - v)
      let back ← e.backwardlcs p db kb
      e.joined p lcs back
    else do
      let below ← e.vf.labelled (decide (v > 0)) (df - 1) (u - (v - 1)) u
      if below then do
        let lcs ← e.forwardlcs p (df - 1) (u - (v - 1))
        let back ← e.backwardlcs p db kb
        e.joined p lcs back
      else e.throughForward p df db kf x (x - kf) u v

/-- The diagonal of the path with minimal `x+y` inside the rectangle. -/
def minBackward (e : EditGraph α) : List Int → Int → Int → Except Fault Int
  | [], kmax, _ => .ok kmax
  | k :: ks, kmax, diagmin => do
      let x ← e.vb.get e.limit k
      if x + (x - (k + e.delta)) < diagmin ∧ x ≥ 0 ∧ x - (k + e.delta) ≥ 0 then
        minBackward e ks k (x + (x - (k + e.delta)))
      else minBackward e ks kmax diagmin

/-- `D` too large: combine a forward and a backward partial lcs. -/
def partialPaths (p : Port) (e : EditGraph α) : Except Fault (EditGraph α × List Diag) := do
  let kmax ← e.maxForward (steps (-e.limit) e.limit) (-e.limit - 1) (-1)
  if kmax < -e.limit then .error .noForwardPaths
  else do
    let lcs ← e.forwardlcs p e.limit kmax
    let kmax ← e.minBackward (steps (-e.limit) e.limit) kmax infinity
    if kmax < -e.limit then .error .noBackwardPaths
    else do
      let back ← e.backwardlcs p e.limit kmax
      let lcs ← appendAll p lcs back
      let ans ← fix p lcs
      .ok (e, ans)

/-- The rounds of `twosided` from `D` on. -/
def twosidedLoop (p : Port) : Nat → Int → EditGraph α → Except Fault (EditGraph α × List Diag)
  | 0, _, e => e.partialPaths p
  | n + 1, D, e => do
      let got ← e.twoDone D D
      match got with
      | some kf => e.twolcs p D D kf
      | none => do
          let e ← e.forwardPass p D
          let got ← e.twoDone (D + 1) D
          match got with
          | some kf => e.twolcs p (D + 1) D kf
          | none => do
              let e ← e.backwardPass p D
              twosidedLoop p n (D + 1) e

def twosided (p : Port) (e : EditGraph α) : Except Fault (EditGraph α × List Diag) := do
  let e ← e.setForward p 0 0 e.lx
  let e ← e.setBackward p 0 0 e.ux
  twosidedLoop p e.limit.toNat 0 e

end EditGraph

/-- `compute` with the two-sided algorithm.  The tables come from a pool and are given back to it.
-/
def compute (p : Port) (vf vb : Label) (a b : List α) (limit : Int) :
    Except Fault (List Diff × Label × Label) := do
  let r ← EditGraph.twosided p
    { a := a, b := b, vf := vf, vb := vb,
      limit := if limit ≤ 0 then infinity else limit,
      lx := 0, ly := 0, ux := a.length, uy := b.length, delta := a.length - b.length }
  let diffs ← toDiffs p r.2 a.length b.length
  .ok (diffs, r.1.vf, r.1.vb)

/-- `DiffBytes`, also for strings and runes, with a limit on how deeply to search. -/
def diff (p : Port) (vf vb : Label) (a b : List α) : Except Fault (List Diff × Label × Label) :=
  compute p vf vb a b (maxDiffs / 2 : Nat)

end Lcs

end Turbokube
