import Mathlib.Logic.Function.Basic
import Turbokube.Encoding.LittleEndian
import Turbokube.Encoding.Uvarint

/-!
# The snappy codec of the Zig module

The module is built for a target with 32-bit addresses, so a `usize` is below 2^32 and an addition
that leaves this range, a subtraction below 0 and an index or a slice out of range are faults.  A
buffer that is filled from its start is the list of the bytes written and a capacity.
-/

namespace Turbokube

open Encoding

namespace ZigSnappy

inductive Error where
  | corrupt
  | tooLarge
  | fault
  deriving DecidableEq, Repr

/-- `a + b` of type `usize`. -/
def add (a b : Nat) : Except Error Nat := if a + b < 2 ^ 32 then .ok (a + b) else .error .fault

/-- `a - b` of type `usize`. -/
def sub (a b : Nat) : Except Error Nat := if b ≤ a then .ok (a - b) else .error .fault

/-- `buf[i]` -/
def index (buf : Bytes) (i : Nat) : Except Error UInt8 :=
  match buf[i]? with
  | some b => .ok b
  | none => .error .fault

/-- `buf[i..j]` -/
def slice (buf : Bytes) (i j : Nat) : Except Error Bytes :=
  if i ≤ j ∧ j ≤ buf.length then .ok ((buf.take j).drop i) else .error .fault

/-- Write behind what a buffer of capacity `cap` holds. -/
def write (cap : Nat) (out bytes : Bytes) : Except Error Bytes :=
  if out.length + bytes.length ≤ cap then .ok (out ++ bytes) else .error .fault

/-- The loop of `decodedLen` over what is left of `src`, of which `n` bytes are read.  The shift
drops what does not fit 64 bits. -/
def decodedLenLoop : Bytes → Nat → Nat → Nat → Except Error (Nat × Nat)
  | [], _, _, _ => .error .corrupt
  | b :: src, v, shift, n => do
      let n ← add n 1
      let v := v ||| ((b.toNat % 128) <<< shift) % 2 ^ 64
      if b.toNat < 128 then
        if 2 ^ 32 ≤ v then .error .tooLarge else .ok (v, n)
      else if 56 < shift then .error .corrupt
      else decodedLenLoop src v (shift + 7) n

/-- The length of the decoded block and of the header. -/
def decodedLen (src : Bytes) : Except Error (Nat × Nat) := decodedLenLoop src 0 0 0

/-- Go past a tag at `s` and the `k` bytes after it, and read these as a number. -/
def operand (src : Bytes) (s k : Nat) : Except Error (Nat × Nat) := do
  let s ← add s (k + 1)
  if src.length < s then .error .corrupt
  else
    let i ← sub s k
    let bytes ← slice src i s
    .ok (s, leNat bytes)

def decodeLiteral (cap : Nat) (src out : Bytes) (s x : Nat) : Except Error (Nat × Bytes) := do
  let length ← add x 1
  let room ← sub cap out.length
  let left ← sub src.length s
  if room < length ∨ left < length then .error .corrupt
  else
    let s' ← add s length
    let bytes ← slice src s s'
    let out ← write cap out bytes
    .ok (s', out)

/-- Copy byte by byte from index `i` on. -/
def copyLoop (cap : Nat) : Nat → Nat → Bytes → Except Error Bytes
  | 0, _, out => .ok out
  | length + 1, i, out => do
      let b ← index out i
      let out ← write cap out [b]
      let i ← add i 1
      copyLoop cap length i out

def decodeCopy (cap : Nat) (out : Bytes) (s offset length : Nat) : Except Error (Nat × Bytes) :=
  if offset = 0 ∨ out.length < offset then .error .corrupt
  else do
    let room ← sub cap out.length
    if room < length then .error .corrupt
    else
      let i ← sub out.length offset
      let out ← copyLoop cap length i out
      .ok (s, out)

/-- One round of the loop of `decode`. -/
def decodeElement (cap : Nat) (src : Bytes) (s : Nat) (out : Bytes) :
    Except Error (Nat × Bytes) := do
  let tag ← index src s
  match tag.toNat % 4 with
  | 0 =>
      if tag.toNat / 4 < 60 then
        let s ← add s 1
        decodeLiteral cap src out s (tag.toNat / 4)
      else
        -- 60 to 63 stand for one to four bytes of length
        let (s, x) ← operand src s (tag.toNat / 4 - 59)
        decodeLiteral cap src out s x
  | 1 =>
      let (s, x) ← operand src s 1
      decodeCopy cap out s (tag.toNat / 32 * 256 + x) (4 + tag.toNat / 4 % 8)
  | 2 =>
      let (s, x) ← operand src s 2
      decodeCopy cap out s x (1 + tag.toNat / 4)
  | _ =>
      let (s, x) ← operand src s 4
      decodeCopy cap out s x (1 + tag.toNat / 4)

/-- Every round moves on, so `src.length` rounds suffice. -/
def decodeLoop (cap : Nat) (src : Bytes) : Nat → Nat → Bytes → Except Error Bytes
  | 0, s, out => if s < src.length then .error .fault else .ok out
  | fuel + 1, s, out =>
      if s < src.length then do
        let (s, out) ← decodeElement cap src s out
        decodeLoop cap src fuel s out
      else .ok out

def decode (src : Bytes) : Except Error Bytes := do
  let (cap, n) ← decodedLen src
  let out ← decodeLoop cap src src.length n []
  if out.length ≠ cap then .error .corrupt else .ok out

/-- Maximum length of a snappy block, given its uncompressed length. -/
def maxEncodedLen (srcLen : Nat) : Except Error Nat := do
  let n ← add 32 srcLen
  add n (srcLen / 6)

def load32 (b : Bytes) (i : Nat) : Except Error Nat := do
  let bytes ← slice b i (i + 4)
  .ok (leNat bytes)

def load64 (b : Bytes) (i : Nat) : Except Error Nat := do
  let bytes ← slice b i (i + 8)
  .ok (leNat bytes)

/-- `@intCast` to a type of numbers below `bound`. -/
def intCast (bound n : Nat) : Except Error Nat := if n < bound then .ok n else .error .fault

/-- `@truncate` to 32 bits. -/
def truncate (x : Nat) : Nat := x % 2 ^ 32

def hash (u shift : Nat) : Nat := u * 0x1e35a7bd % 2 ^ 32 / 2 ^ shift

def emitLiteral (cap : Nat) (out lit : Bytes) : Except Error Bytes := do
  let n ← sub lit.length 1
  let tag :=
    if n < 60 then [UInt8.ofNat n <<< 2]
    else if n < 2 ^ 8 then [(60 : UInt8) <<< 2, UInt8.ofNat n]
    else [(61 : UInt8) <<< 2, UInt8.ofNat n, UInt8.ofNat (n / 2 ^ 8)]
  let out ← write cap out tag
  write cap out lit

/-- A copy with two bytes of offset, of `n + 1` bytes. -/
def copy2 (offset n : Nat) : Bytes :=
  [UInt8.ofNat n <<< 2 ||| 2, UInt8.ofNat offset, UInt8.ofNat (offset / 2 ^ 8)]

/-- The 64-byte copies, and the length that remains. -/
def emitCopyLoop (cap offset : Nat) : Nat → Nat → Bytes → Except Error (Nat × Bytes)
  | 0, length, out => if 68 ≤ length then .error .fault else .ok (length, out)
  | fuel + 1, length, out =>
      if 68 ≤ length then do
        let out ← write cap out (copy2 offset 63)
        emitCopyLoop cap offset fuel (length - 64) out
      else .ok (length, out)

/-- The last copy, or the last but one when two are needed. -/
def emitCopyRest (cap : Nat) (out : Bytes) (offset length : Nat) : Except Error Bytes :=
  if 12 ≤ length ∨ 2048 ≤ offset then do
    let n ← sub length 1
    let n ← intCast (2 ^ 8) n
    write cap out (copy2 offset n)
  else do
    let hi ← intCast (2 ^ 8) (offset / 2 ^ 8)
    let n ← sub length 4
    let n ← intCast (2 ^ 8) n
    write cap out
      [UInt8.ofNat hi <<< 5 ||| UInt8.ofNat n <<< 2 ||| 1, UInt8.ofNat offset]

def emitCopy (cap : Nat) (out : Bytes) (offset length : Nat) : Except Error Bytes := do
  let (length, out) ← emitCopyLoop cap offset length length out
  if 64 < length then
    let out ← write cap out (copy2 offset 59)
    emitCopyRest cap out offset (length - 60)
  else emitCopyRest cap out offset length

/-- The shift that leaves as many bits as the table has; the size of the table is doubled six times
at most. -/
def tableShift (srcLen : Nat) : Nat → Nat → Nat → Nat
  | 0, _, shift => shift
  | fuel + 1, tableSize, shift =>
      if tableSize < 2 ^ 14 ∧ tableSize < srcLen then
        tableShift srcLen fuel (tableSize * 2) (shift - 1)
      else shift

/-- The table of positions by hash.  Every index is masked to its 2^14 entries. -/
abbrev HashTable := Nat → Nat

def HashTable.set (table : HashTable) (h s : Nat) : HashTable :=
  Function.update table (h % 2 ^ 14) s

def HashTable.at (table : HashTable) (h : Nat) : Nat := table (h % 2 ^ 14)

/-- A position and an earlier one with the same four bytes. -/
structure Match where
  s : Nat
  candidate : Nat
  table : HashTable

/-- Look for a match from `nextS` on, further and further apart. -/
def search (src : Bytes) (shift limit : Nat) :
    Nat → Nat → Nat → Nat → HashTable → Except Error (Option Match)
  | 0, _, _, _, _ => .error .fault
  | fuel + 1, s, skip, nextHash, table => do
      let between := skip / 32
      let nextS ← add s between
      let skip ← add skip between
      if limit < nextS then .ok none
      else
        let candidate := table.at nextHash
        let entry ← intCast (2 ^ 16) s
        let table := table.set nextHash entry
        let u ← load32 src nextS
        let a ← load32 src s
        let b ← load32 src candidate
        if a = b then .ok (some ⟨s, candidate, table⟩)
        else search src shift limit fuel nextS skip (hash u shift) table

/-- Extend a match from the positions `i` and `s` on. -/
def extend (src : Bytes) : Nat → Nat → Nat → Except Error Nat
  | 0, _, s => if s < src.length then .error .fault else .ok s
  | fuel + 1, i, s =>
      if s < src.length then do
        let a ← index src i
        let b ← index src s
        if a = b then
          let i ← add i 1
          let s ← add s 1
          extend src fuel i s
        else .ok s
      else .ok s

/-- Where the search goes on. -/
structure Resume where
  s : Nat
  nextHash : Nat
  table : HashTable

/-- Emit copies as long as one match follows the other.  Returns the output and the first byte not
yet emitted, and nothing to resume at near the end of the block. -/
def copies (cap : Nat) (src : Bytes) (shift limit : Nat) :
    Nat → Nat → Nat → HashTable → Bytes → Except Error (Bytes × Nat × Option Resume)
  | 0, _, _, _, _ => .error .fault
  | fuel + 1, base, candidate, table, out => do
      let s ← add base 4
      let i ← add candidate 4
      let s ← extend src src.length i s
      let offset ← sub base candidate
      let length ← sub s base
      let out ← emitCopy cap out offset length
      if limit ≤ s then .ok (out, s, none)
      else
        let i ← sub s 1
        let x ← load64 src i
        let entry ← intCast (2 ^ 16) i
        let table := table.set (hash (truncate x) shift) entry
        let currHash := hash (truncate (x >>> 8)) shift
        let candidate := table.at currHash
        let entry ← intCast (2 ^ 16) s
        let table := table.set currHash entry
        let u ← load32 src candidate
        if truncate (x >>> 8) ≠ u then
          let next ← add s 1
          .ok (out, s, some ⟨next, hash (truncate (x >>> 16)) shift, table⟩)
        else copies cap src shift limit fuel s candidate table out

/-- The outer loop of `encodeBlock`: the output and the first byte not yet emitted. -/
def blockLoop (cap : Nat) (src : Bytes) (shift limit : Nat) :
    Nat → Resume → Nat → Bytes → Except Error (Bytes × Nat)
  | 0, _, _, _ => .error .fault
  | fuel + 1, r, nextEmit, out => do
      match ← search src shift limit src.length r.s 32 r.nextHash r.table with
      | none => .ok (out, nextEmit)
      | some m =>
          let lit ← slice src nextEmit m.s
          let out ← emitLiteral cap out lit
          let (out, nextEmit, resume) ←
            copies cap src shift limit src.length m.s m.candidate m.table out
          match resume with
          | none => .ok (out, nextEmit)
          | some r => blockLoop cap src shift limit fuel r nextEmit out

def encodeBlock (cap : Nat) (out src : Bytes) : Except Error Bytes := do
  let shift := tableShift src.length 6 (2 ^ 8) 24
  let limit ← sub src.length 15
  let u ← load32 src 1
  let (out, nextEmit) ←
    blockLoop cap src shift limit src.length ⟨1, hash u shift, fun _ => 0⟩ 0 out
  if nextEmit < src.length then
    let lit ← slice src nextEmit src.length
    emitLiteral cap out lit
  else .ok out

/-- A block too short for a match is one literal. -/
def encodePart (cap : Nat) (out p : Bytes) : Except Error Bytes :=
  if p.length < 17 then emitLiteral cap out p else encodeBlock cap out p

/-- The blocks of `encode`; each takes away at least a byte. -/
def encodeLoop (cap : Nat) : Nat → Bytes → Bytes → Except Error Bytes
  | 0, src, out => if 0 < src.length then .error .fault else .ok out
  | fuel + 1, src, out =>
      if 0 < src.length then do
        let p := src.take 65536
        let out ← encodePart cap out p
        encodeLoop cap fuel (src.drop p.length) out
      else .ok out

def encode (src : Bytes) : Except Error Bytes := do
  let cap ← maxEncodedLen src.length
  let out ← write cap [] (putUvarintAux 10 src.length)
  encodeLoop cap src.length src out

end ZigSnappy

end Turbokube
