import Mathlib.Tactic.Ring
import Turbokube.Encoding.Bytes

/-!
# Unsigned varints

The base-128 encoding of 64-bit words of Go's `encoding/binary`: seven payload
bits a byte, least significant group first, the high bit set on every byte but
the last.  `putUvarint` is `AppendUvarint`, `readUvarint` is `ReadUvarint` on a
buffer and returns what is left of it, and `uvarint` is `Uvarint`, whose third
outcome is a buffer that ends inside a number.

The encoding is self-delimiting: `putUvarint_append_inj` says that two numbers
followed by arbitrary bytes agree only when the numbers do.
-/

namespace Encoding

inductive UvarintError where
  | eof
  | unexpectedEOF
  | overflow
  deriving DecidableEq, Repr

def putUvarintAux : Nat → Nat → Bytes
  | 0, _ => []
  | fuel + 1, n =>
      if n < 128 then [UInt8.ofNat n]
      else UInt8.ofNat (n % 128 + 128) :: putUvarintAux fuel (n / 128)

/-- A 64-bit word takes at most ten bytes. -/
def putUvarint (x : UInt64) : Bytes := putUvarintAux 10 x.toNat

/-- Decode from byte number `i` of the encoding on.  The tenth byte holds the
one remaining bit, and an eleventh is never read. -/
def uvarintAux : Nat → Bytes → Except UvarintError (Nat × Bytes)
  | _, [] => .error .eof
  | i, b :: rest =>
      if i = 10 then .error .overflow
      else if b.toNat < 128 then
        if i = 9 ∧ 1 < b.toNat then .error .overflow else .ok (b.toNat, rest)
      else
        match uvarintAux (i + 1) rest with
        | .error e => .error e
        | .ok (n, rest) => .ok (b.toNat - 128 + 128 * n, rest)

def uvarint (buf : Bytes) : Except UvarintError (UInt64 × Bytes) :=
  match uvarintAux 0 buf with
  | .error e => .error e
  | .ok (n, rest) => .ok (UInt64.ofNat n, rest)

def readUvarint (buf : Bytes) : Except UvarintError (UInt64 × Bytes) :=
  match uvarint buf with
  | .error .eof =>
      if buf = [] then .error .eof
      else if buf.length < 10 then .error .unexpectedEOF
      else .error .overflow
  | r => r

theorem putUvarintAux_ne_nil (fuel n : Nat) : putUvarintAux (fuel + 1) n ≠ [] := by
  rw [putUvarintAux]
  split <;> simp

theorem putUvarint_ne_nil (x : UInt64) : putUvarint x ≠ [] := putUvarintAux_ne_nil 9 x.toNat

theorem putUvarintAux_length_le (fuel n : Nat) : (putUvarintAux fuel n).length ≤ fuel := by
  induction fuel generalizing n with
  | zero => simp [putUvarintAux]
  | succ fuel ih =>
      rw [putUvarintAux]
      split
      · simp
      · have h := ih (n / 128)
        simp only [List.length_cons]
        omega

theorem putUvarint_length_le (x : UInt64) : (putUvarint x).length ≤ 10 :=
  putUvarintAux_length_le 10 x.toNat

theorem one_le_putUvarint_length (x : UInt64) : 1 ≤ (putUvarint x).length :=
  List.length_pos_of_ne_nil (putUvarint_ne_nil x)

/-- One byte is enough exactly below 128. -/
theorem putUvarint_length_eq_one {x : UInt64} : (putUvarint x).length = 1 ↔ x.toNat < 128 := by
  rw [putUvarint, putUvarintAux]
  by_cases h : x.toNat < 128
  · simp [h]
  · have hne : 0 < (putUvarintAux 9 (x.toNat / 128)).length :=
      List.length_pos_of_ne_nil (putUvarintAux_ne_nil 8 (x.toNat / 128))
    simp only [h, if_false, List.length_cons, iff_false]
    omega

/-- Decoding byte `i` on inverts encoding what the first `i` bytes left over. -/
theorem uvarintAux_putUvarintAux (fuel : Nat) :
    ∀ (i n : Nat) (rest : Bytes), i + (fuel + 1) = 10 → n * 128 ^ i < 2 ^ 64 →
      uvarintAux i (putUvarintAux (fuel + 1) n ++ rest) = .ok (n, rest) := by
  induction fuel with
  | zero =>
      intro i n rest hi hn
      have hi9 : i = 9 := by omega
      subst hi9
      have hn2 : n < 2 := by omega
      have hmod : n % 256 = n := by omega
      have hle : ¬ 1 < n := by omega
      simp [putUvarintAux, uvarintAux, hmod, show n < 128 by omega, hle]
  | succ fuel ih =>
      intro i n rest hi hn
      have hi10 : i ≠ 10 := by omega
      have hi9 : i ≠ 9 := by omega
      rw [putUvarintAux]
      by_cases h : n < 128
      · have hmod : n % 256 = n := by omega
        simp [h, uvarintAux, hi10, hi9, hmod]
      · have hpow : n / 128 * 128 ^ (i + 1) ≤ n * 128 ^ i := by
          rw [Nat.pow_succ, Nat.mul_comm (128 ^ i), ← Nat.mul_assoc]
          exact Nat.mul_le_mul_right _ (Nat.div_mul_le_self n 128)
        have hrec := ih (i + 1) (n / 128) rest (by omega) (Nat.lt_of_le_of_lt hpow hn)
        have hbyte : (UInt8.ofNat (n % 128 + 128)).toNat = n % 128 + 128 := by
          rw [UInt8.toNat_ofNat']
          omega
        rw [if_neg h, List.cons_append, uvarintAux, if_neg hi10, hbyte, if_neg (by omega), hrec]
        have hsum : n % 128 + 128 - 128 + 128 * (n / 128) = n := by omega
        simp only [hsum]

theorem uvarint_putUvarint (x : UInt64) (rest : Bytes) :
    uvarint (putUvarint x ++ rest) = .ok (x, rest) := by
  have h := uvarintAux_putUvarintAux 9 0 x.toNat rest rfl (by simpa using x.toNat_lt)
  rw [uvarint, putUvarint, h]
  simp

theorem readUvarint_putUvarint (x : UInt64) (rest : Bytes) :
    readUvarint (putUvarint x ++ rest) = .ok (x, rest) := by
  rw [readUvarint, uvarint_putUvarint]

theorem putUvarint_append_inj {x y : UInt64} {s t : Bytes}
    (h : putUvarint x ++ s = putUvarint y ++ t) : x = y ∧ s = t := by
  have hx := uvarint_putUvarint x s
  rw [h, uvarint_putUvarint] at hx
  simpa [eq_comm] using hx

theorem putUvarint_inj {x y : UInt64} (h : putUvarint x = putUvarint y) : x = y :=
  (putUvarint_append_inj (s := []) (t := []) (by simpa using h)).1

end Encoding
