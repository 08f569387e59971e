import Turbokube.Encoding.Bytes
import Mathlib.Tactic.Ring

/-!
# Big-endian words

Fixed-width words, most significant byte first, as `binary.BigEndian` writes
them.  `beBytes_lt_iff` is why a store that compares keys as byte strings keeps
such words in numeric order.
-/

namespace Encoding

def beBytes : Nat → Nat → Bytes
  | 0, _ => []
  | w + 1, n => UInt8.ofNat (n / 256 ^ w) :: beBytes w (n % 256 ^ w)

def beNat (s : Bytes) : Nat := s.foldl (fun acc b => acc * 256 + b.toNat) 0

def putUint64 (x : UInt64) : Bytes := beBytes 8 x.toNat

def putUint32 (x : UInt32) : Bytes := beBytes 4 x.toNat

/-- The word in the first eight bytes. -/
def uint64 (s : Bytes) : UInt64 := UInt64.ofNat (beNat (s.take 8))

/-- The word in the first four bytes. -/
def uint32 (s : Bytes) : UInt32 := UInt32.ofNat (beNat (s.take 4))

theorem beBytes_length (w n : Nat) : (beBytes w n).length = w := by
  induction w generalizing n with
  | zero => rfl
  | succ w ih => rw [beBytes, List.length_cons, ih]

@[simp] theorem putUint64_length (x : UInt64) : (putUint64 x).length = 8 := beBytes_length 8 x.toNat

@[simp] theorem putUint32_length (x : UInt32) : (putUint32 x).length = 4 := beBytes_length 4 x.toNat

/-- The leading byte of a word that fits its width is the leading digit. -/
theorem toNat_leadByte {w n : Nat} (hn : n < 256 ^ (w + 1)) :
    (UInt8.ofNat (n / 256 ^ w)).toNat = n / 256 ^ w := by
  have hdiv : n / 256 ^ w < 256 := by
    rw [Nat.div_lt_iff_lt_mul (Nat.pow_pos (by decide)), Nat.mul_comm, ← Nat.pow_succ]
    exact hn
  rw [UInt8.toNat_ofNat']
  exact Nat.mod_eq_of_lt hdiv

theorem foldl_beBytes (w n acc : Nat) (hn : n < 256 ^ w) :
    (beBytes w n).foldl (fun acc b => acc * 256 + b.toNat) acc = acc * 256 ^ w + n := by
  induction w generalizing n acc with
  | zero =>
      have h0 : n = 0 := by simpa using hn
      simp [beBytes, h0]
  | succ w ih =>
      have hpos : 0 < 256 ^ w := Nat.pow_pos (by decide)
      rw [beBytes, List.foldl_cons, toNat_leadByte hn, ih _ _ (Nat.mod_lt _ hpos), Nat.pow_succ]
      have hsum : 256 ^ w * (n / 256 ^ w) + n % 256 ^ w = n := Nat.div_add_mod n (256 ^ w)
      calc (acc * 256 + n / 256 ^ w) * 256 ^ w + n % 256 ^ w
          = acc * (256 ^ w * 256) + (256 ^ w * (n / 256 ^ w) + n % 256 ^ w) := by ring
        _ = acc * (256 ^ w * 256) + n := by rw [hsum]

theorem beNat_beBytes {w n : Nat} (hn : n < 256 ^ w) : beNat (beBytes w n) = n := by
  rw [beNat, foldl_beBytes w n 0 hn]
  omega

@[simp] theorem uint64_putUint64_append (x : UInt64) (rest : Bytes) :
    uint64 (putUint64 x ++ rest) = x := by
  have htake : (putUint64 x ++ rest).take 8 = putUint64 x := by
    rw [List.take_append_of_le_length (by simp), List.take_of_length_le (by simp)]
  rw [uint64, htake, putUint64, beNat_beBytes x.toNat_lt]
  simp

@[simp] theorem uint64_putUint64 (x : UInt64) : uint64 (putUint64 x) = x := by
  simpa using uint64_putUint64_append x []

@[simp] theorem uint32_putUint32 (x : UInt32) : uint32 (putUint32 x) = x := by
  have htake : (putUint32 x).take 4 = putUint32 x := List.take_of_length_le (by simp)
  rw [uint32, htake, putUint32, beNat_beBytes x.toNat_lt]
  simp

theorem putUint64_inj {x y : UInt64} (h : putUint64 x = putUint64 y) : x = y := by
  rw [← uint64_putUint64 x, h, uint64_putUint64]

/-- Words of one width compare as their encodings do. -/
theorem beBytes_lt_iff {w m n : Nat} (hm : m < 256 ^ w) (hn : n < 256 ^ w) :
    beBytes w m < beBytes w n ↔ m < n := by
  induction w generalizing m n with
  | zero =>
      have h0 : m = 0 := by simpa using hm
      have h1 : n = 0 := by simpa using hn
      simp [beBytes, h0, h1]
  | succ w ih =>
      have hpos : 0 < 256 ^ w := Nat.pow_pos (by decide)
      rw [beBytes, beBytes, cons_lt_cons_iff, UInt8.lt_iff_toNat_lt, ← UInt8.toNat_inj,
        toNat_leadByte hm, toNat_leadByte hn, ih (Nat.mod_lt _ hpos) (Nat.mod_lt _ hpos)]
      have hsm := Nat.div_add_mod m (256 ^ w)
      have hsn := Nat.div_add_mod n (256 ^ w)
      have hrm := Nat.mod_lt m hpos
      have hrn := Nat.mod_lt n hpos
      constructor
      · rintro (h | ⟨h, h'⟩)
        · have hstep : 256 ^ w * (m / 256 ^ w + 1) ≤ 256 ^ w * (n / 256 ^ w) :=
            Nat.mul_le_mul_left _ h
          rw [Nat.mul_add] at hstep
          omega
        · rw [h] at hsm
          omega
      · intro h
        rcases Nat.lt_or_ge (m / 256 ^ w) (n / 256 ^ w) with hlt | hge
        · exact .inl hlt
        · have heq : m / 256 ^ w = n / 256 ^ w :=
            Nat.le_antisymm (Nat.div_le_div_right h.le) hge
          rw [heq] at hsm
          exact .inr ⟨heq, by omega⟩

theorem putUint64_lt_iff {x y : UInt64} : putUint64 x < putUint64 y ↔ x < y := by
  rw [UInt64.lt_iff_toNat_lt]
  exact beBytes_lt_iff x.toNat_lt y.toNat_lt

end Encoding
