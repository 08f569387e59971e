import Turbokube.Model.Kv
import Mathlib.Data.Nat.Bitwise

/-!
# The packed revision

With a revision below `2 ^ 52` and an operation index below 1024 the three parts
of a `Keyrev` occupy separate bits, and the word is the number
`4096 * upper + 4 * lower + 2 * del`.  Every order fact about stored records is
arithmetic on that number.
-/

namespace Turbokube

open Encoding

namespace Keyrev

theorem isdel_iff {kr : Keyrev} : kr.isdel = true ↔ kr.word.toNat / 2 % 2 = 1 := by
  have hmask : revMaskDelete.toNat = 2 ^ 1 := by decide
  rw [isdel, decide_eq_true_iff, UInt64.lt_iff_toNat_lt, UInt64.toNat_and, hmask, Nat.and_two_pow,
    Nat.testBit_eq_decide_div_mod_eq, UInt64.toNat_zero]
  by_cases h : kr.word.toNat / 2 % 2 = 1 <;> simp [h]

theorem upper_toNat (kr : Keyrev) : kr.upper.toNat = kr.word.toNat / 4096 := by
  rw [upper, UInt64.toNat_shiftRight]
  simp [Nat.shiftRight_eq_div_pow]

theorem invert_toNat (kr : Keyrev) : kr.invert.word.toNat = 2 ^ 64 - 1 - kr.word.toNat := by
  have hmax : (0xFFFFFFFFFFFFFFFF : UInt64).toNat = 2 ^ 64 - 1 := by decide
  have hle : kr.word ≤ 0xFFFFFFFFFFFFFFFF := by
    have h := kr.word.toNat_lt
    rw [UInt64.le_iff_toNat_le, hmax]
    omega
  rw [invert, UInt64.toNat_sub_of_le _ _ hle, hmax]

theorem ext_toNat {a b : Keyrev} (h : a.word.toNat = b.word.toNat) : a = b := by
  cases a
  cases b
  exact congrArg Keyrev.mk (UInt64.toNat_inj.mp h)

@[simp] theorem invert_invert (kr : Keyrev) : kr.invert.invert = kr := by
  apply ext_toNat
  have h := kr.word.toNat_lt
  rw [invert_toNat, invert_toNat]
  omega

@[simp] theorem key_length (kr : Keyrev) : kr.key.length = 8 := putUint64_length kr.word

theorem key_inj {a b : Keyrev} (h : a.key = b.key) : a = b := by
  cases a
  cases b
  exact congrArg Keyrev.mk (putUint64_inj h)

theorem key_lt_key_iff {a b : Keyrev} : a.key < b.key ↔ a.word.toNat < b.word.toNat := by
  rw [key, key, putUint64_lt_iff, UInt64.lt_iff_toNat_lt]

theorem key_le_key_iff {a b : Keyrev} : a.key ≤ b.key ↔ a.word.toNat ≤ b.word.toNat := by
  rw [← not_lt, key_lt_key_iff, Nat.not_lt]

theorem mk_uint64_key (kr : Keyrev) : Keyrev.mk (uint64 kr.key) = kr := by
  rw [key, uint64_putUint64]

/-- Newer revisions have smaller inverted keys. -/
theorem invert_key_lt_iff {a b : Keyrev} :
    a.invert.key < b.invert.key ↔ b.word.toNat < a.word.toNat := by
  have ha := a.word.toNat_lt
  have hb := b.word.toNat_lt
  rw [key_lt_key_iff, invert_toNat, invert_toNat]
  omega

end Keyrev

theorem or_revMaskDelete_toNat {a : UInt64} (h : a.toNat % 4 = 0) :
    (a ||| revMaskDelete).toNat = a.toNat + 2 := by
  have hmask : revMaskDelete.toNat = 2 := by decide
  have hq : a.toNat = 2 ^ 2 * (a.toNat / 4) := by omega
  rw [UInt64.toNat_or, hmask, hq, ← Nat.two_pow_add_eq_or_of_lt (by decide)]

/-- The word of a packed revision, the carry of the index into the revision
included. -/
theorem newkeyrev_word_toNat (upper lower : UInt64) (isdel : Bool) :
    (newkeyrev upper lower isdel).word.toNat =
      (upper.toNat * 4096 + lower.toNat * 4) % 2 ^ 64 + if isdel then 2 else 0 := by
  have hsum : (upper <<< 12 + lower <<< 2).toNat =
      (upper.toNat * 4096 + lower.toNat * 4) % 2 ^ 64 := by
    simp [UInt64.toNat_add, UInt64.toNat_shiftLeft, Nat.shiftLeft_eq]
  cases isdel
  · simpa [newkeyrev] using hsum
  · have hmod : (upper <<< 12 + lower <<< 2).toNat % 4 = 0 := by
      rw [hsum]
      omega
    simpa [newkeyrev, hsum] using or_revMaskDelete_toNat hmod

/-- Operation 1024 of a command and those after it carry into the next revisions. -/
theorem revAt_toNat_of_carry {rev subrev : Nat} (h : rev + subrev / 1024 < 2 ^ 52) (isdel : Bool) :
    (revAt rev subrev isdel).word.toNat = rev * 4096 + subrev * 4 + if isdel then 2 else 0 := by
  rw [revAt, newkeyrev_word_toNat, UInt64.toNat_ofNat', UInt64.toNat_ofNat']
  rw [Nat.mod_eq_of_lt (show rev < 2 ^ 64 by omega),
    Nat.mod_eq_of_lt (show subrev < 2 ^ 64 by omega),
    Nat.mod_eq_of_lt (show rev * 4096 + subrev * 4 < 2 ^ 64 by omega)]

theorem revAt_toNat {rev subrev : Nat} (hrev : rev < 2 ^ 52) (hsub : subrev < 1024)
    (isdel : Bool) :
    (revAt rev subrev isdel).word.toNat = rev * 4096 + subrev * 4 + if isdel then 2 else 0 :=
  revAt_toNat_of_carry (by omega) isdel

@[simp] theorem newkeyrev_isdel (upper lower : UInt64) (isdel : Bool) :
    (newkeyrev upper lower isdel).isdel = isdel := by
  have hword := newkeyrev_word_toNat upper lower isdel
  cases isdel
  · rw [← Bool.not_eq_true, Keyrev.isdel_iff, hword]
    simp only [Bool.false_eq_true, if_false]
    omega
  · rw [Keyrev.isdel_iff, hword]
    simp only [if_true]
    omega

@[simp] theorem revAt_isdel (rev subrev : Nat) (isdel : Bool) :
    (revAt rev subrev isdel).isdel = isdel := newkeyrev_isdel _ _ _

theorem revAt_upper {rev subrev : Nat} (hrev : rev < 2 ^ 52) (hsub : subrev < 1024)
    (isdel : Bool) : (revAt rev subrev isdel).upper.toNat = rev := by
  rw [Keyrev.upper_toNat, revAt_toNat hrev hsub]
  cases isdel <;> simp <;> omega

end Turbokube
