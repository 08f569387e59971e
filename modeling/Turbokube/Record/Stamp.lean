import Turbokube.Model.ZigKv
import Turbokube.Record.Codec

/-!
# The order of packed revisions

A `Stamp` is what `newkeyrev` packs: a revision, the index of an operation and the deletion
flag, within the bits that the word has for them.  The key of the packed word sorts as the
three parts do and the record of a key, which starts with the inverted word, the other way
round.
-/

namespace Turbokube

open Encoding

namespace Keyrev

theorem lower_toNat (kr : Keyrev) : kr.lower.toNat = kr.word.toNat / 4 % 1024 := by
  have hmask : revMaskLower.toNat = 2 ^ 10 - 1 := by decide
  have hshift : (2 : UInt64).toNat % 64 = 2 := by decide
  rw [lower, UInt64.toNat_and, hmask, Nat.and_two_pow_sub_one_eq_mod, UInt64.toNat_shiftRight,
    hshift, Nat.shiftRight_eq_div_pow]

end Keyrev

@[ext] structure Stamp where
  upper : UInt64
  lower : UInt64
  del : Bool
  upper_lt : upper.toNat < 2 ^ 52
  lower_lt : lower.toNat < 1024
  deriving DecidableEq

namespace Stamp

def keyrev (s : Stamp) : Keyrev := newkeyrev s.upper s.lower s.del

/-- The order of the revision, then of the operation, then of the flag. -/
def Older (s t : Stamp) : Prop :=
  s.upper < t.upper ∨ s.upper = t.upper ∧
    (s.lower < t.lower ∨ s.lower = t.lower ∧ s.del = false ∧ t.del = true)

instance (s t : Stamp) : Decidable (s.Older t) :=
  inferInstanceAs (Decidable (_ ∨ _ ∧ (_ ∨ _ ∧ _ ∧ _)))

/-- The record of a key written at a stamp. -/
def record (key : Bytes) (s : Stamp) (lease : UInt64) : Keyrecord := ⟨key, s.keyrev, lease⟩

/-- The parts occupy separate bits. -/
theorem keyrev_toNat (s : Stamp) :
    s.keyrev.word.toNat = s.upper.toNat * 4096 + s.lower.toNat * 4 + if s.del then 2 else 0 := by
  have hupper := s.upper_lt
  have hlower := s.lower_lt
  rw [keyrev, newkeyrev_word_toNat, Nat.mod_eq_of_lt (by omega)]

@[simp] theorem keyrev_isdel (s : Stamp) : s.keyrev.isdel = s.del := newkeyrev_isdel _ _ _

@[simp] theorem keyrev_upper (s : Stamp) : s.keyrev.upper = s.upper := by
  have hlower := s.lower_lt
  rw [← UInt64.toNat_inj, Keyrev.upper_toNat, keyrev_toNat]
  split <;> omega

@[simp] theorem keyrev_lower (s : Stamp) : s.keyrev.lower = s.lower := by
  have hlower := s.lower_lt
  rw [← UInt64.toNat_inj, Keyrev.lower_toNat, keyrev_toNat]
  split <;> omega

theorem keyrev_inj {s t : Stamp} (h : s.keyrev = t.keyrev) : s = t := by
  ext1
  · rw [← keyrev_upper s, h, keyrev_upper]
  · rw [← keyrev_lower s, h, keyrev_lower]
  · rw [← keyrev_isdel s, h, keyrev_isdel]

/-- The order of stamps is that of their words. -/
theorem older_iff {s t : Stamp} :
    s.Older t ↔ s.keyrev.word.toNat < t.keyrev.word.toNat := by
  have hs := s.lower_lt
  have ht := t.lower_lt
  rw [Older, keyrev_toNat, keyrev_toNat, UInt64.lt_iff_toNat_lt, UInt64.lt_iff_toNat_lt,
    ← UInt64.toNat_inj, ← UInt64.toNat_inj]
  cases s.del <;> cases t.del <;>
    simp only [Bool.false_eq_true, if_false, if_true, and_true, and_false, or_false,
      reduceCtorEq] <;> omega

theorem key_lt_key_iff {s t : Stamp} : s.keyrev.key < t.keyrev.key ↔ s.Older t := by
  rw [Keyrev.key_lt_key_iff, older_iff]

theorem older_or_older_of_ne {s t : Stamp} (h : s ≠ t) : s.Older t ∨ t.Older s := by
  have hne : s.keyrev.word.toNat ≠ t.keyrev.word.toNat := fun heq =>
    h (keyrev_inj (Keyrev.ext_toNat heq))
  rw [older_iff, older_iff]
  omega

/-- Whatever the leases, the newer record sorts first. -/
theorem record_lt_of_older {key : Bytes} {s t : Stamp} (h : t.Older s) (lease lease' : UInt64) :
    (s.record key lease).bytes < (t.record key lease').bytes :=
  Keyrecord.bytes_lt_bytes (older_iff.mp h)

/-- Records of different stamps sort newest first. -/
theorem record_lt_iff {key : Bytes} {s t : Stamp} (hne : s ≠ t) {lease lease' : UInt64} :
    (s.record key lease).bytes < (t.record key lease').bytes ↔ t.Older s := by
  constructor
  · intro hlt
    rcases older_or_older_of_ne hne with h | h
    · exact absurd (hlt.trans (record_lt_of_older h lease' lease)) (lt_irrefl _)
    · exact h
  · intro h
    exact record_lt_of_older h lease lease'

/-- A record comes back from its encoding.  Tombstones keep no lease. -/
theorem fromBytes_record (key : Bytes) (s : Stamp) (lease : UInt64) :
    Keyrecord.fromBytes {} key (s.record key lease).bytes =
      .ok ⟨key, s.keyrev, if s.del then 0 else lease⟩ := by
  have h := Keyrecord.fromBytes_bytes {} (s.record key lease)
  simpa only [record, keyrev_isdel] using h

/-- The stamp of a word whose lowest bit, which no revision sets, is clear. -/
def ofKeyrev (kr : Keyrev) : Stamp where
  upper := kr.upper
  lower := kr.lower
  del := kr.isdel
  upper_lt := by
    have := kr.word.toNat_lt
    rw [Keyrev.upper_toNat]
    omega
  lower_lt := by
    rw [Keyrev.lower_toNat]
    exact Nat.mod_lt _ (by decide)

theorem keyrev_ofKeyrev {kr : Keyrev} (h : kr.word.toNat % 2 = 0) : (ofKeyrev kr).keyrev = kr := by
  have hupper : (ofKeyrev kr).upper.toNat = kr.word.toNat / 4096 := kr.upper_toNat
  have hlower : (ofKeyrev kr).lower.toNat = kr.word.toNat / 4 % 1024 := kr.lower_toNat
  have hdel : (ofKeyrev kr).del = true ↔ kr.word.toNat / 2 % 2 = 1 := Keyrev.isdel_iff
  apply Keyrev.ext_toNat
  rw [keyrev_toNat, hupper, hlower, if_congr hdel rfl rfl]
  split <;> omega

end Stamp

namespace ZigKeyrev

theorem init_eq (upper lower : UInt64) (isDel : Bool) :
    init upper lower isDel = newkeyrev upper lower isDel := by
  cases isDel <;> rfl

end ZigKeyrev

namespace ZigKeyrecord

theorem fromBytes_eq (key buf : Bytes) : fromBytes key buf = Keyrecord.fromBytes {} key buf := rfl

/-- No record exceeds the buffer that callers provide. -/
theorem bytes_eq (kr : Keyrecord) : bytes kr = .ok kr.bytes := by
  have hlen := putUvarint_length_le kr.lease
  rw [bytes, if_neg]
  · rw [Keyrecord.bytes, withChecksum, body]
  · rw [body]
    split
    · rw [Keyrev.key_length]
      decide
    · rw [List.length_append, Keyrev.key_length, recordSize]
      omega

end ZigKeyrecord

end Turbokube
