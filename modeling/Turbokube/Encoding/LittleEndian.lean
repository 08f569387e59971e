import Turbokube.Encoding.Bytes
import Mathlib.Tactic.Ring

/-!
# Little-endian numbers

The number whose digits to base 256 are the bytes of a string, least significant first.
-/

namespace Encoding

def leNat : Bytes → Nat
  | [] => 0
  | b :: s => b.toNat + 256 * leNat s

theorem leNat_lt (s : Bytes) : leNat s < 256 ^ s.length := by
  induction s with
  | nil => decide
  | cons b s ih =>
      have hb := b.toNat_lt
      rw [leNat, List.length_cons, Nat.pow_succ]
      omega

theorem leNat_append (s t : Bytes) : leNat (s ++ t) = leNat s + 256 ^ s.length * leNat t := by
  induction s with
  | nil => simp [leNat]
  | cons b s ih =>
      rw [List.cons_append, leNat, ih, leNat, List.length_cons, Nat.pow_succ]
      ring

theorem leNat_mod (s : Bytes) (n : Nat) : leNat s % 256 ^ n = leNat (s.take n) := by
  have hsplit := leNat_append (s.take n) (s.drop n)
  rw [List.take_append_drop] at hsplit
  by_cases hn : n ≤ s.length
  · have hlt := leNat_lt (s.take n)
    rw [List.length_take, Nat.min_eq_left hn] at hsplit hlt
    rw [hsplit, Nat.add_mul_mod_self_left, Nat.mod_eq_of_lt hlt]
  · rw [List.take_of_length_le (by omega)]
    have hlt : leNat s < 256 ^ n :=
      (leNat_lt s).trans_le (Nat.pow_le_pow_right (by decide) (by omega))
    exact Nat.mod_eq_of_lt hlt

theorem leNat_div (s : Bytes) (n : Nat) : leNat s / 256 ^ n = leNat (s.drop n) := by
  have hsplit := leNat_append (s.take n) (s.drop n)
  rw [List.take_append_drop] at hsplit
  by_cases hn : n ≤ s.length
  · have hlt := leNat_lt (s.take n)
    rw [List.length_take, Nat.min_eq_left hn] at hsplit hlt
    rw [hsplit, Nat.add_mul_div_left _ _ (Nat.pow_pos (by decide)), Nat.div_eq_of_lt hlt,
      Nat.zero_add]
  · have hlt : leNat s < 256 ^ n :=
      (leNat_lt s).trans_le (Nat.pow_le_pow_right (by decide) (by omega))
    rw [List.drop_of_length_le (by omega), Nat.div_eq_of_lt hlt]
    rfl

theorem leNat_inj {s t : Bytes} (hlen : s.length = t.length) (h : leNat s = leNat t) : s = t := by
  induction s generalizing t with
  | nil => exact (List.length_eq_zero_iff.mp hlen.symm).symm
  | cons a s ih =>
      cases t with
      | nil => cases hlen
      | cons b t =>
          have ha := a.toNat_lt
          have hb := b.toNat_lt
          rw [leNat, leNat] at h
          have hab : a = b := UInt8.toNat_inj.mp (by omega)
          rw [hab, ih (Nat.succ.inj hlen) (by omega)]

end Encoding
