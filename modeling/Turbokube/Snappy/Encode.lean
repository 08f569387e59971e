import Turbokube.Snappy.Decode

/-!
# Encoding and decoding

The encoder finds matches through a table that may forget and confuse positions.  Nothing depends on
what it finds: a match is used for the bytes that were compared, and the positions in the table are
all behind the current one.  `Progress` says that the bytes emitted so far decode to the part of the
block that has been dealt with, and how long they are.  A literal needs one byte more than it holds
and another for every 61 bytes, and a copy gains one.
-/

namespace Turbokube

open Encoding Snappy

namespace ZigSnappy

theorem ok_bind {α β : Type} (a : α) (f : α → Except Error β) : (Except.ok a >>= f) = f a := rfl

section Emit

variable {cap room : Nat} {out pre : Bytes}

theorem write_eq {bytes : Bytes} (h : out.length + bytes.length ≤ cap) :
    write cap out bytes = .ok (out ++ bytes) := if_pos h

theorem intCast_eq {bound n : Nat} (h : n < bound) : intCast bound n = .ok n := if_pos h

theorem toNat_shl_two : ∀ n < 64, (UInt8.ofNat n <<< 2).toNat = 4 * n := by decide

theorem toNat_copy2 : ∀ n < 64, (UInt8.ofNat n <<< 2 ||| 2).toNat = 4 * n + 2 := by decide

theorem toNat_copy1 : ∀ hi < 8, ∀ n < 8,
    (UInt8.ofNat hi <<< 5 ||| UInt8.ofNat n <<< 2 ||| 1).toNat = 32 * hi + 4 * n + 1 := by decide

theorem leNat_two {n : Nat} (h : n < 2 ^ 16) :
    leNat [UInt8.ofNat n, UInt8.ofNat (n / 2 ^ 8)] = n := by
  rw [leNat, leNat, leNat, UInt8.toNat_ofNat', UInt8.toNat_ofNat']
  omega

theorem emitLiteral_spec {lit : Bytes} (hpos : 0 < lit.length) (hlen : lit.length ≤ 65536)
    (hroom : pre.length + lit.length ≤ room)
    (hcap : out.length + (lit.length + 1 + lit.length / 61) ≤ cap) :
    ∃ bytes, emitLiteral cap out lit = .ok (out ++ bytes) ∧
      bytes.length ≤ lit.length + 1 + lit.length / 61 ∧ Emits room bytes pre (pre ++ lit) := by
  have happly : (Element.literal lit).apply room pre = some (pre ++ lit) := if_pos hroom
  -- any of the three tags
  have htag : ∀ tag : UInt8, ∀ ops : Bytes, tag.toNat % 4 = 0 → ops.length = operands tag →
      literalLength tag (leNat ops) = lit.length → ops.length ≤ lit.length / 61 →
      (∃ bytes, (do
          let out ← write cap out (tag :: ops)
          write cap out lit) = .ok (out ++ bytes) ∧
        bytes.length ≤ lit.length + 1 + lit.length / 61 ∧ Emits room bytes pre (pre ++ lit)) := by
    intro tag ops hfour hops hlit hshort
    refine ⟨tag :: ops ++ lit, ?_, ?_, .of_element (fun rest => ?_) happly⟩
    · rw [write_eq (by rw [List.length_cons]; omega)]
      simp only [bind, Except.bind]
      rw [write_eq (by rw [List.length_append, List.length_cons]; omega), List.append_assoc]
    · rw [List.length_append, List.length_cons]
      omega
    · rw [List.cons_append, List.cons_append, readElement, List.append_assoc]
      exact readTagged_literal hfour hops hlit rest
  rw [emitLiteral, sub_eq (show 1 ≤ lit.length from hpos)]
  simp only [bind, Except.bind]
  by_cases hsmall : lit.length - 1 < 60
  · have hnat := toNat_shl_two (lit.length - 1) (by omega)
    rw [if_pos hsmall]
    refine htag _ [] (by omega) ?_ ?_ (Nat.zero_le _)
    · rw [operands, show (UInt8.ofNat (lit.length - 1) <<< 2).toNat % 4 = 0 by omega]
      simp only [List.length_nil]
      omega
    · rw [literalLength, if_pos (by omega)]
      omega
  · rw [if_neg hsmall]
    by_cases hbyte : lit.length - 1 < 2 ^ 8
    · rw [if_pos hbyte]
      refine htag _ _ (by decide) rfl ?_ ?_
      · rw [literalLength, if_neg (by decide), leNat, leNat, UInt8.toNat_ofNat']
        omega
      · rw [List.length_singleton]
        omega
    · rw [if_neg hbyte]
      refine htag _ _ (by decide) rfl ?_ ?_
      · rw [literalLength, if_neg (by decide), leNat_two (by omega)]
        omega
      · simp only [List.length_cons, List.length_nil]
        omega

section Copy

variable {offset : Nat}

theorem copy2_spec {n : Nat} (hn : n < 64) (hoff : 0 < offset ∧ offset < 2 ^ 16)
    (hpre : offset ≤ pre.length) (hroom : pre.length + (n + 1) ≤ room) :
    Emits room (copy2 offset n) pre (copyFrom offset (n + 1) pre) := by
  have hnat := toNat_copy2 n hn
  refine .of_element (e := .copy offset (n + 1)) (fun rest => ?_)
    (if_pos ⟨hoff.1, hpre, hroom⟩)
  have hops : ([UInt8.ofNat offset, UInt8.ofNat (offset / 2 ^ 8)] : Bytes).length =
      operands (UInt8.ofNat n <<< 2 ||| 2) := by
    rw [operands, show (UInt8.ofNat n <<< 2 ||| 2).toNat % 4 = 2 by omega]
    rfl
  have hread := readTagged_copy2 (by omega) hops rest
  rw [leNat_two hoff.2, show 1 + (UInt8.ofNat n <<< 2 ||| 2).toNat / 4 = n + 1 by omega] at hread
  exact hread

theorem emitCopyRest_spec {length : Nat} (hlen : 4 ≤ length ∧ length ≤ 64)
    (hoff : 0 < offset ∧ offset < 2 ^ 16) (hpre : offset ≤ pre.length)
    (hroom : pre.length + length ≤ room) (hcap : out.length + 3 ≤ cap) :
    ∃ bytes, emitCopyRest cap out offset length = .ok (out ++ bytes) ∧ bytes.length ≤ 3 ∧
      Emits room bytes pre (copyFrom offset length pre) := by
  rw [emitCopyRest]
  by_cases hlong : 12 ≤ length ∨ 2048 ≤ offset
  · rw [if_pos hlong, sub_eq (by omega)]
    simp only [bind, Except.bind, intCast_eq (show length - 1 < 2 ^ 8 by omega)]
    rw [write_eq hcap]
    refine ⟨_, rfl, le_rfl, ?_⟩
    have hspec := copy2_spec (n := length - 1) (by omega) hoff hpre
      (show pre.length + (length - 1 + 1) ≤ room by omega)
    rw [show length - 1 + 1 = length by omega] at hspec
    exact hspec
  · have hhi : offset / 2 ^ 8 < 8 := by omega
    have hnat := toNat_copy1 (offset / 2 ^ 8) hhi (length - 4) (by omega)
    rw [if_neg hlong, intCast_eq (by omega)]
    simp only [bind, Except.bind, sub_eq hlen.1, intCast_eq (show length - 4 < 2 ^ 8 by omega)]
    rw [write_eq (by simp only [List.length_cons, List.length_nil]; omega)]
    refine ⟨_, rfl, by simp, .of_element (e := .copy offset length) (fun rest => ?_)
      (if_pos ⟨hoff.1, hpre, hroom⟩)⟩
    have hops : ([UInt8.ofNat offset] : Bytes).length = operands
        (UInt8.ofNat (offset / 2 ^ 8) <<< 5 ||| UInt8.ofNat (length - 4) <<< 2 ||| 1) := by
      rw [operands, show (UInt8.ofNat (offset / 2 ^ 8) <<< 5 ||| UInt8.ofNat (length - 4) <<< 2
        ||| 1).toNat % 4 = 1 by omega]
      rfl
    have hread := readTagged_copy1 (by omega) hops rest
    rw [hnat, leNat, leNat, UInt8.toNat_ofNat',
      show (32 * (offset / 2 ^ 8) + 4 * (length - 4) + 1) / 32 * 256 +
        (offset % 2 ^ 8 + 256 * 0) = offset by omega,
      show 4 + (32 * (offset / 2 ^ 8) + 4 * (length - 4) + 1) / 4 % 8 = length by omega] at hread
    exact hread

theorem emitCopyLoop_spec {fuel length : Nat} (hfuel : length ≤ fuel) (hlen : 4 ≤ length)
    (hoff : 0 < offset ∧ offset < 2 ^ 16) (hpre : offset ≤ pre.length)
    (hroom : pre.length + length ≤ room) (hcap : out.length + length ≤ cap + 1) :
    ∃ bytes done left, emitCopyLoop cap offset fuel length out = .ok (left, out ++ bytes) ∧
      length = done + left ∧ 4 ≤ left ∧ left < 68 ∧ bytes.length ≤ done ∧
      Emits room bytes pre (copyFrom offset done pre) := by
  induction fuel generalizing length out pre with
  | zero => omega
  | succ fuel ih =>
      rw [emitCopyLoop]
      by_cases hlong : 68 ≤ length
      · have hlen3 : (copy2 offset 63).length = 3 := rfl
        rw [if_pos hlong, write_eq (by omega)]
        simp only [bind, Except.bind]
        obtain ⟨bytes, done, left, heq, hsum, hleft, hlt, hbytes, hemits⟩ :=
          @ih (out ++ copy2 offset 63) (copyFrom offset 64 pre) (length - 64) (by omega) (by omega)
            (by rw [copyFrom_length]; omega) (by rw [copyFrom_length]; omega)
            (by rw [List.length_append]; omega)
        refine ⟨copy2 offset 63 ++ bytes, 64 + done, left, ?_, by omega, hleft, hlt, ?_, ?_⟩
        · rw [heq, List.append_assoc]
        · rw [List.length_append]
          omega
        · rw [copyFrom_add]
          exact (copy2_spec (by omega) hoff hpre (by omega)).append hemits
      · rw [if_neg hlong]
        exact ⟨[], 0, length, by rw [List.append_nil], by omega, hlen, by omega, le_rfl, .nil _ _⟩

/-- A copy takes at least one byte less than it stands for. -/
theorem emitCopy_spec {length : Nat} (hlen : 4 ≤ length) (hoff : 0 < offset ∧ offset < 2 ^ 16)
    (hpre : offset ≤ pre.length) (hroom : pre.length + length ≤ room)
    (hcap : out.length + length ≤ cap + 1) :
    ∃ bytes, emitCopy cap out offset length = .ok (out ++ bytes) ∧ bytes.length + 1 ≤ length ∧
      Emits room bytes pre (copyFrom offset length pre) := by
  obtain ⟨bytes, done, left, heq, hsum, hleft, hlt, hbytes, hemits⟩ :=
    emitCopyLoop_spec le_rfl hlen hoff hpre hroom hcap
  have hpre' : offset ≤ (copyFrom offset done pre).length := by
    rw [copyFrom_length]
    omega
  have hlen3 : (copy2 offset 59).length = 3 := rfl
  rw [emitCopy, heq]
  simp only [bind, Except.bind]
  by_cases htwo : 64 < left
  · rw [if_pos htwo, write_eq (by rw [List.length_append]; omega)]
    simp only
    obtain ⟨last, hrest, hlast, hemits'⟩ := @emitCopyRest_spec cap room
      (out ++ bytes ++ copy2 offset 59) (copyFrom offset 60 (copyFrom offset done pre)) offset
      (left - 60) ⟨by omega, by omega⟩ hoff (by rw [copyFrom_length]; omega)
      (by rw [copyFrom_length, copyFrom_length]; omega)
      (by rw [List.length_append, List.length_append]; omega)
    refine ⟨bytes ++ copy2 offset 59 ++ last, ?_, ?_, ?_⟩
    · rw [hrest]
      simp only [List.append_assoc]
    · rw [List.length_append, List.length_append]
      omega
    · rw [show length = done + 60 + (left - 60) by omega, copyFrom_add, copyFrom_add]
      exact (hemits.append (copy2_spec (by omega) hoff hpre'
        (by rw [copyFrom_length]; omega))).append hemits'
  · rw [if_neg htwo]
    obtain ⟨last, hrest, hlast, hemits'⟩ := @emitCopyRest_spec cap room (out ++ bytes)
      (copyFrom offset done pre) offset left ⟨hleft, by omega⟩ hoff hpre'
      (by rw [copyFrom_length]; omega) (by rw [List.length_append]; omega)
    refine ⟨bytes ++ last, by rw [hrest, List.append_assoc], ?_, ?_⟩
    · rw [List.length_append]
      omega
    · rw [hsum, copyFrom_add]
      exact hemits.append hemits'

end Copy

end Emit

section Find

variable {src : Bytes}

/-- The bytes from `i` on and from `s` on agree for `n` places. -/
def Agree (src : Bytes) (i s n : Nat) : Prop := ∀ j < n, src[i + j]? = src[s + j]?

theorem load32_eq {i : Nat} (h : i + 4 ≤ src.length) :
    load32 src i = .ok (leNat ((src.drop i).take 4)) := by
  rw [load32, slice, if_pos ⟨by omega, h⟩]
  simp only [bind, Except.bind]
  rw [List.drop_take, Nat.add_sub_cancel_left]

theorem load64_eq {i : Nat} (h : i + 8 ≤ src.length) :
    load64 src i = .ok (leNat ((src.drop i).take 8)) := by
  rw [load64, slice, if_pos ⟨by omega, h⟩]
  simp only [bind, Except.bind]
  rw [List.drop_take, Nat.add_sub_cancel_left]

/-- The middle of a 64-bit number is what a 32-bit load one byte further on reads. -/
theorem load64_mid {i : Nat} :
    truncate (leNat ((src.drop i).take 8) >>> 8) = leNat ((src.drop (i + 1)).take 4) := by
  have hdiv := leNat_div ((src.drop i).take 8) 1
  have hmod := leNat_mod (((src.drop i).take 8).drop 1) 4
  rw [truncate, Nat.shiftRight_eq_div_pow, show (2 : Nat) ^ 8 = 256 ^ 1 from rfl, hdiv,
    show (2 : Nat) ^ 32 = 256 ^ 4 from rfl, hmod, List.drop_take, List.drop_drop, List.take_take]
  rfl

theorem agree_of_load32 {i s : Nat} (hi : i + 4 ≤ src.length) (hs : s + 4 ≤ src.length)
    (h : leNat ((src.drop s).take 4) = leNat ((src.drop i).take 4)) : Agree src i s 4 := by
  have hlen : ∀ k, k + 4 ≤ src.length → ((src.drop k).take 4).length = 4 := by
    intro k hk
    rw [List.length_take, List.length_drop]
    omega
  have heq := leNat_inj ((hlen s hs).trans (hlen i hi).symm) h
  intro j hj
  have hget := congrArg (fun l : Bytes => l[j]?) heq
  simp only [List.getElem?_take, hj, if_true, List.getElem?_drop] at hget
  exact hget.symm

theorem Agree.append {i s m n : Nat} (h : Agree src i s m) (h' : Agree src (i + m) (s + m) n) :
    Agree src i s (m + n) := by
  intro j hj
  by_cases hm : j < m
  · exact h j hm
  · have hrest := h' (j - m) (by omega)
    rw [show i + m + (j - m) = i + j by omega, show s + m + (j - m) = s + j by omega] at hrest
    exact hrest

/-- Copying what agrees goes on with the source. -/
theorem Agree.copyFrom {pre : Bytes} {i s n : Nat} (h : Agree src i s n) (his : i < s)
    (hn : s + n ≤ src.length) :
    Snappy.copyFrom (s - i) n (pre ++ src.take s) = pre ++ src.take (s + n) := by
  have htake : src.take (s + n) = src.take s ++ (src.drop s).take n := List.take_add
  have hlen : ((src.drop s).take n).length = n := by
    rw [List.length_take, List.length_drop]
    omega
  have hpre : (pre ++ src.take s).length = pre.length + s := by
    rw [List.length_append, List.length_take]
    omega
  have hcopy := @copyFrom_eq (pre ++ src.take s) ((src.drop s).take n) (s - i) (by omega)
    (by rw [hpre]; omega) (fun j hj => ?_)
  · rw [hlen] at hcopy
    rw [hcopy, htake, List.append_assoc]
  · rw [hlen] at hj
    have hback : pre.length + s - (s - i) + j = pre.length + (i + j) := by omega
    rw [hpre, List.append_assoc, ← htake, hback, List.getElem?_append_right (by omega),
      Nat.add_sub_cancel_left, List.getElem?_take, if_pos (by omega), List.getElem?_take, if_pos hj,
      List.getElem?_drop]
    exact h j hj

theorem extend_spec {fuel i s : Nat} (hsrc : src.length ≤ 65536) (his : i < s)
    (hs : s ≤ src.length) (hfuel : src.length ≤ s + fuel) :
    ∃ n, extend src fuel i s = .ok (s + n) ∧ s + n ≤ src.length ∧ Agree src i s n := by
  have hstop : Agree src i s 0 := fun j hj => absurd hj (Nat.not_lt_zero j)
  induction fuel generalizing i s with
  | zero =>
      rw [extend, if_neg (by omega)]
      exact ⟨0, rfl, hs, hstop⟩
  | succ fuel ih =>
      rw [extend]
      by_cases hlt : s < src.length
      · have hi : src[i]? = some src[i] := List.getElem?_eq_getElem (by omega)
        have hb : src[s]? = some src[s] := List.getElem?_eq_getElem hlt
        rw [if_pos hlt]
        simp only [index, hi, hb, bind, Except.bind]
        by_cases heq : src[i] = src[s]
        · rw [if_pos heq, add_eq (by omega)]
          simp only [add_eq (show s + 1 < 2 ^ 32 by omega)]
          obtain ⟨n, hext, hle, hagree⟩ := @ih (i + 1) (s + 1) (by omega) (by omega) (by omega)
            (fun j hj => absurd hj (Nat.not_lt_zero j))
          refine ⟨1 + n, by rw [hext, Nat.add_assoc], by omega,
            Agree.append (fun j hj => ?_) hagree⟩
          rw [show j = 0 by omega, Nat.add_zero, Nat.add_zero, hi, hb, heq]
        · rw [if_neg heq]
          exact ⟨0, rfl, hs, hstop⟩
      · rw [if_neg hlt]
        exact ⟨0, rfl, hs, hstop⟩

theorem HashTable.at_lt {table : HashTable} {n : Nat} (h : ∀ k, table k < n) (hash : Nat) :
    table.at hash < n := h _

theorem HashTable.set_lt {table : HashTable} {s n : Nat} (h : ∀ k, table k < n) (hs : s < n)
    (hash : Nat) : ∀ k, table.set hash s k < n := by
  intro k
  rw [HashTable.set, Function.update_apply]
  split
  · exact hs
  · exact h k

/-- What the search finds. -/
structure Match.Good (src : Bytes) (limit : Nat) (m : Match) : Prop where
  lt : m.s < limit
  behind : m.candidate < m.s
  table : ∀ k, m.table k ≤ m.s
  agree : Agree src m.candidate m.s 4

theorem search_spec {shift limit fuel s skip nextHash : Nat} {table : HashTable}
    (hlimit : limit + 15 = src.length) (hsrc : src.length ≤ 65536) (hs : s ≤ limit)
    (htable : ∀ k, table k < s) (hskip : 32 ≤ skip) (hskip' : skip ≤ 32 + s)
    (hfuel : src.length ≤ s + fuel) :
    ∃ r, search src shift limit fuel s skip nextHash table = .ok r ∧
      ∀ m ∈ r, s ≤ m.s ∧ m.Good src limit := by
  induction fuel generalizing s skip nextHash table with
  | zero => omega
  | succ fuel ih =>
      rw [search, add_eq (by omega)]
      simp only [bind, Except.bind, add_eq (show skip + skip / 32 < 2 ^ 32 by omega)]
      by_cases hend : limit < s + skip / 32
      · rw [if_pos hend]
        exact ⟨none, rfl, fun m hm => (by cases hm)⟩
      · have hcand := HashTable.at_lt htable nextHash
        rw [if_neg hend, intCast_eq (by omega)]
        simp only [load32_eq (show s + skip / 32 + 4 ≤ src.length by omega),
          load32_eq (show s + 4 ≤ src.length by omega),
          load32_eq (show table.at nextHash + 4 ≤ src.length by omega)]
        by_cases heq : leNat ((src.drop s).take 4) = leNat ((src.drop (table.at nextHash)).take 4)
        · rw [if_pos heq]
          refine ⟨_, rfl, fun m hm => ?_⟩
          obtain rfl := Option.some.inj hm
          refine ⟨le_rfl, by simp only; omega, hcand, fun k => ?_,
            agree_of_load32 (show table.at nextHash + 4 ≤ src.length by omega)
              (show s + 4 ≤ src.length by omega) heq⟩
          exact Nat.le_of_lt_succ (HashTable.set_lt (fun k => Nat.lt_succ_of_lt (htable k))
            (Nat.lt_succ_self s) nextHash k)
        · rw [if_neg heq]
          obtain ⟨r, hr, hgood⟩ := @ih (s + skip / 32) (skip + skip / 32)
            (hash (leNat ((src.drop (s + skip / 32)).take 4)) shift) (table.set nextHash s)
            (by omega) (HashTable.set_lt (fun k => by have := htable k; omega) (by omega) nextHash)
            (by omega) (by omega) (by omega)
          refine ⟨r, hr, fun m hm => ?_⟩
          obtain ⟨hle, hm⟩ := hgood m hm
          exact ⟨by omega, hm⟩

end Find

/-- Behind what was there before, the output has bytes that decode to the first `n` bytes of the
block, and at most `slack` more of them than the bound for `n` bytes. -/
structure Progress (room : Nat) (pre src out₀ : Bytes) (n slack : Nat) (out : Bytes) : Prop where
  emits : ∃ bytes, out = out₀ ++ bytes ∧ Emits room bytes pre (pre ++ src.take n)
  length_le : out.length ≤ out₀.length + (n + n / 61 + slack)

section Block

variable {cap room : Nat} {pre src out₀ out : Bytes}

theorem Progress.literal {n s : Nat} (h : Progress room pre src out₀ n 0 out) (hns : n < s)
    (hs : s ≤ src.length) (hsrc : src.length ≤ 65536) (hroom : pre.length + src.length ≤ room)
    (hcap : out₀.length + (src.length + src.length / 61 + 1) ≤ cap) :
    ∃ out', (do
        let lit ← slice src n s
        emitLiteral cap out lit) = .ok out' ∧ Progress room pre src out₀ s 1 out' := by
  obtain ⟨⟨bytes, rfl, hemits⟩, hle⟩ := h
  have hlen : ((src.take s).drop n).length = s - n := by
    rw [List.length_drop, List.length_take]
    omega
  have hpre : (pre ++ src.take n).length = pre.length + n := by
    rw [List.length_append, List.length_take]
    omega
  rw [slice, if_pos ⟨by omega, hs⟩]
  simp only [bind, Except.bind]
  obtain ⟨tail, heq, htail, hemits'⟩ := @emitLiteral_spec cap room (out₀ ++ bytes)
    (pre ++ src.take n) ((src.take s).drop n) (by omega) (by omega) (by omega) (by omega)
  refine ⟨_, heq, ⟨bytes ++ tail, by rw [List.append_assoc], ?_⟩, ?_⟩
  · have hsplit : src.take n ++ (src.take s).drop n = src.take s := by
      have htake := List.take_append_drop n (src.take s)
      rw [List.take_take, Nat.min_eq_left (by omega)] at htake
      exact htake
    have hboth := hemits.append hemits'
    rw [List.append_assoc, hsplit] at hboth
    exact hboth
  · rw [List.length_append]
    omega

theorem Progress.copy {candidate s n : Nat} (h : Progress room pre src out₀ s 1 out)
    (hn : 4 ≤ n) (hbehind : candidate < s) (hagree : Agree src candidate s n)
    (hs : s + n ≤ src.length) (hsrc : src.length ≤ 65536)
    (hroom : pre.length + src.length ≤ room)
    (hcap : out₀.length + (src.length + src.length / 61 + 1) ≤ cap) :
    ∃ out', emitCopy cap out (s - candidate) n = .ok out' ∧
      Progress room pre src out₀ (s + n) 0 out' := by
  obtain ⟨⟨bytes, rfl, hemits⟩, hle⟩ := h
  have hpre : (pre ++ src.take s).length = pre.length + s := by
    rw [List.length_append, List.length_take]
    omega
  obtain ⟨tail, heq, htail, hemits'⟩ := @emitCopy_spec cap room (out₀ ++ bytes)
    (pre ++ src.take s) (s - candidate) n hn ⟨by omega, by omega⟩ (by omega) (by omega) (by omega)
  rw [hagree.copyFrom hbehind hs] at hemits'
  refine ⟨_, heq, ⟨bytes ++ tail, by rw [List.append_assoc], hemits.append hemits'⟩, ?_⟩
  rw [List.length_append]
  omega

variable {shift limit : Nat}

/-- What a run of copies leaves behind: at `e` it stops, or the search resumes one byte further. -/
structure Copied (limit e : Nat) (r : Resume) : Prop where
  lt : e < limit
  s : r.s = e + 1
  table : ∀ k, r.table k < r.s

theorem copies_spec {fuel base candidate : Nat} {table : HashTable}
    (hlimit : limit + 15 = src.length) (hsrc : src.length ≤ 65536)
    (hroom : pre.length + src.length ≤ room)
    (hcap : out₀.length + (src.length + src.length / 61 + 1) ≤ cap)
    (hm : (⟨base, candidate, table⟩ : Match).Good src limit)
    (hout : Progress room pre src out₀ base 1 out) (hfuel : src.length ≤ base + fuel) :
    ∃ out' e r, copies cap src shift limit fuel base candidate table out = .ok (out', e, r) ∧
      base < e ∧ e ≤ src.length ∧ Progress room pre src out₀ e 0 out' ∧
      ∀ r' ∈ r, Copied limit e r' := by
  induction fuel generalizing base candidate table out with
  | zero =>
      have hlt := hm.lt
      simp only at hlt
      omega
  | succ fuel ih =>
      obtain ⟨hlt, hbehind, htable, hagree⟩ := hm
      simp only at hlt hbehind htable hagree
      obtain ⟨n, hext, hend, hmore⟩ := @extend_spec src src.length (candidate + 4) (base + 4) hsrc
        (by omega) (by omega) (by omega)
      obtain ⟨out', hemit, hout'⟩ := hout.copy (show 4 ≤ 4 + n by omega) hbehind
        (hagree.append hmore) (by omega) hsrc hroom hcap
      rw [copies, add_eq (show base + 4 < 2 ^ 32 by omega), ok_bind,
        add_eq (show candidate + 4 < 2 ^ 32 by omega), ok_bind, hext, ok_bind,
        sub_eq (show candidate ≤ base by omega), ok_bind,
        sub_eq (show base ≤ base + 4 + n by omega), ok_bind,
        show base + 4 + n - base = 4 + n by omega, hemit, ok_bind]
      rw [← Nat.add_assoc] at hout'
      by_cases hstop : limit ≤ base + 4 + n
      · rw [if_pos hstop]
        exact ⟨out', _, none, rfl, by omega, hend, hout', fun r' hr' => (by cases hr')⟩
      · -- the two entries that are written are behind the new position, or at it
        have htable₁ : ∀ h k, table.set h (base + 4 + n - 1) k < base + 4 + n := fun h =>
          HashTable.set_lt (fun k => by have := htable k; omega) (by omega) h
        rw [if_neg hstop, sub_eq (show 1 ≤ base + 4 + n by omega), ok_bind,
          load64_eq (show base + 4 + n - 1 + 8 ≤ src.length by omega), ok_bind, load64_mid,
          show base + 4 + n - 1 + 1 = base + 4 + n by omega,
          intCast_eq (show base + 4 + n - 1 < 2 ^ 16 by omega), ok_bind,
          intCast_eq (show base + 4 + n < 2 ^ 16 by omega), ok_bind]
        generalize hash (truncate (leNat ((src.drop (base + 4 + n - 1)).take 8))) shift = prevHash
        generalize hash (leNat ((src.drop (base + 4 + n)).take 4)) shift = currHash
        have hcand' := HashTable.at_lt (htable₁ prevHash) currHash
        have htable₂ := HashTable.set_lt (fun k => Nat.lt_succ_of_lt (htable₁ prevHash k))
          (Nat.lt_succ_self (base + 4 + n)) currHash
        generalize (table.set prevHash (base + 4 + n - 1)).at currHash = candidate' at hcand' ⊢
        rw [load32_eq (show candidate' + 4 ≤ src.length by omega), ok_bind]
        by_cases heq : leNat ((src.drop (base + 4 + n)).take 4) ≠
            leNat ((src.drop candidate').take 4)
        · rw [if_pos heq, add_eq (show base + 4 + n + 1 < 2 ^ 32 by omega), ok_bind]
          refine ⟨out', _, _, rfl, by omega, hend, hout', fun r' hr' => ?_⟩
          obtain rfl := Option.some.inj hr'
          exact ⟨by omega, rfl, htable₂⟩
        · rw [if_neg heq]
          obtain ⟨out'', e, r, hcopies, hlt', hle', hout'', hr⟩ := @ih out' (base + 4 + n)
            candidate' _ ⟨by simp only; omega, hcand', fun k => Nat.le_of_lt_succ (htable₂ k),
              agree_of_load32 (show candidate' + 4 ≤ src.length by omega)
                (show base + 4 + n + 4 ≤ src.length by omega) (not_not.mp heq)⟩
            ⟨hout'.emits, by have := hout'.length_le; omega⟩ (by omega)
          exact ⟨out'', e, r, hcopies, by omega, hle', hout'', hr⟩

theorem blockLoop_spec {fuel nextEmit : Nat} {r : Resume} (hlimit : limit + 15 = src.length)
    (hsrc : src.length ≤ 65536) (hroom : pre.length + src.length ≤ room)
    (hcap : out₀.length + (src.length + src.length / 61 + 1) ≤ cap) (hr : r.s ≤ limit)
    (htable : ∀ k, r.table k < r.s) (hnext : nextEmit < r.s)
    (hout : Progress room pre src out₀ nextEmit 0 out) (hfuel : src.length ≤ r.s + fuel) :
    ∃ out' e, blockLoop cap src shift limit fuel r nextEmit out = .ok (out', e) ∧
      e ≤ src.length ∧ Progress room pre src out₀ e 0 out' := by
  induction fuel generalizing r nextEmit out with
  | zero => omega
  | succ fuel ih =>
      obtain ⟨found, hsearch, hgood⟩ := @search_spec src shift limit src.length r.s 32 r.nextHash
        r.table hlimit hsrc hr htable le_rfl (by omega) (by omega)
      rw [blockLoop, hsearch]
      simp only [bind, Except.bind]
      cases found with
      | none => exact ⟨out, nextEmit, rfl, by omega, hout⟩
      | some m =>
          obtain ⟨hle, hm⟩ := hgood m rfl
          have hlt := hm.lt
          obtain ⟨out₁, hlit, hout₁⟩ := hout.literal (show nextEmit < m.s by omega)
            (show m.s ≤ src.length by omega) hsrc hroom hcap
          obtain ⟨out₂, e, resume, hcopies, hbase, hend, hout₂, hresume⟩ :=
            @copies_spec cap room pre src out₀ out₁ shift limit src.length m.s m.candidate m.table
              hlimit hsrc hroom hcap hm hout₁ (by omega)
          simp only [bind, Except.bind] at hlit
          cases hslice : slice src nextEmit m.s with
          | error err =>
              rw [hslice] at hlit
              cases hlit
          | ok lit =>
              rw [hslice] at hlit
              simp only at hlit
              simp only [hslice, hlit, hcopies]
              cases resume with
              | none => exact ⟨out₂, e, rfl, hend, hout₂⟩
              | some r' =>
                  obtain ⟨he, hs, htable'⟩ := hresume r' rfl
                  exact ih (by omega) htable' (by omega) hout₂ (by omega)

/-- A block is encoded within its bound and decodes to itself. -/
theorem encodeBlock_spec (hlen : 17 ≤ src.length) (hsrc : src.length ≤ 65536)
    (hroom : pre.length + src.length ≤ room)
    (hcap : out.length + (src.length + src.length / 61 + 1) ≤ cap) :
    ∃ bytes, encodeBlock cap out src = .ok (out ++ bytes) ∧
      bytes.length ≤ src.length + src.length / 61 + 1 ∧ Emits room bytes pre (pre ++ src) := by
  have hstart : Progress room pre src out 0 0 out := by
    refine ⟨⟨[], by rw [List.append_nil], ?_⟩, by omega⟩
    rw [List.take_zero, List.append_nil]
    exact .nil _ _
  rw [encodeBlock, sub_eq (by omega)]
  simp only [bind, Except.bind, load32_eq (show 1 + 4 ≤ src.length by omega)]
  obtain ⟨out₁, e, hloop, hend, hout₁⟩ := @blockLoop_spec cap room pre src out out
    (tableShift src.length 6 (2 ^ 8) 24) (src.length - 15) src.length 0
    ⟨1, hash (leNat ((src.drop 1).take 4)) (tableShift src.length 6 (2 ^ 8) 24), fun _ => 0⟩
    (by omega) hsrc hroom hcap (by simp only; omega) (fun _ => Nat.one_pos) Nat.one_pos hstart
    (by simp only; omega)
  -- the output at the end of the block
  have hdone : ∀ {slack : Nat} {out' : Bytes}, slack ≤ 1 →
      Progress room pre src out src.length slack out' → ∃ bytes, out' = out ++ bytes ∧
        bytes.length ≤ src.length + src.length / 61 + 1 ∧ Emits room bytes pre (pre ++ src) := by
    rintro slack out' hslack ⟨⟨bytes, rfl, hemits⟩, hle⟩
    rw [List.take_length] at hemits
    rw [List.length_append] at hle
    exact ⟨bytes, rfl, by omega, hemits⟩
  simp only [hloop]
  by_cases hrest : e < src.length
  · obtain ⟨out₂, hlit, hout₂⟩ := hout₁.literal hrest le_rfl hsrc hroom hcap
    obtain ⟨bytes, rfl, hbytes⟩ := hdone le_rfl hout₂
    rw [if_pos hrest]
    exact ⟨bytes, hlit, hbytes⟩
  · obtain rfl : e = src.length := by omega
    obtain ⟨bytes, rfl, hbytes⟩ := hdone (Nat.zero_le 1) hout₁
    rw [if_neg hrest]
    exact ⟨bytes, rfl, hbytes⟩

end Block

section Whole

variable {cap room : Nat} {pre src out : Bytes}

theorem encodePart_spec (hpos : 0 < src.length) (hsrc : src.length ≤ 65536)
    (hroom : pre.length + src.length ≤ room)
    (hcap : out.length + (src.length + src.length / 61 + 1) ≤ cap) :
    ∃ bytes, encodePart cap out src = .ok (out ++ bytes) ∧
      bytes.length ≤ src.length + src.length / 61 + 1 ∧ Emits room bytes pre (pre ++ src) := by
  rw [encodePart]
  by_cases hsmall : src.length < 17
  · rw [if_pos hsmall]
    obtain ⟨bytes, heq, hle, hemits⟩ := @emitLiteral_spec cap room out pre src hpos hsrc hroom
      (by omega)
    exact ⟨bytes, heq, by omega, hemits⟩
  · rw [if_neg hsmall]
    exact encodeBlock_spec (by omega) hsrc hroom hcap

theorem encoded_nil (hsrc : src.length = 0) (hcap : out.length ≤ cap) :
    ∃ bytes, (Except.ok out : Except Error Bytes) = .ok (out ++ bytes) ∧
      (out ++ bytes).length ≤ cap ∧ Emits room bytes pre (pre ++ src) := by
  rw [List.length_eq_zero_iff.mp hsrc, List.append_nil]
  exact ⟨[], by rw [List.append_nil], by rw [List.append_nil]; exact hcap, .nil _ _⟩

/-- One byte more for every block. -/
theorem encodeLoop_spec {fuel : Nat} (hfuel : src.length ≤ fuel)
    (hroom : pre.length + src.length ≤ room)
    (hcap : out.length + (src.length + src.length / 61 + (src.length + 65535) / 65536) ≤ cap) :
    ∃ bytes, encodeLoop cap fuel src out = .ok (out ++ bytes) ∧
      (out ++ bytes).length ≤ cap ∧ Emits room bytes pre (pre ++ src) := by
  induction fuel generalizing src out pre with
  | zero =>
      rw [encodeLoop, if_neg (by omega)]
      exact encoded_nil (by omega) (by omega)
  | succ fuel ih =>
      rw [encodeLoop]
      by_cases hpos : 0 < src.length
      · have hlen : (src.take 65536).length = min 65536 src.length := List.length_take
        obtain ⟨bytes, hblock, hbytes, hemits⟩ := @encodePart_spec cap room pre (src.take 65536) out
          (by omega) (by omega) (by omega) (by omega)
        have hdrop : (src.drop (src.take 65536).length).length =
            src.length - min 65536 src.length := by
          rw [List.length_drop, hlen]
        have hsplit : src.take 65536 ++ src.drop (src.take 65536).length = src := by
          by_cases hle : src.length ≤ 65536
          · rw [List.take_of_length_le hle, List.drop_length, List.append_nil]
          · rw [hlen, Nat.min_eq_left (by omega), List.take_append_drop]
        rw [if_pos hpos]
        simp only [bind, Except.bind, hblock]
        obtain ⟨tail, heq, hle, hemits'⟩ := @ih (pre ++ src.take 65536)
          (src.drop (src.take 65536).length) (out ++ bytes) (by omega)
          (by rw [List.length_append]; omega) (by rw [List.length_append]; omega)
        refine ⟨bytes ++ tail, by rw [heq, List.append_assoc], ?_, ?_⟩
        · rw [← List.append_assoc]
          exact hle
        · rw [List.append_assoc, hsplit] at hemits'
          exact hemits.append hemits'
      · rw [if_neg hpos]
        exact encoded_nil (by omega) (by omega)

/-- The length at the start of a block is read back. -/
theorem header_putUvarintAux {fuel n : Nat} (hn : n < 128 ^ (fuel + 1)) (rest : Bytes) :
    header (putUvarintAux (fuel + 1) n ++ rest) = some (n, rest) := by
  induction fuel generalizing n with
  | zero =>
      have hmod : n % 256 = n := by omega
      rw [putUvarintAux, if_pos (by omega), List.singleton_append, header, UInt8.toNat_ofNat',
        hmod, if_pos (by omega)]
  | succ fuel ih =>
      rw [putUvarintAux]
      by_cases hlast : n < 128
      · have hmod : n % 256 = n := by omega
        rw [if_pos hlast, List.singleton_append, header, UInt8.toNat_ofNat', hmod, if_pos hlast]
      · have hbyte : (UInt8.ofNat (n % 128 + 128)).toNat = n % 128 + 128 := by
          rw [UInt8.toNat_ofNat']
          omega
        have hdiv : n / 128 < 128 ^ (fuel + 1) := by
          rw [Nat.div_lt_iff_lt_mul (by decide), ← Nat.pow_succ]
          exact hn
        rw [if_neg hlast, List.cons_append, header, hbyte, if_neg (by omega), ih hdiv]
        simp only [Option.some.injEq, Prod.mk.injEq, and_true]
        omega

theorem putUvarintAux_length_of_lt {fuel n k : Nat} (hn : n < 128 ^ (k + 1)) :
    (putUvarintAux fuel n).length ≤ k + 1 := by
  induction fuel generalizing n k with
  | zero => simp [putUvarintAux]
  | succ fuel ih =>
      rw [putUvarintAux]
      by_cases hlast : n < 128
      · rw [if_pos hlast, List.length_singleton]
        omega
      · cases k with
        | zero => omega
        | succ k =>
            have hdiv : n / 128 < 128 ^ (k + 1) := by
              rw [Nat.div_lt_iff_lt_mul (by decide), ← Nat.pow_succ]
              exact hn
            have hle := ih hdiv
            rw [if_neg hlast, List.length_cons]
            omega

end Whole

/-- Every string shorter than 2^31 bytes is encoded without a fault, within the buffer allocated for
it, and the decoder gives it back. -/
theorem decode_encode (x : Bytes) (hx : x.length < 2 ^ 31) :
    ∃ cap y, maxEncodedLen x.length = .ok cap ∧ encode x = .ok y ∧ y.length ≤ cap ∧
      decode y = .ok x := by
  have hmax : maxEncodedLen x.length = .ok (32 + x.length + x.length / 6) := by
    rw [maxEncodedLen, add_eq (show 32 + x.length < 2 ^ 32 by omega), ok_bind,
      add_eq (show 32 + x.length + x.length / 6 < 2 ^ 32 by omega)]
  have hhead : (putUvarintAux 10 x.length).length ≤ 5 :=
    putUvarintAux_length_of_lt (show x.length < 128 ^ 5 by omega)
  obtain ⟨body, hloop, hle, hemits⟩ := @encodeLoop_spec (32 + x.length + x.length / 6) x.length []
    x ([] ++ putUvarintAux 10 x.length) x.length le_rfl (by simp)
    (by rw [List.nil_append]; omega)
  have hencode : encode x = .ok (putUvarintAux 10 x.length ++ body) := by
    rw [encode, hmax, ok_bind, write_eq (by rw [List.length_nil]; omega), ok_bind, hloop,
      List.nil_append]
  rw [List.nil_append] at hle
  refine ⟨_, _, hmax, hencode, hle, ?_⟩
  generalize hy : putUvarintAux 10 x.length ++ body = y at hle ⊢
  have hheader : header y = some (x.length, body) := by
    rw [← hy]
    exact header_putUvarintAux (show x.length < 128 ^ 10 by omega) body
  have hlen : y.length - body.length ≤ 5 := by
    rw [← hy, List.length_append]
    omega
  have hmod : x.length % 2 ^ 64 = x.length := Nat.mod_eq_of_lt (by omega)
  have hrounds := @decodeLoop_rounds x.length (y.length - body.length) y [] y.length (by omega)
    (by omega) (Nat.sub_le _ _) (Nat.sub_le _ _) (Nat.zero_le _)
  rw [← (header_drop hheader).2] at hrounds
  have hbody := hemits []
  rw [List.append_nil, List.nil_append] at hbody
  rw [decode_eq, hheader]
  simp only [hmod, (hrounds.ok x).mpr hbody]
  rw [if_neg (by omega), if_neg (by omega), if_neg (not_not.mpr rfl)]

theorem decode_encode_two_blocks :
    ∃ cap y, maxEncodedLen 100000 = .ok cap ∧ encode (List.replicate 100000 97) = .ok y ∧
      y.length ≤ cap ∧ decode y = .ok (List.replicate 100000 97) := by
  have hlen : (List.replicate 100000 (97 : UInt8)).length = 100000 := List.length_replicate
  have h := decode_encode (List.replicate 100000 97) (by rw [hlen]; decide)
  rw [hlen] at h
  exact h

end ZigSnappy

end Turbokube
