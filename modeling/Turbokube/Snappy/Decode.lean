import Turbokube.Model.ZigSnappy
import Turbokube.Snappy.Format

/-!
# Decoding arbitrary input

The decoder reads elements as the format has them, except where the arithmetic of the target gets in
the way: `Overflows` is a tag that lies too close to the end of the addresses, or the tag of a
literal of 2^32 bytes, whose length does not fit.  `decodeElement_eq` is one round in these terms,
and the outcome of a whole run follows by induction over the rounds.
-/

namespace Turbokube

open Encoding Snappy

namespace ZigSnappy

/-- What is left of an input of `len` bytes starts with an element at which the decoder
overflows. -/
def Overflows (len : Nat) : Bytes → Prop
  | [] => False
  | tag :: rest =>
      2 ^ 32 ≤ len - rest.length + operands tag ∨
        (tag :: rest).take 5 = [0xFC, 0xFF, 0xFF, 0xFF, 0xFF]

instance (len : Nat) (rest : Bytes) : Decidable (Overflows len rest) :=
  match rest with
  | [] => .isFalse id
  | tag :: rest => inferInstanceAs (Decidable (2 ^ 32 ≤ len - rest.length + operands tag ∨
      (tag :: rest).take 5 = [0xFC, 0xFF, 0xFF, 0xFF, 0xFF]))

section Steps

variable {cap s : Nat} {src out : Bytes}

theorem add_eq {a b : Nat} (h : a + b < 2 ^ 32) : add a b = .ok (a + b) := if_pos h

theorem add_fault {a b : Nat} (h : 2 ^ 32 ≤ a + b) : add a b = .error .fault :=
  if_neg (Nat.not_lt.mpr h)

theorem sub_eq {a b : Nat} (h : b ≤ a) : sub a b = .ok (a - b) := if_pos h

theorem operand_eq (k : Nat) {tag : UInt8} {rest : Bytes} (hsrc : src.drop s = tag :: rest) :
    operand src s k =
      if 2 ^ 32 ≤ s + (k + 1) then .error .fault
      else if rest.length < k then .error .corrupt
      else .ok (s + (k + 1), leNat (rest.take k)) := by
  have hlen : src.length - s = rest.length + 1 := by
    rw [← List.length_drop, hsrc, List.length_cons]
  have hrest : rest = src.drop (s + 1) := by
    rw [← List.drop_drop, hsrc, List.drop_succ_cons, List.drop_zero]
  rw [operand]
  by_cases hfar : 2 ^ 32 ≤ s + (k + 1)
  · rw [add_fault hfar, if_pos hfar]
    rfl
  · rw [add_eq (by omega), if_neg hfar]
    simp only [bind, Except.bind]
    by_cases hshort : rest.length < k
    · rw [if_pos (by omega), if_pos hshort]
    · rw [if_neg (by omega), if_neg hshort, sub_eq (by omega)]
      simp only
      rw [slice, if_pos ⟨by omega, by omega⟩]
      simp only
      rw [List.drop_take, hrest, show s + (k + 1) - k = s + 1 by omega,
        show s + (k + 1) - (s + 1) = k by omega]

theorem copyLoop_eq {offset length : Nat} (hcap : cap < 2 ^ 32) (hpos : 0 < offset)
    (hle : offset ≤ out.length) (hroom : out.length + length ≤ cap) :
    copyLoop cap length (out.length - offset) out = .ok (copyFrom offset length out) := by
  induction length generalizing out with
  | zero => rfl
  | succ length ih =>
      obtain ⟨b, hb⟩ : ∃ b, out[out.length - offset]? = some b :=
        ⟨_, List.getElem?_eq_getElem (by omega)⟩
      have hwrite : write cap out [b] = .ok (out ++ [b]) :=
        if_pos (by rw [List.length_singleton]; omega)
      have hadd : add (out.length - offset) 1 = .ok ((out ++ [b]).length - offset) := by
        rw [add_eq (by omega), List.length_append, List.length_singleton]
        congr 1
        omega
      rw [copyLoop, copyFrom, List.getD_eq_getElem?_getD, hb, index, hb]
      simp only [bind, Except.bind, hwrite, hadd, Option.getD_some]
      refine ih ?_ ?_
      · rw [List.length_append]
        omega
      · rw [List.length_append, List.length_singleton]
        omega

theorem decodeCopy_eq {offset length : Nat} (hcap : cap < 2 ^ 32) (hout : out.length ≤ cap) :
    decodeCopy cap out s offset length =
      match (Element.copy offset length).apply cap out with
      | none => .error .corrupt
      | some out' => .ok (s, out') := by
  rw [decodeCopy, Element.apply]
  by_cases hoff : offset = 0 ∨ out.length < offset
  · rw [if_pos hoff, if_neg (by omega)]
  · rw [if_neg hoff, sub_eq hout]
    simp only [bind, Except.bind]
    by_cases hroom : cap - out.length < length
    · rw [if_pos hroom, if_neg (by omega)]
    · have hcopy := @copyLoop_eq cap out offset length hcap (by omega) (by omega) (by omega)
      rw [if_neg hroom, if_pos (by omega), sub_eq (by omega)]
      simp only [hcopy]

theorem decodeLiteral_eq {x : Nat} (hsrc : src.length < 2 ^ 32) (hs : s ≤ src.length)
    (hout : out.length ≤ cap) (hx : x + 1 < 2 ^ 32) :
    decodeLiteral cap src out s x =
      if src.length - s < x + 1 then .error .corrupt
      else
        match (Element.literal ((src.drop s).take (x + 1))).apply cap out with
        | none => .error .corrupt
        | some out' => .ok (s + (x + 1), out') := by
  rw [decodeLiteral, add_eq hx]
  simp only [bind, Except.bind, sub_eq hout, sub_eq hs]
  by_cases hleft : src.length - s < x + 1
  · rw [if_pos (.inr hleft), if_pos hleft]
  · have hlen : ((src.drop s).take (x + 1)).length = x + 1 := by
      rw [List.length_take, List.length_drop]
      omega
    rw [if_neg hleft, Element.apply, hlen]
    by_cases hroom : cap - out.length < x + 1
    · rw [if_pos (.inl hroom), if_neg (by omega)]
    · rw [if_neg (by omega), if_pos (by omega), add_eq (by omega)]
      simp only
      rw [slice, if_pos ⟨by omega, by omega⟩]
      simp only
      rw [List.drop_take, show s + (x + 1) - s = x + 1 by omega, write, hlen, if_pos (by omega)]

/-- The operand of a tag is below 2^32, and below 2^32 - 1 unless the decoder overflows. -/
theorem operand_lt {len : Nat} {tag : UInt8} {rest : Bytes} (hno : ¬ Overflows len (tag :: rest))
    (hlit : tag.toNat % 4 = 0) (hlen : operands tag ≤ rest.length) :
    leNat (rest.take (operands tag)) + 1 < 2 ^ 32 := by
  have hlt := leNat_lt (rest.take (operands tag))
  have hops : operands tag = tag.toNat / 4 - 59 := by
    rw [operands, hlit]
    rfl
  have htag := tag.toNat_lt
  rw [List.length_take, Nat.min_eq_left hlen] at hlt
  by_cases hfour : operands tag = 4
  · by_contra hge
    refine hno (.inr ?_)
    have hmax : leNat (rest.take 4) = leNat [0xFF, 0xFF, 0xFF, 0xFF] := by
      rw [hfour] at hlt hge
      have hall : leNat [0xFF, 0xFF, 0xFF, 0xFF] = 2 ^ 32 - 1 := by decide
      omega
    have htagEq : tag = 0xFC := by
      refine UInt8.toNat_inj.mp ?_
      rw [show (0xFC : UInt8).toNat = 252 from rfl]
      omega
    have hfull : (rest.take 4).length = 4 := by
      rw [List.length_take]
      omega
    have hbytes := leNat_inj hfull hmax
    rw [List.take_succ_cons, hbytes, htagEq]
  · have hle : (256 : Nat) ^ operands tag ≤ 256 ^ 3 :=
      Nat.pow_le_pow_right (by decide) (by omega)
    omega

/-- The position and the output after an element was read. -/
def afterElement (cap len : Nat) (out : Bytes) :
    Option (Element × Bytes) → Except Error (Nat × Bytes)
  | none => .error .corrupt
  | some (e, rest) =>
      match e.apply cap out with
      | none => .error .corrupt
      | some out' => .ok (len - rest.length, out')

section Round

variable {tag : UInt8} {rest : Bytes}

/-- A copy with `k` bytes after its tag. -/
theorem copyRound_eq (k length : Nat) (offset : Nat → Nat) (hcap : cap < 2 ^ 32)
    (hout : out.length ≤ cap) (hsrc : src.drop s = tag :: rest) :
    (do
      let (s, x) ← operand src s k
      decodeCopy cap out s (offset x) length) =
      if 2 ^ 32 ≤ s + (k + 1) then .error .fault
      else afterElement cap src.length out
        (if rest.length < k then none
        else some (.copy (offset (leNat (rest.take k))) length, rest.drop k)) := by
  have hlen : src.length - s = rest.length + 1 := by
    rw [← List.length_drop, hsrc, List.length_cons]
  rw [operand_eq k hsrc]
  by_cases hfar : 2 ^ 32 ≤ s + (k + 1)
  · rw [if_pos hfar, if_pos hfar]
    rfl
  · rw [if_neg hfar, if_neg hfar]
    by_cases hshort : rest.length < k
    · rw [if_pos hshort, if_pos hshort]
      rfl
    · rw [if_neg hshort, if_neg hshort]
      simp only [bind, Except.bind, afterElement]
      rw [decodeCopy_eq hcap hout, List.length_drop,
        show src.length - (rest.length - k) = s + (k + 1) by omega]

/-- A literal of `x + 1` bytes, `k` bytes after its tag. -/
theorem literalRound_eq {k x : Nat} (hlt : src.length < 2 ^ 32) (hout : out.length ≤ cap)
    (hx : x + 1 < 2 ^ 32) (hsrc : src.drop s = tag :: rest) (hk : k ≤ rest.length) :
    decodeLiteral cap src out (s + (k + 1)) x =
      afterElement cap src.length out
        (if (rest.drop k).length < x + 1 then none
        else some (.literal ((rest.drop k).take (x + 1)), (rest.drop k).drop (x + 1))) := by
  have hlen : src.length - s = rest.length + 1 := by
    rw [← List.length_drop, hsrc, List.length_cons]
  have hdrop : src.drop (s + (k + 1)) = rest.drop k := by
    rw [← List.drop_drop, hsrc, List.drop_succ_cons]
  rw [decodeLiteral_eq hlt (by omega) hout hx, hdrop, List.length_drop,
    show src.length - (s + (k + 1)) = rest.length - k by omega]
  by_cases hshort : rest.length - k < x + 1
  · rw [if_pos hshort, if_pos hshort, afterElement]
  · rw [if_neg hshort, if_neg hshort, afterElement, List.length_drop, List.length_drop,
      show src.length - (rest.length - k - (x + 1)) = s + (k + 1) + (x + 1) by omega]

end Round

/-- One round, in terms of the format. -/
theorem decodeElement_eq (hcap : cap < 2 ^ 32) (hsrc : src.length < 2 ^ 32) (hs : s < src.length)
    (hout : out.length ≤ cap) :
    decodeElement cap src s out =
      if Overflows src.length (src.drop s) then .error .fault
      else afterElement cap src.length out (readElement (src.drop s)) := by
  obtain ⟨tag, rest, htag⟩ : ∃ tag rest, src.drop s = tag :: rest :=
    List.exists_cons_of_ne_nil (fun hnil => by
      rw [List.drop_eq_nil_iff] at hnil
      omega)
  have hlen : src.length - s = rest.length + 1 := by
    rw [← List.length_drop, htag, List.length_cons]
  have hindex : index src s = .ok tag := by
    have hget : src[s]? = some tag := by
      rw [← Nat.add_zero s, ← List.getElem?_drop, htag]
      rfl
    rw [index, hget]
  have hover : Overflows src.length (tag :: rest) ↔ 2 ^ 32 ≤ s + (operands tag + 1) ∨
      (tag :: rest).take 5 = [0xFC, 0xFF, 0xFF, 0xFF, 0xFF] := by
    rw [Overflows, show src.length - rest.length + operands tag = s + (operands tag + 1) by omega]
  have hlit : (tag :: rest).take 5 = [0xFC, 0xFF, 0xFF, 0xFF, 0xFF] → tag = 0xFC :=
    fun heq => List.head_eq_of_cons_eq heq
  -- a copy overflows by its position only
  have hcopy : tag.toNat % 4 ≠ 0 →
      (Overflows src.length (tag :: rest) ↔ 2 ^ 32 ≤ s + (operands tag + 1)) := by
    intro hne
    rw [hover, or_iff_left (fun heq => hne (by rw [hlit heq]; rfl))]
  rw [decodeElement, hindex, htag, readElement, readTagged]
  simp only [bind, Except.bind]
  obtain h0 | h1 | h2 | h3 : tag.toNat % 4 = 0 ∨ tag.toNat % 4 = 1 ∨ tag.toNat % 4 = 2 ∨
      tag.toNat % 4 = 3 := by omega
  · have hops : operands tag = tag.toNat / 4 - 59 := by
      rw [operands, h0]
      rfl
    by_cases hx : tag.toNat / 4 < 60
    · have hzero : operands tag = 0 := by omega
      have hno : ¬ Overflows src.length (tag :: rest) := by
        rw [hover, hzero]
        rintro (hfar | heq)
        · omega
        · rw [hlit heq] at hx
          exact absurd hx (by decide)
      have hround := @literalRound_eq cap s src out tag rest 0 (tag.toNat / 4) hsrc hout (by omega)
        htag (Nat.zero_le _)
      simp only [h0, if_pos hx, add_eq (show s + 1 < 2 ^ 32 by omega), if_neg hno, hzero,
        literalLength, if_neg (Nat.not_lt_zero _)]
      exact hround
    · simp only [h0, if_neg hx, ← hops, operand_eq _ htag]
      by_cases hfar : 2 ^ 32 ≤ s + (operands tag + 1)
      · rw [if_pos hfar, if_pos (hover.mpr (.inl hfar))]
      · rw [if_neg hfar]
        by_cases hshort : rest.length < operands tag
        · have hno : ¬ Overflows src.length (tag :: rest) := by
            rw [hover]
            rintro (hfar' | heq)
            · exact hfar hfar'
            · have hfive := congrArg List.length heq
              have hmax := tag.toNat_lt
              rw [List.length_take, List.length_cons] at hfive
              simp only [List.length_cons, List.length_nil] at hfive
              omega
          rw [if_pos hshort, if_neg hno, if_pos hshort]
          rfl
        · rw [if_neg hshort, if_neg hshort]
          simp only
          by_cases hno : Overflows src.length (tag :: rest)
          · -- the length of the literal overflows
            have heq := (hover.mp hno).resolve_left hfar
            rw [List.take_succ_cons] at heq
            obtain ⟨rfl, hbytes⟩ := List.cons.inj heq
            rw [if_pos hno, show operands 0xFC = 4 from rfl, hbytes, decodeLiteral,
              add_fault (by decide)]
            rfl
          · have hround := @literalRound_eq cap s src out tag rest _
              (leNat (rest.take (operands tag))) hsrc hout
              (operand_lt hno h0 (Nat.not_lt.mp hshort)) htag (Nat.not_lt.mp hshort)
            simp only [if_neg hno, literalLength, if_neg hx]
            exact hround
  · have hops : operands tag = 1 := by
      rw [operands, h1]
      rfl
    have hround := copyRound_eq 1 (4 + tag.toNat / 4 % 8) (fun x => tag.toNat / 32 * 256 + x)
      hcap hout htag
    simp only [hcopy (by omega), hops, h1]
    exact hround
  · have hops : operands tag = 2 := by
      rw [operands, h2]
      rfl
    have hround := copyRound_eq 2 (1 + tag.toNat / 4) (fun x => x) hcap hout htag
    simp only [hcopy (by omega), hops, h2]
    exact hround
  · have hops : operands tag = 4 := by
      rw [operands, h3]
      rfl
    have hround := copyRound_eq 4 (1 + tag.toNat / 4) (fun x => x) hcap hout htag
    simp only [hcopy (by omega), hops, h3]
    exact hround

/-- Where the decoder overflows, the format has no element that fits the input either. -/
theorem readElement_of_overflows {rest : Bytes} (hsrc : src.length < 2 ^ 32)
    (hrest : rest.length ≤ src.length) (h : Overflows src.length rest) :
    readElement rest = none := by
  cases rest with
  | nil => exact h.elim
  | cons tag rest =>
      rw [List.length_cons] at hrest
      rw [readElement, readTagged]
      rcases h with hfar | heq
      · rw [if_pos (by omega)]
      · rw [List.take_succ_cons] at heq
        obtain ⟨rfl, hbytes⟩ := List.cons.inj heq
        have hlit : literalLength 0xFC (leNat (rest.take (operands 0xFC))) = 2 ^ 32 := by
          rw [show operands 0xFC = 4 from rfl, hbytes]
          decide
        by_cases hshort : rest.length < operands 0xFC
        · rw [if_pos hshort]
        · rw [if_neg hshort]
          simp only [hlit]
          have hdrop : (rest.drop (operands 0xFC)).length ≤ rest.length := by
            rw [List.length_drop]
            omega
          exact if_pos (by omega)

/-- What the rounds of the decoder do, for every outcome. -/
structure Rounds (cap len : Nat) (p : Bytes × Bytes) (r : Except Error Bytes) : Prop where
  fault : r = .error .fault ↔ ∃ q, Decodes cap p q ∧ Overflows len q.1
  ok : ∀ out, r = .ok out ↔ Decodes cap p ([], out)
  notLarge : r ≠ .error .tooLarge

theorem Rounds.of_none {p : Bytes × Bytes} (hno : ∀ q, ¬ Step cap p q) (hne : p.1 ≠ []) :
    (Overflows src.length p.1 → Rounds cap src.length p (.error .fault)) ∧
      (¬ Overflows src.length p.1 → Rounds cap src.length p (.error .corrupt)) := by
  have hstuck : ∀ q, Decodes cap p q → q = p := by
    intro q hq
    rcases Relation.ReflTransGen.cases_head hq with heq | ⟨q', hstep, -⟩
    · exact heq.symm
    · exact absurd hstep (hno q')
  have hok : ∀ out, ¬ Decodes cap p ([], out) := by
    intro out hq
    exact hne (congrArg Prod.fst (hstuck _ hq)).symm
  constructor
  · intro hover
    exact ⟨iff_of_true rfl ⟨p, .refl, hover⟩, fun out => iff_of_false nofun (hok out), nofun⟩
  · intro hover
    refine ⟨iff_of_false nofun ?_, fun out => iff_of_false nofun (hok out), nofun⟩
    rintro ⟨q, hq, hc⟩
    rw [hstuck q hq] at hc
    exact hover hc

theorem Rounds.of_step {len : Nat} {p p' : Bytes × Bytes} {r : Except Error Bytes}
    (hstep : Step cap p p') (hover : ¬ Overflows len p.1) (h : Rounds cap len p' r) :
    Rounds cap len p r := by
  have hread : p.1 ≠ [] := by
    rintro hnil
    obtain ⟨e, hread, -⟩ := hstep
    rw [hnil] at hread
    cases hread
  -- a run from `p` goes through `p'`, since a step has one outcome
  have hgo : ∀ q, q ≠ p → (Decodes cap p q ↔ Decodes cap p' q) := by
    intro q hq
    constructor
    · intro hdec
      rcases Relation.ReflTransGen.cases_head hdec with heq | ⟨q', hstep', hdec⟩
      · exact absurd heq.symm hq
      · rw [hstep.unique hstep']
        exact hdec
    · exact fun hdec => .head hstep hdec
  constructor
  · rw [h.fault]
    constructor
    · rintro ⟨q, hdec, hc⟩
      exact ⟨q, .head hstep hdec, hc⟩
    · rintro ⟨q, hdec, hc⟩
      refine ⟨q, (hgo q ?_).mp hdec, hc⟩
      rintro rfl
      exact hover hc
  · intro out
    rw [h.ok out, hgo _ (fun heq => hread (congrArg Prod.fst heq).symm)]
  · exact h.notLarge

theorem Rounds.of_end (len : Nat) : Rounds cap len ([], out) (.ok out) := by
  have hstuck : ∀ q, Decodes cap ([], out) q → q = ([], out) := by
    intro q hq
    rcases Relation.ReflTransGen.cases_head hq with heq | ⟨q', ⟨e, hread, -⟩, -⟩
    · exact heq.symm
    · cases hread
  refine ⟨iff_of_false nofun ?_, fun out' => ?_, nofun⟩
  · rintro ⟨q, hq, hc⟩
    rw [hstuck q hq] at hc
    exact hc
  · constructor
    · intro heq
      obtain rfl := Except.ok.inj heq
      exact .refl
    · intro hq
      rw [(Prod.mk.inj (hstuck _ hq)).2]

theorem decodeLoop_rounds {fuel : Nat} (hcap : cap < 2 ^ 32) (hsrc : src.length < 2 ^ 32)
    (hs : s ≤ src.length) (hfuel : src.length - s ≤ fuel) (hout : out.length ≤ cap) :
    Rounds cap src.length (src.drop s, out) (decodeLoop cap src fuel s out) := by
  induction fuel generalizing s out with
  | zero =>
      rw [decodeLoop, if_neg (by omega), List.drop_eq_nil_iff.mpr (show src.length ≤ s by omega)]
      exact .of_end _
  | succ fuel ih =>
      rw [decodeLoop]
      by_cases hlt : s < src.length
      · have hne : src.drop s ≠ [] := by
          intro hnil
          rw [List.drop_eq_nil_iff] at hnil
          omega
        rw [if_pos hlt, decodeElement_eq hcap hsrc hlt hout]
        by_cases hover : Overflows src.length (src.drop s)
        · have hnone := readElement_of_overflows hsrc (by rw [List.length_drop]; omega) hover
          rw [if_pos hover]
          refine (Rounds.of_none (fun q hq => ?_) hne).1 hover
          obtain ⟨e, hread, -⟩ := hq
          rw [show readElement (src.drop s) = none from hnone] at hread
          cases hread
        · rw [if_neg hover]
          cases hread : readElement (src.drop s) with
          | none =>
              refine (Rounds.of_none (fun q hq => ?_) hne).2 hover
              obtain ⟨e, hread', -⟩ := hq
              rw [show readElement (src.drop s) = none from hread] at hread'
              cases hread'
          | some x =>
              obtain ⟨e, rest⟩ := x
              cases happly : e.apply cap out with
              | none =>
                  simp only [afterElement, happly]
                  refine (Rounds.of_none (fun q hq => ?_) hne).2 hover
                  obtain ⟨e', hread', happly'⟩ := hq
                  obtain ⟨rfl, -⟩ := Prod.mk.inj (Option.some.inj (hread.symm.trans hread'))
                  rw [show e.apply cap out = none from happly] at happly'
                  cases happly'
              | some out' =>
                  obtain ⟨n, hn, hle, hrest⟩ := readElement_drop hread
                  rw [List.length_drop] at hle
                  rw [List.drop_drop] at hrest
                  have hpos : src.length - rest.length = s + n := by
                    rw [hrest, List.length_drop]
                    omega
                  have hstep : Step cap (src.drop s, out) (src.drop (s + n), out') :=
                    ⟨e, by rw [← hrest]; exact hread, happly⟩
                  have hout' := Element.apply_length_le happly
                  simp only [afterElement, happly, hpos, bind, Except.bind]
                  refine .of_step hstep hover ?_
                  exact ih (by omega) (by omega) hout'
      · rw [if_neg hlt, List.drop_eq_nil_iff.mpr (show src.length ≤ s by omega)]
        exact .of_end _

theorem header_drop {rest : Bytes} {n : Nat} (h : header src = some (n, rest)) :
    rest.length < src.length ∧ rest = src.drop (src.length - rest.length) := by
  induction src generalizing n with
  | nil => cases h
  | cons b src ih =>
      rw [header] at h
      rw [List.length_cons]
      split at h
      · obtain ⟨-, rfl⟩ := Prod.mk.inj (Option.some.inj h)
        refine ⟨Nat.lt_succ_self _, ?_⟩
        rw [show src.length + 1 - src.length = 1 by omega, List.drop_succ_cons, List.drop_zero]
      · cases hrest : header src with
        | none =>
            rw [hrest] at h
            cases h
        | some x =>
            rw [hrest] at h
            obtain ⟨-, rfl⟩ := Prod.mk.inj (Option.some.inj h)
            obtain ⟨hlt, hdrop⟩ := ih hrest
            refine ⟨by omega, ?_⟩
            rw [show src.length + 1 - x.2.length = src.length - x.2.length + 1 by omega,
              List.drop_succ_cons]
            exact hdrop

/-- The bits of a byte above those already read. -/
theorem lor_shiftLeft {v shift x : Nat} (hv : v < 2 ^ shift) (hshift : shift ≤ 64) :
    v ||| (x <<< shift) % 2 ^ 64 = (v + 2 ^ shift * x) % 2 ^ 64 := by
  have hpow : (2 : Nat) ^ 64 = 2 ^ shift * 2 ^ (64 - shift) := by
    rw [← Nat.pow_add]
    congr 1
    omega
  have hsmall : v + 2 ^ shift * (x % 2 ^ (64 - shift)) < 2 ^ 64 := by
    have hx : x % 2 ^ (64 - shift) + 1 ≤ 2 ^ (64 - shift) := Nat.mod_lt _ (Nat.pow_pos (by decide))
    have hmul := Nat.mul_le_mul_left (2 ^ shift) hx
    rw [← hpow, Nat.mul_add] at hmul
    omega
  have hmod : 2 ^ shift * x % 2 ^ 64 = 2 ^ shift * (x % 2 ^ (64 - shift)) := by
    rw [hpow, Nat.mul_mod_mul_left]
  calc v ||| (x <<< shift) % 2 ^ 64
      = 2 ^ shift * (x % 2 ^ (64 - shift)) ||| v := by
        rw [Nat.shiftLeft_eq, Nat.mul_comm x, hmod, Nat.or_comm]
    _ = v + 2 ^ shift * (x % 2 ^ (64 - shift)) := by
        rw [← Nat.two_pow_add_eq_or_of_lt hv, Nat.add_comm]
    _ = (v + 2 ^ shift * x) % 2 ^ 64 := by
        rw [← Nat.mod_eq_of_lt hsmall, ← hmod, Nat.add_mod_mod]

/-- The loop over the header, after `i` of its bytes. -/
theorem decodedLenLoop_eq {i v : Nat} (hi : i ≤ 9) (hv : v < 2 ^ (7 * i)) :
    decodedLenLoop src v (7 * i) i =
      match header src with
      | none => .error .corrupt
      | some (n, rest) =>
          if 10 < i + (src.length - rest.length) then .error .corrupt
          else if 2 ^ 32 ≤ (v + 2 ^ (7 * i) * n) % 2 ^ 64 then .error .tooLarge
          else .ok ((v + 2 ^ (7 * i) * n) % 2 ^ 64, i + (src.length - rest.length)) := by
  induction src generalizing i v with
  | nil => rfl
  | cons b src ih =>
      have hb := b.toNat_lt
      rw [decodedLenLoop, header, add_eq (by omega), lor_shiftLeft hv (by omega)]
      simp only [bind, Except.bind]
      by_cases hlast : b.toNat < 128
      · rw [if_pos hlast, if_pos hlast, Nat.mod_eq_of_lt hlast]
        simp only [List.length_cons, show src.length + 1 - src.length = 1 by omega]
        rw [if_neg (by omega : ¬ 10 < i + 1)]
      · rw [if_neg hlast, if_neg hlast]
        have hmod : b.toNat % 128 = b.toNat - 128 := by omega
        by_cases hten : 56 < 7 * i
        · rw [if_pos hten]
          cases hrest : header src with
          | none => rfl
          | some x =>
              have hlt := (header_drop hrest).1
              simp only [List.length_cons]
              rw [if_pos (by omega)]
        · have hpow : (2 : Nat) ^ (7 * (i + 1)) = 2 ^ (7 * i) * 128 := by
            rw [Nat.mul_succ, Nat.pow_add]
          have hle : (2 : Nat) ^ (7 * (i + 1)) ≤ 2 ^ 63 :=
            Nat.pow_le_pow_right (by decide) (by omega)
          have hmul : 2 ^ (7 * i) * (b.toNat - 128 + 1) ≤ 2 ^ (7 * i) * 128 :=
            Nat.mul_le_mul_left _ (by omega)
          rw [Nat.mul_add] at hmul
          have hsmall : v + 2 ^ (7 * i) * (b.toNat - 128) < 2 ^ (7 * (i + 1)) := by omega
          rw [if_neg hten, hmod, Nat.mod_eq_of_lt (by omega), ← Nat.mul_succ,
            ih (by omega) hsmall]
          cases hrest : header src with
          | none => rfl
          | some x =>
              have hlt := (header_drop hrest).1
              have hnum : v + 2 ^ (7 * i) * (b.toNat - 128) + 2 ^ (7 * (i + 1)) * x.1 =
                  v + 2 ^ (7 * i) * (b.toNat - 128 + 128 * x.1) := by
                rw [hpow]
                ring
              simp only [List.length_cons, hnum]
              rw [show i + 1 + (src.length - x.2.length) = i + (src.length + 1 - x.2.length) by
                omega]

end Steps

/-- No run of elements of the block gets to one at which the decoder overflows, and a length that
does not fit 64 bits is not, by what is left of it, the length of the data. -/
def Sound (src : Bytes) : Prop :=
  ∀ n rest, header src = some (n, rest) → src.length - rest.length ≤ 10 → n % 2 ^ 64 < 2 ^ 32 →
    (∀ q, Decodes (n % 2 ^ 64) (rest, []) q → ¬ Overflows src.length q.1) ∧
    (2 ^ 64 ≤ n → ∀ out, Decodes (n % 2 ^ 64) (rest, []) ([], out) → out.length ≠ n % 2 ^ 64)

theorem decode_eq (src : Bytes) :
    decode src =
      match header src with
      | none => .error .corrupt
      | some (n, rest) =>
          if 10 < src.length - rest.length then .error .corrupt
          else if 2 ^ 32 ≤ n % 2 ^ 64 then .error .tooLarge
          else
            match decodeLoop (n % 2 ^ 64) src src.length (src.length - rest.length) [] with
            | .error e => .error e
            | .ok out => if out.length ≠ n % 2 ^ 64 then .error .corrupt else .ok out := by
  have hlen := @decodedLenLoop_eq src 0 0 (by omega) (by decide)
  rw [decode, decodedLen]
  simp only [Nat.mul_zero, Nat.pow_zero, Nat.one_mul, Nat.zero_add] at hlen
  rw [hlen]
  cases hheader : header src with
  | none => rfl
  | some x =>
      simp only
      by_cases hten : 10 < src.length - x.2.length
      · rw [if_pos hten, if_pos hten]
        rfl
      · rw [if_neg hten, if_neg hten]
        by_cases hbig : 2 ^ 32 ≤ x.1 % 2 ^ 64
        · rw [if_pos hbig, if_pos hbig]
          rfl
        · rw [if_neg hbig, if_neg hbig]
          simp only [bind, Except.bind]
          cases decodeLoop (x.1 % 2 ^ 64) src src.length (src.length - x.2.length) [] <;> rfl

/-- For every input an address can range over, the decoder fails with one of its own errors or
returns as many bytes as the header announces, exactly if the input is sound. -/
theorem decode_total_iff (src : Bytes) (hsrc : src.length < 2 ^ 32) :
    (decode src ≠ .error .fault ∧
      ∀ out, decode src = .ok out → ∃ n rest, header src = some (n, rest) ∧ out.length = n) ↔
      Sound src := by
  rw [decode_eq, Sound]
  cases hheader : header src with
  | none => exact iff_of_true ⟨nofun, nofun⟩ nofun
  | some x =>
      obtain ⟨n, rest⟩ := x
      simp only [Option.some.injEq, Prod.mk.injEq]
      by_cases hten : 10 < src.length - rest.length
      · rw [if_pos hten]
        refine iff_of_true ⟨nofun, nofun⟩ ?_
        rintro _ _ ⟨rfl, rfl⟩ hle
        omega
      · rw [if_neg hten]
        by_cases hbig : 2 ^ 32 ≤ n % 2 ^ 64
        · rw [if_pos hbig]
          refine iff_of_true ⟨nofun, nofun⟩ ?_
          rintro _ _ ⟨rfl, rfl⟩ - hsmall
          omega
        · have hrounds := @decodeLoop_rounds (n % 2 ^ 64) (src.length - rest.length) src []
            src.length (by omega) hsrc (Nat.sub_le _ _) (Nat.sub_le _ _) (Nat.zero_le _)
          rw [← (header_drop hheader).2] at hrounds
          rw [if_neg hbig]
          constructor
          · rintro ⟨hfault, hok⟩ _ _ ⟨rfl, rfl⟩ - -
            refine ⟨fun q hq hover => hfault ?_, fun hhuge out hdec hlen => ?_⟩
            · rw [hrounds.fault.mpr ⟨q, hq, hover⟩]
            · obtain ⟨_, _, ⟨rfl, -⟩, heq⟩ := hok out (by
                rw [(hrounds.ok out).mpr hdec]
                exact if_neg (not_not.mpr hlen))
              omega
          · intro h
            obtain ⟨hsafe, hlong⟩ := h n rest ⟨rfl, rfl⟩ (by omega) (by omega)
            cases hloop : decodeLoop (n % 2 ^ 64) src src.length (src.length - rest.length) [] with
            | error e =>
                refine ⟨fun hfault => ?_, nofun⟩
                obtain ⟨q, hq, hover⟩ := hrounds.fault.mp (hloop.trans (by
                  rw [Except.error.inj hfault]))
                exact hsafe q hq hover
            | ok out =>
                have hdec := (hrounds.ok out).mp hloop
                simp only
                by_cases hlen : out.length ≠ n % 2 ^ 64
                · rw [if_pos hlen]
                  exact ⟨nofun, nofun⟩
                · rw [if_neg hlen]
                  refine ⟨nofun, fun out' heq => ⟨n, rest, ⟨rfl, rfl⟩, ?_⟩⟩
                  rw [← Except.ok.inj heq]
                  have hnot : ¬ 2 ^ 64 ≤ n := fun hhuge => hlen (hlong hhuge out hdec)
                  omega

/-- The block of the one byte `a` is sound. -/
theorem decode_total_on_literal :
    decode [1, 0, 97] = .ok [97] ∧ Sound [1, 0, 97] := by
  have hiff := decode_total_iff [1, 0, 97] (by decide)
  have hdecode : decode [1, 0, 97] = .ok [97] := by decide
  refine ⟨hdecode, hiff.mp ⟨?_, fun out hout => ⟨1, [0, 97], rfl, ?_⟩⟩⟩
  · rw [hdecode]
    nofun
  · rw [hdecode] at hout
    rw [← Except.ok.inj hout]
    rfl

/-- The length of a literal overflows, and a length of 2^64 is read as 0. -/
theorem decode_faults_and_misreads :
    decode [0, 0xFC, 0xFF, 0xFF, 0xFF, 0xFF] = .error .fault ∧
      decode [128, 128, 128, 128, 128, 128, 128, 128, 128, 2] = .ok [] ∧
      header [128, 128, 128, 128, 128, 128, 128, 128, 128, 2] = some (2 ^ 64, []) := by
  decide

end ZigSnappy

end Turbokube
