import Turbokube.Lcs.Diffs
import Turbokube.Model.Types
import Turbokube.Patch.Apply

/-!
# Patches restore the original

A patch has the edits of a search as numbers, and `Apply` goes through them in the same order: when
it has applied some edits, it has written the target up to the end of the last of them.

The two ports make the same patch of two strings.  `codec` is the package as the store uses it.
-/

namespace Turbokube

open Encoding

namespace Patch

open Lcs (Diff Spans text)

variable {a b : Bytes} {i j : Int} {ds : List Diff}

/-- The bytes of an edit. -/
def diffBytes (b : Bytes) (d : Diff) : Bytes :=
  putUvarint (UInt64.ofInt d.start) ++ (putUvarint (UInt64.ofInt d.stop) ++
    (putUvarint (UInt64.ofInt (d.replEnd - d.replStart)) ++ text b d.replStart d.replEnd))

theorem appendDiffs_eq (h : Spans a b i j ds) (hj : 0 ≤ j) (patch : Bytes) :
    appendDiffs b ds patch = .ok (patch ++ ds.flatMap (diffBytes b)) := by
  induction ds generalizing i j patch with
  | nil => rw [appendDiffs, List.flatMap_nil, List.append_nil]
  | cons d ds ih =>
      obtain ⟨⟨-, hrepl⟩, -, hds⟩ := h
      have hslice : Lcs.slice b d.replStart d.replEnd = .ok (text b d.replStart d.replEnd) :=
        Lcs.slice_eq (hj.trans hrepl.1) hrepl.2.1 hrepl.2.2
      rw [appendDiffs, hslice, Lcs.ok_bind, ih hds (by omega), List.flatMap_cons]
      simp only [appendUvarint, diffBytes, List.append_assoc]

/-- The header and the edits. -/
theorem generate_spec (a b : Bytes) :
    ∃ ds, Spans a b 0 0 ds ∧ ds.length ≤ Lcs.maxOutDiffs ∧
      ∀ {p vf vb}, vf.Shaped p → vb.Shaped p →
        generate p vf vb a b [] = .ok (putUvarint (UInt64.ofInt b.length) ++
          (putUvarint (UInt64.ofInt ds.length) ++ ds.flatMap (diffBytes b))) := by
  obtain ⟨ds, hspans, hlen, hdiff⟩ := Lcs.diff_spec a b
  refine ⟨ds, hspans, hlen, fun {p vf vb} hvf hvb => ?_⟩
  obtain ⟨vf', vb', heq, -, -⟩ := hdiff hvf hvb
  rw [generate, heq, Lcs.ok_bind]
  dsimp only
  rw [appendDiffs_eq hspans le_rfl]
  simp only [appendUvarint, List.nil_append, List.append_assoc]

/-- Both ports make the same patch, whatever tables the search is given. -/
theorem generate_eq_go {p : Lcs.Port} {vf vb : Lcs.Label} (hvf : vf.Shaped p) (hvb : vb.Shaped p) :
    generate p vf vb a b [] = generate .go (.new .go) (.new .go) a b [] := by
  obtain ⟨ds, -, -, hgen⟩ := generate_spec a b
  rw [hgen hvf hvb, hgen (Lcs.Label.shaped_new .go) (Lcs.Label.shaped_new .go)]

/-- What has been written up to `j`, and then the text up to `k`. -/
theorem take_append_text {k : Int} (hj : 0 ≤ j) (hjk : j ≤ k) (hk : k ≤ b.length) :
    b.take j.toNat ++ text b j k = b.take k.toNat := by
  rw [← Lcs.text_from_start, ← Lcs.text_from_start, Lcs.text_append le_rfl hj hjk hk]

theorem spans_nil (h : Spans a b i j []) :
    b.take j.toNat ++ a.drop i.toNat = b := by
  have hsame : text a i a.length = text b j b.length := h
  rw [Lcs.text_to_end, Lcs.text_to_end] at hsame
  rw [hsame, List.take_append_drop]

theorem toNat_ofInt {x : Int} (h : 0 ≤ x) (hlt : x < 2 ^ 64) :
    (UInt64.ofInt x).toNat = x.toNat := by
  rw [UInt64.ofInt, UInt64.toNat_ofNat']
  omega

section Go

theorem toInt_ofInt {x : Int} (h : 0 ≤ x) (hlt : x < 2 ^ 63) :
    (UInt64.ofInt x).toInt64.toInt = x := by
  have hn := toNat_ofInt h (by omega)
  rw [Int64.toInt, UInt64.toBitVec_toInt64, BitVec.toInt_eq_toNat_of_lt, UInt64.toNat_toBitVec, hn]
  · omega
  · rw [UInt64.toNat_toBitVec, hn]
    omega

theorem readInt_putUvarint {x : Int} (h : 0 ≤ x) (hlt : x < 2 ^ 63) (rest : Bytes) :
    readInt (putUvarint (UInt64.ofInt x) ++ rest) = .ok (x, rest) := by
  simp only [readInt, readUvarint_putUvarint, toInt_ofInt h hlt]

theorem readEdit_diffBytes {d : Diff} (hd : 0 ≤ d.start ∧ d.start ≤ d.stop ∧ d.stop < 2 ^ 63)
    (hr : 0 ≤ d.replStart ∧ d.replStart ≤ d.replEnd ∧ d.replEnd < 2 ^ 63) (rest : Bytes) :
    readEdit (diffBytes b d ++ rest) =
      some (⟨d.start, d.stop, d.replEnd - d.replStart⟩, text b d.replStart d.replEnd ++ rest) := by
  simp only [readEdit, diffBytes, List.append_assoc]
  rw [readInt_putUvarint hd.1 (by omega)]
  simp only
  rw [readInt_putUvarint (by omega) (by omega)]
  simp only
  rw [readInt_putUvarint (by omega) (by omega)]

theorem next_text {k : Int} (hj : 0 ≤ j) (hjk : j ≤ k) (hk : k ≤ b.length) (rest : Bytes) :
    next (text b j k ++ rest) (k - j) = some (text b j k, rest) := by
  have hlen : (k - j).toNat = (text b j k).length := (Lcs.length_text hj hjk hk).symm
  rw [next, if_neg (by omega), hlen, List.take_left, List.drop_left]

theorem applyLoop_spec (ha : a.length < 2 ^ 63) (hb : b.length < 2 ^ 63) (hi : 0 ≤ i) (hj : 0 ≤ j)
    (hia : i ≤ a.length) (h : Spans a b i j ds) :
    ∃ prev out, applyLoop a ds.length (ds.flatMap (diffBytes b)) i (b.take j.toNat) =
        .ok (prev, out) ∧ (0 ≤ prev ∧ prev ≤ a.length) ∧ out ++ a.drop prev.toNat = b := by
  induction ds generalizing i j with
  | nil => exact ⟨i, _, rfl, ⟨hi, hia⟩, spans_nil h⟩
  | cons d ds ih =>
      obtain ⟨⟨hedit, hrepl⟩, hsame, hds⟩ := h
      obtain ⟨prev, out, hloop, hprev⟩ := ih (by omega) (by omega) hedit.2.2 hds
      refine ⟨prev, out, ?_, hprev⟩
      rw [List.length_cons, applyLoop_succ, List.flatMap_cons,
        readEdit_diffBytes (by omega) (by omega)]
      simp only
      rw [if_pos (by omega), slice_eq_some hi hedit.1 (by omega)]
      simp only
      rw [next_text (by omega) hrepl.2.1 hrepl.2.2]
      simp only
      have hkept : (a.take d.start.toNat).drop i.toNat = text b j d.replStart := hsame
      rw [hkept, take_append_text hj hrepl.1 (by omega), take_append_text (by omega) hrepl.2.1
        hrepl.2.2]
      exact hloop

theorem apply_of_generate (ha : a.length < 2 ^ 63) (hb : b.length < 2 ^ 63) {vf vb : Lcs.Label}
    (hvf : vf.Shaped .go) (hvb : vb.Shaped .go) :
    ∃ rest, generate .go vf vb a b [] = .ok (putUvarint (UInt64.ofInt b.length) ++ rest) ∧
      apply a (putUvarint (UInt64.ofInt b.length) ++ rest) [] = .ok b := by
  obtain ⟨ds, hspans, hlen, hgen⟩ := generate_spec a b
  refine ⟨_, hgen hvf hvb, ?_⟩
  unfold Lcs.maxOutDiffs Lcs.lcsCap at hlen
  obtain ⟨prev, out, hloop, hprev, hout⟩ :=
    applyLoop_spec ha hb le_rfl le_rfl (Int.natCast_nonneg _) hspans
  rw [Int.toNat_zero, List.take_zero] at hloop
  have hkept : slice a prev a.length = some (a.drop prev.toNat) := by
    rw [slice_eq_some hprev.1 hprev.2 le_rfl, Int.toNat_natCast, List.take_length]
  simp only [apply, readInt_putUvarint (Int.natCast_nonneg b.length) (by omega),
    readInt_putUvarint (Int.natCast_nonneg ds.length) (by omega), Int.toNat_natCast, hloop, hkept,
    hout, ne_eq, not_true_eq_false, if_false]

/-- The diagonals of the search are an alignment of the strings, and the patch made of them turns
the first string into the second. -/
theorem apply_generate (a b : Bytes) (vf vb : Lcs.Label) (ha : a.length < 2 ^ 63)
    (hb : b.length < 2 ^ 63) (hvf : vf.Shaped .go) (hvb : vb.Shaped .go) :
    (∃ e lcs, Lcs.EditGraph.twosided .go
        (Lcs.graph a b (Lcs.maxDiffs / 2) a.length b.length vf vb) = .ok (e, lcs) ∧
      Lcs.Aligns (Lcs.Cell a b a.length b.length) 0 0 lcs a.length b.length) ∧
      ∃ patch, generate .go vf vb a b [] = .ok patch ∧ apply a patch [] = .ok b := by
  constructor
  · obtain ⟨lcs, haligns, -, hreturns⟩ := Lcs.twosided_spec a b (L := Lcs.maxDiffs / 2) (by decide)
    obtain ⟨vf', vb', heq, -, -⟩ := hreturns hvf hvb
    exact ⟨_, lcs, heq, haligns⟩
  · obtain ⟨rest, hgen, happly⟩ := apply_of_generate ha hb hvf hvb
    exact ⟨_, hgen, happly⟩

/-- Two strings that are further apart than the search goes. -/
theorem apply_generate_apart :
    (∃ e lcs, Lcs.EditGraph.twosided .go
        (Lcs.graph ([1, 1, 1, 1, 1, 7] : Bytes) [7, 2, 2, 2, 2, 2] (Lcs.maxDiffs / 2) 6 6
          (.new .go) (.new .go)) = .ok (e, lcs) ∧
      Lcs.Aligns (Lcs.Cell ([1, 1, 1, 1, 1, 7] : Bytes) [7, 2, 2, 2, 2, 2] 6 6) 0 0 lcs 6 6) ∧
      ∃ patch,
        generate .go (.new .go) (.new .go) [1, 1, 1, 1, 1, 7] [7, 2, 2, 2, 2, 2] [] = .ok patch ∧
        apply [1, 1, 1, 1, 1, 7] patch [] = .ok [7, 2, 2, 2, 2, 2] :=
  apply_generate [1, 1, 1, 1, 1, 7] [7, 2, 2, 2, 2, 2] _ _ (by decide) (by decide)
    (Lcs.Label.shaped_new .go) (Lcs.Label.shaped_new .go)

end Go

section Codec

/-- A size that is negative as an `int`, so that no patch begins with it. -/
def oversized : Bytes := putUvarint (.ofNat (2 ^ 63))

theorem oversized_not_prefix (hb : b.length < 2 ^ 63) (rest : Bytes) :
    ¬ oversized <+: putUvarint (UInt64.ofInt b.length) ++ rest := by
  rintro ⟨t, ht⟩
  have hsize := congrArg UInt64.toNat (putUvarint_append_inj ht).1
  rw [toNat_ofInt (Int.natCast_nonneg _) (by omega), Int.toNat_natCast, UInt64.toNat_ofNat']
    at hsize
  omega

/-- The patches of the package in the codec `c`.  Go has no slice of 2^63 bytes.  A list that long
stands in the patch as it is, so that the laws hold for it too. -/
def codec (c : Codec) : Codec where
  generate next val :=
    if next.length < 2 ^ 63 ∧ val.length < 2 ^ 63 then
      (generate .go (.new .go) (.new .go) next val []).toOption.getD []
    else oversized ++ val
  apply next patch :=
    if next.length < 2 ^ 63 ∧ ¬ oversized <+: patch then (apply next patch []).toOption
    else some (patch.drop oversized.length)
  encode := c.encode
  decode := c.decode
  apply_generate next val := by
    by_cases h : next.length < 2 ^ 63 ∧ val.length < 2 ^ 63
    · obtain ⟨rest, hgen, happly⟩ := apply_of_generate h.1 h.2 (Lcs.Label.shaped_new .go)
        (Lcs.Label.shaped_new .go)
      rw [if_pos h, hgen]
      show (if next.length < 2 ^ 63 ∧ ¬ oversized <+: putUvarint (UInt64.ofInt val.length) ++ rest
        then (apply next (putUvarint (UInt64.ofInt val.length) ++ rest) []).toOption else _) = _
      rw [if_pos ⟨h.1, oversized_not_prefix h.2 rest⟩, happly]
      rfl
    · rw [if_neg h, if_neg (fun hsized => hsized.2 (List.prefix_append _ _)), List.drop_left]
  generate_ne_nil next val := by
    by_cases h : next.length < 2 ^ 63 ∧ val.length < 2 ^ 63
    · obtain ⟨rest, hgen, -⟩ := apply_of_generate h.1 h.2 (Lcs.Label.shaped_new .go)
        (Lcs.Label.shaped_new .go)
      rw [if_pos h, hgen]
      exact List.append_ne_nil_of_left_ne_nil (putUvarint_ne_nil _) _
    · rw [if_neg h]
      exact List.append_ne_nil_of_left_ne_nil (putUvarint_ne_nil _) _
  decode_encode := c.decode_encode
  encode_ne_nil := c.encode_ne_nil

end Codec

section Zig

theorem zigReadUvarint_putUvarint {x : Int} (h : 0 ≤ x) (hlt : x < 2 ^ 32) (rest : Bytes) :
    Zig.readUvarint (putUvarint (UInt64.ofInt x) ++ rest) = .ok (x.toNat, rest) := by
  have hn := toNat_ofInt h (by omega)
  simp only [Zig.readUvarint, uvarint_putUvarint, hn]
  rw [if_pos (by omega)]

theorem zigApplyLoop_spec (ha : a.length < 2 ^ 24) (hb : b.length < 2 ^ 24) (hi : 0 ≤ i)
    (hj : 0 ≤ j) (hia : i ≤ a.length) (h : Spans a b i j ds) :
    ∃ prev out, Zig.applyLoop a ds.length (ds.flatMap (diffBytes b)) i.toNat (b.take j.toNat) =
        .ok (prev, out) ∧ prev ≤ a.length ∧ out ++ a.drop prev = b := by
  induction ds generalizing i j with
  | nil => exact ⟨i.toNat, _, rfl, by omega, spans_nil h⟩
  | cons d ds ih =>
      obtain ⟨⟨hedit, hrepl⟩, hsame, hds⟩ := h
      obtain ⟨prev, out, hloop, hprev⟩ := ih (by omega) (by omega) hedit.2.2 hds
      refine ⟨prev, out, ?_, hprev⟩
      have hlen : (d.replEnd - d.replStart).toNat = (text b d.replStart d.replEnd).length :=
        (Lcs.length_text (by omega) hrepl.2.1 hrepl.2.2).symm
      have hkept : (a.take d.start.toNat).drop i.toNat = text b j d.replStart := hsame
      rw [List.length_cons, Zig.applyLoop, List.flatMap_cons]
      simp only [diffBytes, List.append_assoc, bind, Except.bind,
        zigReadUvarint_putUvarint (show 0 ≤ d.start by omega) (by omega),
        zigReadUvarint_putUvarint (show 0 ≤ d.stop by omega) (by omega),
        zigReadUvarint_putUvarint (show 0 ≤ d.replEnd - d.replStart by omega) (by omega)]
      rw [if_neg (by omega), if_neg (by omega), if_neg (by omega), hlen, List.take_left,
        List.drop_left, hkept, ← List.append_assoc, take_append_text hj hrepl.1 (by omega),
        take_append_text (by omega) hrepl.2.1 hrepl.2.2]
      exact hloop

/-- The port stays within its tables and arrays, and its patch restores the original. -/
theorem zig_apply_generate (a b : Bytes) (ha : a.length < 2 ^ 24) (hb : b.length < 2 ^ 24) :
    ∃ patch, generate .zig (.new .zig) (.new .zig) a b [] = .ok patch ∧
      Zig.apply a patch = .ok b := by
  obtain ⟨ds, hspans, hlen, hgen⟩ := generate_spec a b
  refine ⟨_, hgen (Lcs.Label.shaped_new .zig) (Lcs.Label.shaped_new .zig), ?_⟩
  unfold Lcs.maxOutDiffs Lcs.lcsCap at hlen
  obtain ⟨prev, out, hloop, hprev, hout⟩ :=
    zigApplyLoop_spec ha hb le_rfl le_rfl (Int.natCast_nonneg _) hspans
  rw [Int.toNat_zero, List.take_zero] at hloop
  simp only [Zig.apply, bind, Except.bind,
    zigReadUvarint_putUvarint (Int.natCast_nonneg b.length) (by omega),
    zigReadUvarint_putUvarint (Int.natCast_nonneg ds.length) (by omega), Int.toNat_natCast, hloop,
    hout, if_neg (Nat.not_lt.mpr hprev), ne_eq, not_true_eq_false, if_false]

/-- Strings of which the search takes a part as one diagonal. -/
theorem zig_apply_generate_shared :
    ∃ patch, generate .zig (.new .zig) (.new .zig) [1, 2, 3, 4] [2, 3, 4, 5] [] = .ok patch ∧
      Zig.apply [1, 2, 3, 4] patch = .ok [2, 3, 4, 5] :=
  zig_apply_generate [1, 2, 3, 4] [2, 3, 4, 5] (by decide) (by decide)

end Zig

end Patch

end Turbokube
