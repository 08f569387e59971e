import Turbokube.Lcs.Search

/-!
# The edits

`Spans` says what a list of edits has to be to make the second string from the first: between the
edits both strings are the same.  The edits of a search are such a list, and do not depend on what
the label tables held before.
-/

namespace Turbokube

namespace Lcs

variable {α : Type} {a b s : List α} {i j k : Int}

/-- The part of a string from `i` to `j`. -/
def text (s : List α) (i j : Int) : List α := (s.take j.toNat).drop i.toNat

theorem getElem?_text (hi : 0 ≤ i) (n : Nat) :
    (text s i j)[n]? = if i + n < j then s[(i + n).toNat]? else none := by
  rw [text, List.getElem?_drop, List.getElem?_take]
  have hplace : i.toNat + n = (i + n).toNat := by omega
  rw [hplace]
  split
  · rw [if_pos (by omega)]
  · rw [if_neg (by omega)]

theorem length_text (hi : 0 ≤ i) (hij : i ≤ j) (hj : j ≤ s.length) :
    (text s i j).length = (j - i).toNat := by
  rw [text, List.length_drop, List.length_take]
  omega

theorem text_append (hi : 0 ≤ i) (hij : i ≤ j) (hjk : j ≤ k) (hk : k ≤ s.length) :
    text s i j ++ text s j k = text s i k := by
  apply List.ext_getElem?
  intro n
  rw [getElem?_text hi]
  by_cases hn : n < (j - i).toNat
  · rw [List.getElem?_append_left (by rw [length_text hi hij (hjk.trans hk)]; exact hn),
      getElem?_text hi, if_pos (by omega), if_pos (by omega)]
  · rw [List.getElem?_append_right (by rw [length_text hi hij (hjk.trans hk)]; omega),
      getElem?_text (hi.trans hij), length_text hi hij (hjk.trans hk)]
    have hplace : j + ((n - (j - i).toNat : Nat) : Int) = i + n := by omega
    rw [hplace]

theorem text_to_end (i : Int) : text s i s.length = s.drop i.toNat := by
  rw [text, Int.toNat_natCast, List.take_length]

theorem text_from_start (j : Int) : text s 0 j = s.take j.toNat := by
  rw [text, Int.toNat_zero, List.drop_zero]

/-- Edits in order from `(i, j)` on that leave what is the same in both strings. -/
def Spans (a b : List α) (i j : Int) : List Diff → Prop
  | [] => text a i a.length = text b j b.length
  | d :: ds =>
      ((i ≤ d.start ∧ d.start ≤ d.stop ∧ d.stop ≤ a.length) ∧
        j ≤ d.replStart ∧ d.replStart ≤ d.replEnd ∧ d.replEnd ≤ b.length) ∧
        text a i d.start = text b j d.replStart ∧ Spans a b d.stop d.replEnd ds

theorem pushDiff_eq {p : Port} {diffs : List Diff} {d : Diff} (hlen : diffs.length < maxOutDiffs)
    (ha : 0 ≤ d.start ∧ 0 ≤ d.stop) (hb : 0 ≤ d.replStart ∧ 0 ≤ d.replEnd) :
    pushDiff p diffs d = .ok (diffs ++ [d]) := by
  cases p with
  | go => rfl
  | zig => exact if_pos ⟨hlen, ha.1, ha.2, hb⟩

/-- A matching diagonal covers the same text in both strings. -/
theorem Matches.text_eq {d : Diag} (h : Matches (Cell a b a.length b.length) d) :
    text a d.x (d.x + d.len) = text b d.y (d.y + d.len) := by
  have hin := h.inside inside_cell
  apply List.ext_getElem?
  intro n
  rw [getElem?_text hin.1.1, getElem?_text hin.1.2]
  by_cases hn : (n : Int) < d.len
  · rw [if_pos (by omega), if_pos (by omega)]
    exact (h.cells n (Int.natCast_nonneg n) hn).2.2
  · rw [if_neg (by omega), if_neg (by omega)]

/-- From the end `(i, j)` of the last edit the strings are the same up to `(pa, pb)`. -/
theorem toDiffsLoop_spec {lcs : List Diag} {pa pb : Int} (diffs : List Diff)
    (h : Aligns (Cell a b a.length b.length) pa pb lcs a.length b.length)
    (hroom : diffs.length + lcs.length < maxOutDiffs) (hi : 0 ≤ i) (hj : 0 ≤ j) (hpa : i ≤ pa)
    (hpb : j ≤ pb) (hsame : text a i pa = text b j pb) :
    ∃ ds, (∀ p, toDiffsLoop p a.length b.length lcs pa pb diffs = .ok (diffs ++ ds)) ∧
      Spans a b i j ds ∧ ds.length ≤ lcs.length + 1 := by
  induction lcs generalizing i j pa pb diffs with
  | nil =>
      have hend : pa ≤ a.length ∧ pb ≤ b.length := h
      by_cases hrest : pa < a.length ∨ pb < b.length
      · refine ⟨[⟨pa, a.length, pb, b.length⟩], fun p => ?_, ?_, le_rfl⟩
        · rw [toDiffsLoop, if_pos hrest]
          exact pushDiff_eq (by simpa using hroom) ⟨hi.trans hpa, Int.natCast_nonneg _⟩
            ⟨hj.trans hpb, Int.natCast_nonneg _⟩
        · refine ⟨⟨⟨hpa, hend.1, le_rfl⟩, hpb, hend.2, le_rfl⟩, hsame, ?_⟩
          simp [Spans, text]
      · refine ⟨[], fun p => ?_, ?_, Nat.zero_le _⟩
        · rw [toDiffsLoop, if_neg hrest, List.append_nil]
        · obtain rfl : pa = a.length := by omega
          obtain rfl : pb = b.length := by omega
          exact hsame
  | cons d lcs ih =>
      obtain ⟨hle, hmatch, hlcs⟩ := h
      have hin := hmatch.inside inside_cell
      have hpos := hmatch.pos
      rw [List.length_cons] at hroom ⊢
      by_cases hedit : pa < d.x ∨ pb < d.y
      · have hpush : ∀ p, pushDiff p diffs ⟨pa, d.x, pb, d.y⟩ =
            .ok (diffs ++ [⟨pa, d.x, pb, d.y⟩]) := fun p =>
          pushDiff_eq (by omega) ⟨hi.trans hpa, hin.1.1⟩ ⟨hj.trans hpb, hin.1.2⟩
        obtain ⟨ds, hds, hspans, hlen⟩ := ih (diffs ++ [⟨pa, d.x, pb, d.y⟩]) hlcs
          (by simp only [List.length_append, List.length_singleton]; omega) hin.1.1 hin.1.2
          (by omega) (by omega) hmatch.text_eq
        refine ⟨⟨pa, d.x, pb, d.y⟩ :: ds, fun p => ?_, ?_, Nat.succ_le_succ hlen⟩
        · rw [toDiffsLoop, if_pos hedit, hpush p, ok_bind, hds p, List.append_assoc,
            List.singleton_append]
        · refine ⟨⟨⟨hpa, hle.1, ?_⟩, hpb, hle.2, ?_⟩, hsame, hspans⟩
          · show d.x ≤ a.length
            omega
          · show d.y ≤ b.length
            omega
      · -- the diagonal goes on where the one before ended
        obtain rfl : pa = d.x := by omega
        obtain rfl : pb = d.y := by omega
        have hrun : text a i (d.x + d.len) = text b j (d.y + d.len) := by
          rw [← text_append hi hpa (by omega) hin.2.1, ← text_append hj hpb (by omega) hin.2.2,
            hsame, hmatch.text_eq]
        obtain ⟨ds, hds, hspans, hlen⟩ := ih diffs hlcs (by omega) hi hj (by omega) (by omega) hrun
        refine ⟨ds, fun p => ?_, hspans, by omega⟩
        rw [toDiffsLoop, if_neg hedit, hds p]

theorem toDiffs_spec {lcs : List Diag} (hlen : lcs.length ≤ lcsCap)
    (h : Aligns (Cell a b a.length b.length) 0 0 lcs a.length b.length) :
    ∃ ds, (∀ p, toDiffs p lcs a.length b.length = .ok ds) ∧ Spans a b 0 0 ds ∧
      ds.length ≤ lcs.length + 1 :=
  toDiffsLoop_spec [] h (by simpa [maxOutDiffs] using Nat.lt_succ_of_le hlen) le_rfl le_rfl le_rfl
    le_rfl (by simp [text])

variable [DecidableEq α]

/-- The edits make the second string from the first, and are the same whatever is in the tables,
which the search leaves with rows of the right length again. -/
theorem diff_spec (a b : List α) :
    ∃ ds, Spans a b 0 0 ds ∧ ds.length ≤ maxOutDiffs ∧
      ∀ {p vf vb}, vf.Shaped p → vb.Shaped p →
        ∃ vf' vb', diff p vf vb a b = .ok (ds, vf', vb') ∧ vf'.Shaped p ∧ vb'.Shaped p := by
  obtain ⟨l, haligns, hlen, hreturns⟩ := twosided_spec a b (L := maxDiffs / 2) (by decide)
  have hcap : l.length ≤ lcsCap := le_lcsCap (by decide) hlen
  obtain ⟨ds, hds, hspans, hlen'⟩ := toDiffs_spec hcap haligns
  refine ⟨ds, hspans, hlen'.trans (Nat.succ_le_succ hcap), fun {p vf vb} hvf hvb => ?_⟩
  obtain ⟨vf', vb', heq, hvf', hvb'⟩ := hreturns hvf hvb
  refine ⟨vf', vb', ?_, hvf', hvb'⟩
  rw [diff, compute, if_neg (by decide)]
  change (EditGraph.twosided p (graph a b (maxDiffs / 2) a.length b.length vf vb) >>= _) = _
  rw [heq, ok_bind]
  dsimp only
  rw [hds p, ok_bind]
  rfl

/-- Diffs do not depend on earlier diffs.  The tables may also have cells that cannot be read before
they are written. -/
theorem diff_eq_fresh (a b : List α) (vf vb : Label) (hvf : vf.Shaped .go) (hvb : vb.Shaped .go) :
    ∃ ds, (∃ vf' vb', diff .go (.new .go) (.new .go) a b = .ok (ds, vf', vb')) ∧
      ∃ vf' vb', diff .go vf vb a b = .ok (ds, vf', vb') ∧ vf'.Shaped .go ∧ vb'.Shaped .go := by
  obtain ⟨ds, -, -, hdiff⟩ := diff_spec a b
  obtain ⟨vf', vb', heq, -, -⟩ := hdiff (Label.shaped_new .go) (Label.shaped_new .go)
  exact ⟨ds, ⟨vf', vb', heq⟩, hdiff hvf hvb⟩

/-- A table with a row that cannot be read yet and one from an earlier search. -/
theorem shaped_unread : Label.Shaped .go [[none], [some 3, some 4]]
  | 0, _, h => .inr (congrArg List.length (Option.some.inj h).symm)
  | 1, _, h => .inr (congrArg List.length (Option.some.inj h).symm)

theorem diff_eq_fresh_unread :
    ∃ ds, (∃ vf' vb', diff .go (.new .go) (.new .go) [1, 2, 3, 1] [3, 2, 1] = .ok (ds, vf', vb')) ∧
      ∃ vf' vb', diff .go [[none], [some 3, some 4]] [] [1, 2, 3, 1] [3, 2, 1] =
        .ok (ds, vf', vb') ∧ vf'.Shaped .go ∧ vb'.Shaped .go :=
  diff_eq_fresh [1, 2, 3, 1] [3, 2, 1] _ _ shaped_unread nofun

end Lcs

end Turbokube
