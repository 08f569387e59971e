import Mathlib.Data.Fintype.Card
import Turbokube.Machine.Histories
import Turbokube.Store.Ranges

/-!
# Limits and counts

A range with a limit returns the first items of what it returns without one.  What it says
beyond that it takes from the keys behind the last item (`onlyCounted`), and it does not look
at these the way it looks at the ones it returns.  It says that there is more as soon as there is
another key, which may hold nothing at the revision asked for or fail the filters.  And it counts
what passes the filters on the modification revision without decoding it, so what the filters on
the creation revision would reject is counted.  A request for the count alone counts all keys
that way.
-/

namespace Turbokube

open Encoding Lmdb DbKv

namespace DbKv

/-- The keys of a range that are counted and not decoded. -/
def onlyCounted (db : DbKv) (a : RangeArgs) (key rangeEnd : Bytes) : List Bytes :=
  if a.countOnly then db.rangeKeys key rangeEnd
  else if 0 < a.limit.toInt64 then
    afterNth (db.passes a) a.limit.toNat (db.rangeKeys key rangeEnd)
  else []

/-- The number of keys that pass the filters. -/
def passing (db : DbKv) (a : RangeArgs) (key rangeEnd : Bytes) : Nat :=
  (db.rangeKeys key rangeEnd).countP (db.passes a)

theorem toInt_limit {n : UInt64} (h : 0 < n.toInt64) : n.toInt64.toInt = n.toNat := by
  have hpos : 0 < n.toInt64.toInt := Int64.lt_iff_toInt_lt.mp h
  have hcases : n.toInt64.toInt = n.toNat ∨ n.toInt64.toInt = (n.toNat : Int) - 2 ^ 64 := by
    have hcond := BitVec.toInt_eq_toNat_cond n.toBitVec
    split at hcond
    · exact .inl hcond
    · exact .inr hcond
  have hlt := n.toNat_lt
  omega

variable {E : Env} {S : Prop} {db : DbKv} {ch : Bytes → List Version} {lo hi : Nat}
  {a : RangeArgs} {key rangeEnd : Bytes}

/-- What decodes and passes. -/
def taken (E : Env) (db : DbKv) (a : RangeArgs) (k : Bytes) : Bool :=
  (collected a (sight E db a k)).isSome

/-- What decodes is collected when what was written passes. -/
theorem Rep.taken_eq (h : db.Rep E S ch) (hlog : LogOk db.log lo hi) {k : Bytes}
    (hok : ∀ e, sight E db a k ≠ some (.error e)) :
    taken E db a k = db.passes a k := by
  rw [DbKv.sight] at hok
  rw [taken, DbKv.sight, passes]
  cases hc : db.candidate a k with
  | none => rfl
  | some e =>
      rw [hc, Option.map_some] at hok
      rw [Option.map_some, Option.any_some]
      cases hread : DbKv.reading E db a k with
      | error x => exact absurd (congrArg some hread) (hok x)
      | ok item =>
          have hvis : db.visibleAt a.revision k = some e := by
            rw [candidate, Option.filter_eq_some_iff] at hc
            exact hc.1
          have hcreated := h.created_of_reading hlog hvis hread
          rw [collected_ok, show passesCreated a item = passesCreated a e by
            simp only [passesCreated, hcreated]]
          cases passesCreated a e <;> rfl

theorem Rep.length_itemsOf (h : db.Rep E S ch) (hlog : LogOk db.log lo hi) {ks : List Bytes}
    (hok : ∀ k ∈ ks, ∀ e, sight E db a k ≠ some (.error e)) :
    (itemsOf E db a ks).length = ks.countP (db.passes a) := by
  rw [itemsOf, List.length_filterMap_eq_countP]
  exact List.countP_congr (fun k hk => by rw [← h.taken_eq hlog (hok k hk), taken])

theorem isSome_comp_sight :
    Option.isSome ∘ sight E db a = fun k => (db.candidate a k).isSome := by
  funext k
  rw [Function.comp_apply, sight, Option.isSome_map]

/-- A range that only counts counts what it sees. -/
theorem Rep.getRange_countOnly (h : db.Rep E S ch) (hlog : LogOk db.log lo hi)
    (hcount : a.countOnly = true) (hkey : ValidKey key) :
    DbKv.getRange E db key rangeEnd a =
      .ok ([], tally E ((db.rangeKeys key rangeEnd).countP (fun k => (db.candidate a k).isSome)),
        false) := by
  rw [h.getRange_eq hlog a rangeEnd hkey, rangeFold_counting _ hcount, List.countP_map,
    isSome_comp_sight]
  simp only [Except.map, Nat.zero_add]

/-- With a limit, a range returns what passes up to the limit, unless some of it does not
decode, and counts what it sees from there on. -/
theorem Rep.getRange_limited (h : db.Rep E S ch) (hlog : LogOk db.log lo hi)
    (hfull : E.flags.rangeCountFull = true) (hcount : a.countOnly = false)
    (hlimit : 0 < a.limit.toInt64) (hkey : ValidKey key) {out : List Kv × Nat × Bool} :
    DbKv.getRange E db key rangeEnd a = .ok out ↔
      (∀ k ∈ throughNth (db.passes a) a.limit.toNat (db.rangeKeys key rangeEnd),
        ∀ e, sight E db a k ≠ some (.error e)) ∧
        out = (itemsOf E db a
            (throughNth (db.passes a) a.limit.toNat (db.rangeKeys key rangeEnd)),
          (itemsOf E db a
            (throughNth (db.passes a) a.limit.toNat (db.rangeKeys key rangeEnd))).length +
            tally E ((db.onlyCounted a key rangeEnd).countP (fun k => (db.candidate a k).isSome)),
          decide (db.onlyCounted a key rangeEnd ≠ [])) := by
  have hlim := toInt_limit hlimit
  have hpos : 0 < a.limit := by
    rw [UInt64.lt_iff_toNat_lt, UInt64.toNat_zero]
    have := Int64.lt_iff_toInt_lt.mp hlimit
    simp only [Int64.toInt_zero] at this
    omega
  have hacc : ({ countOnly := a.countOnly } : RangeAcc).countOnly = false := hcount
  have hfold := rangeFold_limited hfull hlim hpos
    ((db.rangeKeys key rangeEnd).map (sight E db a)) hacc (Nat.zero_add _)
  have hcollect := fun acc' => @rangeFold_collecting E { a with limit := 0 } (by simp)
    ((throughNth (taken E db a) a.limit.toNat (db.rangeKeys key rangeEnd)).map (sight E db a))
    { countOnly := a.countOnly } acc' hcount
  simp only [List.filterMap_map, List.forall_mem_map, List.nil_append, Nat.zero_add] at hcollect
  rw [h.getRange_eq hlog a rangeEnd hkey, hfold, throughNth_map, afterNth_map, onlyCounted,
    if_neg (by simp [hcount]), if_pos hlimit,
    show (fun o => (collected a o).isSome) ∘ sight E db a = taken E db a from rfl]
  simp only [List.map_eq_nil_iff, List.countP_map, isSome_comp_sight]
  constructor
  · intro hok
    cases hacc : rangeFold E { a with limit := 0 }
        ((throughNth (taken E db a) a.limit.toNat (db.rangeKeys key rangeEnd)).map (sight E db a))
        { countOnly := a.countOnly } with
    | error e =>
        rw [hacc] at hok
        cases hok
    | ok acc =>
        obtain ⟨hall, rfl⟩ := (hcollect acc).mp hacc
        obtain ⟨hthrough, hafter⟩ := nth_congr (fun k hk => h.taken_eq hlog (hall k hk))
        rw [hacc] at hok
        rw [hthrough, hafter] at hok
        rw [hthrough] at hall
        simp only at hok
        split at hok
        · next hnil =>
            rw [hnil, List.countP_nil, tally_zero]
            exact ⟨hall, (Except.ok.inj hok).symm⟩
        · next hne =>
            rw [decide_eq_true hne]
            exact ⟨hall, (Except.ok.inj hok).symm⟩
  · rintro ⟨hall, rfl⟩
    obtain ⟨hthrough, hafter⟩ := nth_congr (fun k hk => (h.taken_eq hlog (hall k hk)).symm)
    rw [hthrough] at hall
    rw [(hcollect _).mpr ⟨hall, rfl⟩, ← hthrough, ← hafter]
    simp only
    split
    · next hnil =>
        rw [hnil, List.countP_nil, tally_zero]
        rfl
    · next hne =>
        rw [decide_eq_true hne]
        rfl

/-- The first part of a range has the first items. -/
theorem Rep.itemsOf_throughNth (h : db.Rep E S ch) (hlog : LogOk db.log lo hi) (n : Nat)
    {ks : List Bytes} (hok : ∀ k ∈ ks, ∀ e, sight E db a k ≠ some (.error e)) :
    itemsOf E db a (throughNth (db.passes a) n ks) = (itemsOf E db a ks).take n := by
  have hsplit := @throughNth_append_afterNth _ (taken E db a) n ks
  obtain ⟨hthrough, -⟩ := nth_congr (fun k hk =>
    h.taken_eq hlog (hok k (hsplit ▸ List.mem_append_left _ hk)))
  rw [← show throughNth (taken E db a) n ks = throughNth (db.passes a) n ks from hthrough]
  exact filterMap_throughNth (fun k => collected a (sight E db a k)) n ks

/-- More than `n` keys pass exactly when one that passes follows the first `n`. -/
theorem lt_countP_iff {p : Bytes → Bool} {n : Nat} {ks : List Bytes} :
    n < ks.countP p ↔ ∃ k ∈ afterNth p n ks, p k = true := by
  rw [← List.countP_pos_iff]
  have hcount : ks.countP p = (throughNth p n ks).countP p + (afterNth p n ks).countP p := by
    rw [← List.countP_append, throughNth_append_afterNth]
  rcases countP_throughNth (p := p) n ks with heq | ⟨hnil, hlt⟩
  · omega
  · rw [hnil] at hcount ⊢
    simp only [List.countP_nil] at hcount ⊢
    omega

theorem candidate_of_passes {k : Bytes} (h : db.passes a k = true) :
    (db.candidate a k).isSome = true := by
  rw [passes] at h
  cases hc : db.candidate a k with
  | none =>
      rw [hc] at h
      cases h
  | some e => rfl

theorem Rep.write_of_visibleAt (h : db.Rep E S ch) (hlog : LogOk db.log lo hi) {r : UInt64}
    {k : Bytes} {e : Kv} (he : db.visibleAt r k = some e) :
    ∃ w ∈ db.log, w.key = k ∧ w.kr = e.rev ∧ w.op ≠ .delete := by
  rw [h.visibleAt_eq hlog] at he
  obtain ⟨v, hat, hitem⟩ := Option.bind_eq_some_iff.mp he
  have hv := h.mem_versions ((List.dropWhile_sublist _).mem (List.mem_of_head? hat))
  obtain ⟨hrev, hlive, -⟩ := hlog.sound hv hitem
  obtain ⟨w, hw, hk, cur, rfl⟩ := write_of_mem_versions hv
  refine ⟨w, hw, hk, hrev.symm, fun hdel => ?_⟩
  rw [hrev, show (w.version cur).rev = w.kr from rfl, (hlog.isdel w hw).mpr hdel] at hlive
  cases hlive

/-- There are fewer keys to see than revision words: no two keys show the same one. -/
theorem Rep.countP_candidate_lt (h : db.Rep E S ch) (hlog : LogOk db.log lo hi) :
    (db.rangeKeys key rangeEnd).countP (fun k => (db.candidate a k).isSome) < 2 ^ 64 := by
  let word := fun k => (db.candidate a k).map (fun e => e.rev.word.toFin)
  have hwrite : ∀ {k x}, word k = some x →
      ∃ w ∈ db.log, w.key = k ∧ w.kr.word.toFin = x ∧ w.op ≠ .delete := by
    intro k x hx
    obtain ⟨e, he, rfl⟩ := Option.map_eq_some_iff.mp hx
    rw [candidate, Option.filter_eq_some_iff] at he
    obtain ⟨w, hw, hk, hkr, hop⟩ := h.write_of_visibleAt hlog he.1
    exact ⟨w, hw, hk, by rw [hkr], hop⟩
  have hnodup : ((db.rangeKeys key rangeEnd).filterMap word).Nodup := by
    refine List.Nodup.filterMap (fun k k' x hx hx' => ?_)
      (((db.rev.keysFrom_sorted key).filter _).imp (fun hlt => ne_of_lt hlt))
    obtain ⟨w, hw, hk, hword, hop⟩ := hwrite hx
    obtain ⟨w', hw', hk', hword', -⟩ := hwrite hx'
    have hkr : w.kr = w'.kr :=
      congrArg Keyrev.mk (UInt64.toFin_inj.mp (hword.trans hword'.symm))
    rw [← hk, ← hk', hlog.inj w hw w' hw' hop hkr]
  have hzero : 0 ∉ (db.rangeKeys key rangeEnd).filterMap word := by
    intro hmem
    obtain ⟨k, -, hx⟩ := List.mem_filterMap.mp hmem
    obtain ⟨w, hw, -, hword, -⟩ := hwrite hx
    have hpos := hlog.pos w hw
    have hkr : w.kr = ⟨0⟩ := congrArg Keyrev.mk (UInt64.toFin_inj.mp hword)
    rw [← hlog.upper w hw, hkr] at hpos
    exact absurd hpos (by decide)
  have hcard := List.Nodup.length_le_card (List.nodup_cons.mpr ⟨hzero, hnodup⟩)
  rw [Fintype.card_fin, List.length_cons, List.length_filterMap_eq_countP] at hcard
  simp only [word, Option.isSome_map] at hcard
  exact hcard

/-- The count a range is documented to return when `n` keys pass the filters. -/
def documentedCount (E : Env) (a : RangeArgs) (n : Nat) : Nat :=
  if E.flags.rangeCountFake = true ∧ a.countOnly = false ∧ 0 < a.limit.toInt64 then
    min n (a.limit.toNat + 1)
  else n

/-- What is only counted passes.  When the count stops at the first, one that is counted goes with
one that passes, and a request for the count alone has no second. -/
def CountsExactly (E : Env) (db : DbKv) (a : RangeArgs) (key rangeEnd : Bytes) : Prop :=
  if E.flags.rangeCountFake = true then
    ((∃ k ∈ db.onlyCounted a key rangeEnd, (db.candidate a k).isSome = true) →
      ∃ k ∈ db.onlyCounted a key rangeEnd, db.passes a k = true) ∧
    (a.countOnly = true → db.passing a key rangeEnd ≤ 1)
  else
    ∀ k ∈ db.onlyCounted a key rangeEnd, (db.candidate a k).isSome = true → db.passes a k = true

instance : Decidable (CountsExactly E db a key rangeEnd) := by
  unfold CountsExactly
  infer_instance

/-- Counting what is seen gives the number of those that pass, or the smaller of that and one,
when what is counted passes. -/
theorem tally_eq_iff {ks : List Bytes} :
    tally E (ks.countP (fun k => (db.candidate a k).isSome)) = tally E (ks.countP (db.passes a)) ↔
      if E.flags.rangeCountFake = true then
        (∃ k ∈ ks, (db.candidate a k).isSome = true) → ∃ k ∈ ks, db.passes a k = true
      else ∀ k ∈ ks, (db.candidate a k).isSome = true → db.passes a k = true := by
  have hle : ks.countP (db.passes a) ≤ ks.countP (fun k => (db.candidate a k).isSome) :=
    List.countP_mono_left (fun _ _ => candidate_of_passes)
  rw [tally, tally]
  split
  · rw [← List.countP_pos_iff, ← List.countP_pos_iff]
    omega
  · induction ks with
    | nil => simp
    | cons k ks ih =>
        have hle' : ks.countP (db.passes a) ≤ ks.countP (fun k => (db.candidate a k).isSome) :=
          List.countP_mono_left (fun _ _ => candidate_of_passes)
        have ih := ih hle'
        rw [List.countP_cons, List.countP_cons, List.forall_mem_cons]
        cases hp : db.passes a k with
        | true =>
            rw [candidate_of_passes hp]
            simp [ih]
        | false =>
            cases hc : (db.candidate a k).isSome with
            | true =>
                simp only [if_true, Bool.false_eq_true, if_false, forall_const, false_and,
                    iff_false]
                omega
            | false => simp [ih]

/-- What the count of a range is, and when that is the documented one. -/
theorem Rep.count_eq_iff (h : db.Rep E S ch) (hlog : LogOk db.log lo hi)
    (hfull : E.flags.rangeCountFull = true) {items : List Kv} {count : Nat} {more : Bool}
    (hok : DbKv.getRange E db key rangeEnd a = .ok (items, count, more)) :
    count ≤ (db.rangeKeys key rangeEnd).countP (fun k => (db.candidate a k).isSome) ∧
      (count = documentedCount E a (db.passing a key rangeEnd) ↔
        CountsExactly E db a key rangeEnd) := by
  have hkey := validKey_of_getRange hok
  have htally : ∀ n, tally E n ≤ n := by
    intro n
    rw [tally]
    split
    · exact Nat.min_le_left n 1
    · exact le_refl n
  have hle : ∀ ks : List Bytes,
      ks.countP (db.passes a) ≤ ks.countP (fun k => (db.candidate a k).isSome) :=
    fun ks => List.countP_mono_left (fun _ _ => candidate_of_passes)
  cases hcount : a.countOnly with
  | true =>
      rw [h.getRange_countOnly hlog hcount hkey] at hok
      obtain ⟨-, hout⟩ := Prod.mk.inj (Except.ok.inj hok)
      obtain ⟨rfl, -⟩ := Prod.mk.inj hout
      refine ⟨htally _, ?_⟩
      rw [documentedCount, if_neg (by simp [hcount]), CountsExactly, passing, onlyCounted,
        if_pos hcount]
      have hiff := @tally_eq_iff E db a (db.rangeKeys key rangeEnd)
      have hle := hle (db.rangeKeys key rangeEnd)
      rw [tally, tally] at hiff
      rw [tally]
      split
      · next hfake =>
          simp only [hfake, if_true] at hiff
          rw [← hiff]
          simp only [hcount, forall_const]
          omega
      · next hfake =>
          simp only [hfake, Bool.false_eq_true, if_false] at hiff
          exact hiff
  | false =>
      by_cases hlimit : 0 < a.limit.toInt64
      · obtain ⟨hall, hout⟩ := (h.getRange_limited hlog hfull hcount hlimit hkey).mp hok
        obtain ⟨-, hout⟩ := Prod.mk.inj hout
        obtain ⟨rfl, -⟩ := Prod.mk.inj hout
        have hrest : db.onlyCounted a key rangeEnd =
            afterNth (db.passes a) a.limit.toNat (db.rangeKeys key rangeEnd) := by
          rw [onlyCounted, if_neg (by simp [hcount]), if_pos hlimit]
        have hsplit := fun p => @List.countP_append _ p
          (throughNth (db.passes a) a.limit.toNat (db.rangeKeys key rangeEnd))
          (afterNth (db.passes a) a.limit.toNat (db.rangeKeys key rangeEnd))
        simp only [throughNth_append_afterNth] at hsplit
        have hiff := @tally_eq_iff E db a (db.onlyCounted a key rangeEnd)
        have hthrough := @countP_throughNth _ (db.passes a) a.limit.toNat
          (db.rangeKeys key rangeEnd)
        rw [h.length_itemsOf hlog hall]
        rw [← hrest] at hsplit hthrough
        refine ⟨?_, ?_⟩
        · rw [hsplit]
          exact Nat.add_le_add (hle _) (htally _)
        · rw [CountsExactly, documentedCount, passing, hsplit]
          rw [tally, tally] at hiff
          rw [tally]
          by_cases hfake : E.flags.rangeCountFake = true
          · simp only [hfake, hcount, hlimit, if_true, and_self, Bool.false_eq_true,
              false_implies, and_true] at hiff ⊢
            rw [← hiff]
            rcases hthrough with hn | ⟨hnil, hlt⟩
            · omega
            · rw [hnil]
              simp only [List.countP_nil, Nat.add_zero, Nat.zero_min]
              rw [Nat.min_eq_left (by omega)]
              exact iff_true_intro rfl
          · simp only [hfake, Bool.false_eq_true, if_false, false_and] at hiff ⊢
            rw [← hiff]
            omega
      · obtain ⟨hall, hout⟩ := (h.getRange_unlimited hlog hcount hlimit hkey).mp hok
        obtain ⟨-, hout⟩ := Prod.mk.inj hout
        obtain ⟨rfl, -⟩ := Prod.mk.inj hout
        have hnone : db.onlyCounted a key rangeEnd = [] := by
          rw [onlyCounted, if_neg (by simp [hcount]), if_neg hlimit]
        rw [h.length_itemsOf hlog hall]
        refine ⟨hle _, ?_⟩
        rw [documentedCount, if_neg (by simp [hlimit]), CountsExactly, hnone]
        simp [passing, hcount]

end DbKv

/-- A range with a limit returns the first items of the range without one, and says rightly
whether there are more, exactly when some key behind the last item passes the filters, if there is
any key behind it. -/
theorem getRange_limit_iff {E : Env} {b : Batch}
    (h : Reached E (fun _ cmd => cmd.OpsAtMost 1024) b) (hrev : b.newRev < 2 ^ 52)
    (hfull : E.flags.rangeCountFull = true) {a : RangeArgs} (hcount : a.countOnly = false)
    (hlimit : 0 < a.limit.toInt64) {key rangeEnd : Bytes} {items : List Kv} {count : Nat}
    {more : Bool} (hall : b.store.tables.kv.getRange E key rangeEnd { a with limit := 0 } =
      .ok (items, count, more)) :
    (∃ n, b.store.tables.kv.getRange E key rangeEnd a =
        .ok (items.take a.limit.toNat, n, decide (a.limit.toNat < items.length))) ↔
      (b.store.tables.kv.onlyCounted a key rangeEnd ≠ [] →
        ∃ k ∈ b.store.tables.kv.onlyCounted a key rangeEnd,
          b.store.tables.kv.passes a k = true) := by
  obtain ⟨ch, hrep, hlog, -⟩ := h.versioned_of_opsAtMost (fun _ _ hq => hq) hrev
  have hkey := validKey_of_getRange hall
  generalize b.store.tables.kv = db at *
  obtain ⟨hok, hout⟩ :=
    (hrep.getRange_unlimited (a := { a with limit := 0 }) hlog hcount (by simp) hkey).mp hall
  obtain ⟨rfl, -⟩ := Prod.mk.inj hout
  change ∀ k ∈ db.rangeKeys key rangeEnd, ∀ e, sight E db a k ≠ some (.error e) at hok
  have hsplit := @throughNth_append_afterNth _ (db.passes a) a.limit.toNat
    (db.rangeKeys key rangeEnd)
  have hlimited := (hrep.getRange_limited hlog hfull hcount hlimit hkey).mpr
    ⟨fun k hk => hok k (hsplit ▸ List.mem_append_left _ hk), rfl⟩
  have hlength : (itemsOf E db a (db.rangeKeys key rangeEnd)).length =
      (db.rangeKeys key rangeEnd).countP (db.passes a) := hrep.length_itemsOf hlog hok
  have hmore : a.limit.toNat < (itemsOf E db a (db.rangeKeys key rangeEnd)).length ↔
      ∃ k ∈ db.onlyCounted a key rangeEnd, db.passes a k = true := by
    rw [hlength, lt_countP_iff, onlyCounted, if_neg (by simp [hcount]), if_pos hlimit]
  rw [hlimited, hrep.itemsOf_throughNth hlog _ hok, ← hmore]
  constructor
  · rintro ⟨n, hn⟩ hne
    have hdecide := (Prod.mk.inj (Prod.mk.inj (Except.ok.inj hn)).2).2
    exact (decide_eq_decide.mp hdecide).mp hne
  · intro hcond
    refine ⟨_, congrArg Except.ok (congrArg (Prod.mk _) (congrArg (Prod.mk _) ?_))⟩
    refine decide_eq_decide.mpr ⟨hcond, fun hlt hnil => ?_⟩
    obtain ⟨k, hk, -⟩ := hmore.mp hlt
    rw [hnil] at hk
    cases hk

theorem getRange_limit_of_two :
    ∃ s ∈ storeAfter [[.put { key := [97], value := [1] }], [.put { key := [98], value := [2] }]],
      ∃ n, s.tables.kv.getRange .plain [97] [99] {} =
          .ok ([⟨revAt 2 0 false, 1, 2, 0, [97], [1]⟩, ⟨revAt 3 0 false, 1, 3, 0, [98], [2]⟩], 2,
            false) ∧
        s.tables.kv.getRange .plain [97] [99] { limit := 1 } =
          .ok ([⟨revAt 2 0 false, 1, 2, 0, [97], [1]⟩], n, true) := by
  refine exists_mem_imp (D := fun s => s.dbMeta.rev < 2 ^ 52 ∧
    s.tables.kv.getRange .plain [97] [99] {} =
      .ok ([⟨revAt 2 0 false, 1, 2, 0, [97], [1]⟩, ⟨revAt 3 0 false, 1, 3, 0, [98], [2]⟩], 2,
        false) ∧
    ∃ k ∈ s.tables.kv.onlyCounted { limit := 1 } [97] [99],
      s.tables.kv.passes { limit := 1 } k = true) (by decide +kernel) (fun s hs hD => ?_)
  obtain ⟨n, hn⟩ := (getRange_limit_iff (a := { limit := 1 }) (reached_of_storeAfter
    (by decide +kernel) hs) hD.1 rfl rfl (by decide) hD.2.1).mpr (fun _ => hD.2.2)
  exact ⟨n, hD.2.1, hn⟩

/-- The deleted key behind the last item is taken for more. -/
theorem getRange_more_after_delete :
    ∃ s ∈ storeAfter [[.put { key := [97], value := [1] }], [.put { key := [98], value := [2] }],
        [.deleteRange { key := [98] }]],
      Reached .plain (fun _ cmd => cmd.OpsAtMost 1024) (.start s) ∧ s.dbMeta.rev = 4 ∧
      s.tables.kv.getRange .plain [97] [99] {} =
        .ok ([⟨revAt 2 0 false, 1, 2, 0, [97], [1]⟩], 1, false) ∧
      s.tables.kv.getRange .plain [97] [99] { limit := 1 } =
        .ok ([⟨revAt 2 0 false, 1, 2, 0, [97], [1]⟩], 1, true) :=
  ⟨_, Option.get_mem (by decide +kernel), reached_of_storeAfter (by decide +kernel)
    (Option.get_mem _), by decide +kernel, by decide +kernel, by decide +kernel⟩

theorem ofNat_inj {m n : Nat} (hm : m < 2 ^ 64) (hn : n < 2 ^ 64) :
    Int64.ofNat m = Int64.ofNat n ↔ m = n := by
  refine ⟨fun h => ?_, fun h => by rw [h]⟩
  have hnat : (BitVec.ofNat 64 m).toNat = (BitVec.ofNat 64 n).toNat :=
    congrArg (fun x : Int64 => x.toBitVec.toNat) h
  rwa [BitVec.toNat_ofNat, BitVec.toNat_ofNat, Nat.mod_eq_of_lt hm, Nat.mod_eq_of_lt hn] at hnat

/-- The count of a range is the documented one exactly when what it only counts passes the
filters. -/
theorem queryRange_count_iff {E : Env} {b : Batch}
    (h : Reached E (fun _ cmd => cmd.OpsAtMost 1024) b) (hrev : b.newRev < 2 ^ 52)
    (hfull : E.flags.rangeCountFull = true) {revMin : UInt64} {rev : Nat} {req : RangeRequest}
    {res : RangeResponse} (hok : queryRange E b.store.tables.kv revMin rev req = .ok res) :
    res.count = Int64.ofNat (documentedCount E (rangeArgs req)
        (b.store.tables.kv.passing (rangeArgs req) req.key req.rangeEnd)) ↔
      CountsExactly E b.store.tables.kv (rangeArgs req) req.key req.rangeEnd := by
  obtain ⟨ch, hrep, hlog, -⟩ := h.versioned_of_opsAtMost (fun _ _ hq => hq) hrev
  generalize b.store.tables.kv = db at *
  rw [queryRange] at hok
  split at hok
  · cases hok
  · split at hok
    · cases hok
    · split at hok
      · cases hok
      · next items count more hget =>
          obtain ⟨hle, hiff⟩ := hrep.count_eq_iff hlog hfull hget
          have hlt : (db.rangeKeys req.key req.rangeEnd).countP
              (fun k => (db.candidate (rangeArgs req) k).isSome) < 2 ^ 64 :=
            hrep.countP_candidate_lt hlog
          have hdoc : documentedCount E (rangeArgs req)
              (db.passing (rangeArgs req) req.key req.rangeEnd) < 2 ^ 64 := by
            refine lt_of_le_of_lt ?_ (lt_of_le_of_lt
              (List.countP_mono_left (fun k _ => candidate_of_passes)) hlt)
            rw [documentedCount]
            split
            · exact Nat.min_le_left _ _
            · exact le_refl _
          rw [← hiff, ← Except.ok.inj hok]
          simp only [hfull, true_or, or_true, if_true]
          exact ofNat_inj (lt_of_le_of_lt hle hlt) hdoc

/-- The request has a limit and no filter. -/
theorem queryRange_count_of_two :
    ∃ s ∈ storeAfter [[.put { key := [97], value := [1] }], [.put { key := [98], value := [2] }]],
      ∃ res, queryRange .plain s.tables.kv 0 3 { key := [97], rangeEnd := [99], limit := 1 } =
          .ok res ∧ res.count = 2 := by
  refine exists_mem_imp (D := fun s => s.dbMeta.rev < 2 ^ 52 ∧ (queryRange .plain s.tables.kv 0 3
      { key := [97], rangeEnd := [99], limit := 1 }).isOk = true ∧
    s.tables.kv.passing (rangeArgs { key := [97], rangeEnd := [99], limit := 1 }) [97] [99] = 2 ∧
    CountsExactly .plain s.tables.kv (rangeArgs { key := [97], rangeEnd := [99], limit := 1 })
      [97] [99]) (by decide +kernel) (fun s hs hD => ?_)
  obtain ⟨hrev, hok, hpassing, hexact⟩ := hD
  cases hquery : queryRange .plain s.tables.kv 0 3
      { key := [97], rangeEnd := [99], limit := 1 } with
  | error e =>
      rw [hquery] at hok
      cases hok
  | ok res =>
      have hcount := (queryRange_count_iff (reached_of_storeAfter (by decide +kernel) hs) hrev rfl
        hquery).mpr hexact
      rw [show (Batch.start s).store.tables.kv = s.tables.kv from rfl, hpassing] at hcount
      exact ⟨res, rfl, hcount⟩

/-- The first key was created before revision 3 and is counted all the same. -/
theorem queryRange_counts_rejected :
    ∃ s ∈ storeAfter [[.put { key := [97], value := [1] }], [.put { key := [98], value := [2] }]],
      Reached .plain (fun _ cmd => cmd.OpsAtMost 1024) (.start s) ∧ s.dbMeta.rev = 3 ∧
      (queryRange .plain s.tables.kv 0 3
        { key := [97], rangeEnd := [99], minCreateRevision := 3 }).map RangeResponse.count = .ok 1 ∧
      (queryRange .plain s.tables.kv 0 3
        { key := [97], rangeEnd := [99], minCreateRevision := 3, countOnly := true }).map
          RangeResponse.count = .ok 2 :=
  ⟨_, Option.get_mem (by decide +kernel), reached_of_storeAfter (by decide +kernel)
    (Option.get_mem _), by decide +kernel, by decide +kernel, by decide +kernel⟩

end Turbokube
