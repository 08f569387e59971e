import Turbokube.Store.Reads

/-!
# What a range collects and counts

All a range needs to know of a key is whether the key holds something at the revision asked for
that passes the filter on the modification revision (`candidate`), and what decoding the record
gives (`reading`).  `rangeFold` is the loop on these.  It collects until the limit is reached and
counts from then on.  What it only counts it does not decode, and the filter on the creation
revision needs the decoded record.

`visibleAt` says what a key holds in terms of the writes and of the records that are left.
-/

namespace Turbokube

open Encoding Lmdb

section Nth

variable {κ : Type} (p : κ → Bool)

/-- The list up to and including the `n`-th element that meets `p`. -/
def throughNth : Nat → List κ → List κ
  | 0, _ => []
  | _ + 1, [] => []
  | n + 1, k :: ks => k :: (if p k then throughNth n ks else throughNth (n + 1) ks)

/-- What follows the `n`-th element that meets `p`. -/
def afterNth : Nat → List κ → List κ
  | 0, ks => ks
  | _ + 1, [] => []
  | n + 1, k :: ks => if p k then afterNth n ks else afterNth (n + 1) ks

variable {p}

theorem throughNth_append_afterNth (n : Nat) (ks : List κ) :
    throughNth p n ks ++ afterNth p n ks = ks := by
  fun_induction throughNth p n ks with
  | case1 ks => rw [afterNth, List.nil_append]
  | case2 => rfl
  | case3 n k ks ih₁ ih₂ =>
      rw [afterNth, List.cons_append]
      split
      · rw [ih₁]
      · rw [ih₂]

/-- The list ends before the `n`-th element, or exactly `n` are in the first part. -/
theorem countP_throughNth (n : Nat) (ks : List κ) :
    (throughNth p n ks).countP p = n ∨
      afterNth p n ks = [] ∧ (throughNth p n ks).countP p < n := by
  fun_induction throughNth p n ks with
  | case1 => exact .inl rfl
  | case2 => exact .inr ⟨rfl, by simp⟩
  | case3 n k ks ih₁ ih₂ =>
      rw [afterNth, List.countP_cons]
      split
      · rcases ih₁ with h | ⟨hnil, h⟩
        · exact .inl (by omega)
        · exact .inr ⟨hnil, by omega⟩
      · exact ih₂

theorem nth_congr {q : κ → Bool} {n : Nat} {ks : List κ}
    (h : ∀ k ∈ throughNth p n ks, p k = q k) :
    throughNth p n ks = throughNth q n ks ∧ afterNth p n ks = afterNth q n ks := by
  fun_induction throughNth p n ks with
  | case1 => exact ⟨by rw [throughNth], by rw [afterNth, afterNth]⟩
  | case2 => exact ⟨rfl, rfl⟩
  | case3 n k ks ih₁ ih₂ =>
      have hk := h k List.mem_cons_self
      have htail := fun k' hk' => h k' (List.mem_cons_of_mem k hk')
      rw [throughNth, afterNth, afterNth, ← hk]
      split
      · next hp =>
          rw [if_pos hp] at htail
          exact ⟨congrArg _ (ih₁ htail).1, (ih₁ htail).2⟩
      · next hp =>
          rw [if_neg hp] at htail
          exact ⟨congrArg _ (ih₂ htail).1, (ih₂ htail).2⟩

theorem throughNth_map {ι : Type} (f : ι → κ) (n : Nat) (ks : List ι) :
    throughNth p n (ks.map f) = (throughNth (p ∘ f) n ks).map f := by
  induction ks generalizing n with
  | nil => cases n <;> rfl
  | cons k ks ih =>
      cases n with
      | zero => rfl
      | succ n =>
          rw [List.map_cons, throughNth, throughNth, Function.comp_apply, List.map_cons]
          split
          · rw [ih n]
          · rw [ih (n + 1)]

theorem afterNth_map {ι : Type} (f : ι → κ) (n : Nat) (ks : List ι) :
    afterNth p n (ks.map f) = (afterNth (p ∘ f) n ks).map f := by
  induction ks generalizing n with
  | nil => cases n <;> rfl
  | cons k ks ih =>
      cases n with
      | zero => rfl
      | succ n =>
          rw [List.map_cons, afterNth, afterNth, Function.comp_apply]
          split
          · exact ih n
          · exact ih (n + 1)

theorem filterMap_throughNth {β : Type} (f : κ → Option β) (n : Nat) (ks : List κ) :
    (throughNth (fun k => (f k).isSome) n ks).filterMap f = (ks.filterMap f).take n := by
  induction ks generalizing n with
  | nil => cases n <;> rfl
  | cons k ks ih =>
      cases n with
      | zero => rfl
      | succ n =>
          rw [throughNth, List.filterMap_cons, List.filterMap_cons]
          cases hk : f k with
          | none => exact ih (n + 1)
          | some y =>
              simp only [Option.isSome_some, if_true, List.take_succ_cons]
              rw [ih n]

end Nth

namespace DbKv

/-- What a key holds at a revision, if the version that says so is still in the table. -/
def visibleAt (db : DbKv) (r : UInt64) (k : Bytes) : Option Kv :=
  ((versions db.log k).find? (fun v => !v.tooNew r)).bind (fun v =>
    if v.rev ∈ (db.records k).map Keyrecord.rev then v.item else none)

def passesMod (a : RangeArgs) (e : Kv) : Bool :=
  !(decide (0 < a.minMod) && decide (e.rev.upper < a.minMod)) &&
    !(decide (0 < a.maxMod) && decide (a.maxMod < e.rev.upper))

def passesCreated (a : RangeArgs) (e : Kv) : Bool :=
  !(decide (0 < a.minCreated) && decide (e.created < a.minCreated)) &&
    !(decide (0 < a.maxCreated) && decide (a.maxCreated < e.created))

/-- What a range sees of a key before it decodes the record. -/
def candidate (db : DbKv) (a : RangeArgs) (k : Bytes) : Option Kv :=
  (db.visibleAt a.revision k).filter (passesMod a)

/-- The key holds something that passes all filters. -/
def passes (db : DbKv) (a : RangeArgs) (k : Bytes) : Bool :=
  (db.candidate a k).any (passesCreated a)

/-- The keys of a range, with or without something to see. -/
def rangeKeys (db : DbKv) (key rangeEnd : Bytes) : List Bytes :=
  (db.rev.keysFrom key).filter (fun k => decide (InRange key rangeEnd k))

/-- What the keys of a range hold, in the order of the keys. -/
def entriesAt (db : DbKv) (r : UInt64) (key rangeEnd : Bytes) : List Kv :=
  (db.rangeKeys key rangeEnd).filterMap (db.visibleAt r)

/-- What decoding the record of a key gives. -/
def reading (E : Env) (db : DbKv) (a : RangeArgs) (k : Bytes) : Except Err Kv :=
  match DbKv.descend k a.revision true (db.rev.dups k) [] with
  | .error e => .error e
  | .ok none => .error (.lmdb .notFound)
  | .ok (some f) =>
      match readRevs E db a.keysOnly (f.next ++ [f.rev]) {} none with
      | (_, some e) => .error e
      | (item, none) => .ok item

/-- What a range makes of a key, if it does not only count. -/
def sight (E : Env) (db : DbKv) (a : RangeArgs) (k : Bytes) : Option (Except Err Kv) :=
  (db.candidate a k).map (fun _ => reading E db a k)

def collected (a : RangeArgs) : Option (Except Err Kv) → Option Kv
  | some (.ok item) => if passesCreated a item then some item else none
  | _ => none

@[simp] theorem collected_none (a : RangeArgs) : collected a none = none := rfl

@[simp] theorem collected_error (a : RangeArgs) (e : Err) : collected a (some (.error e)) = none :=
  rfl

@[simp] theorem collected_ok (a : RangeArgs) (item : Kv) :
    collected a (some (.ok item)) = if passesCreated a item then some item else none := rfl

/-- The limit has been reached. -/
def RangeAcc.full (a : RangeArgs) (acc : RangeAcc) : Bool :=
  !acc.countOnly && decide (0 < a.limit) &&
    decide ((acc.items.length : Int) = a.limit.toInt64.toInt)

/-- One key.  The flag tells the loop to stop. -/
def rangeStep (E : Env) (a : RangeArgs) (acc : RangeAcc) (o : Option (Except Err Kv)) :
    Except Err (RangeAcc × Bool) :=
  if acc.full a && !E.flags.rangeCountFull && !E.flags.rangeCountFake then
    .ok ({ acc with more := true }, true)
  else
    let acc := if acc.full a then { acc with more := true, countOnly := true } else acc
    match o with
    | none => .ok (acc, false)
    | some x =>
        if acc.countOnly then .ok ({ acc with count := acc.count + 1 }, E.flags.rangeCountFake)
        else
          match x with
          | .error e => .error e
          | .ok item =>
              if passesCreated a item then
                .ok ({ acc with items := acc.items ++ [item], count := acc.count + 1 }, false)
              else .ok (acc, false)

def rangeFold (E : Env) (a : RangeArgs) : List (Option (Except Err Kv)) → RangeAcc →
    Except Err RangeAcc
  | [], acc => .ok acc
  | o :: os, acc =>
      match rangeStep E a acc o with
      | .error e => .error e
      | .ok (acc, stop) => if stop then .ok acc else rangeFold E a os acc

variable {E : Env} {S : Prop} {db : DbKv} {ch : Bytes → List Version} {lo hi : Nat}

section Walk

theorem head?_versionsAt (r : UInt64) (vs : List Version) :
    (versionsAt r vs).head? = vs.find? (fun v => !v.tooNew r) := by
  induction vs with
  | nil => rfl
  | cons v vs ih =>
      rw [versionsAt] at ih ⊢
      cases htoo : v.tooNew r with
      | true => rw [List.dropWhile_cons_of_pos htoo, List.find?_cons_of_neg (by simp [htoo]), ih]
      | false =>
          rw [List.dropWhile_cons_of_neg (by simp [htoo]), List.find?_cons_of_pos (by simp [htoo])]
          rfl

/-- The versions that are left decide.  One that is not left has no record. -/
theorem Rep.visibleAt_eq (h : db.Rep E S ch) (hlog : LogOk db.log lo hi) (r : UInt64) (k : Bytes) :
    db.visibleAt r k = current (versionsAt r (ch k)) := by
  obtain ⟨rest, hrest⟩ := h.kept k
  have hrecs : ∀ v : Version, v.rev ∈ (db.records k).map Keyrecord.rev ↔
      ∃ x ∈ ch k, x.rev = v.rev := by
    intro v
    rw [h.records_eq hlog, List.map_map, List.mem_map]
    rfl
  have hdesc := hlog.desc k
  rw [visibleAt, current, head?_versionsAt, ← hrest, List.find?_append]
  rw [← hrest] at hdesc
  cases hfind : (ch k).find? (fun v => !v.tooNew r) with
  | some v =>
      simp only [Option.some_or, Option.bind_some]
      rw [if_pos ((hrecs v).mpr ⟨v, List.mem_of_find?_eq_some hfind, rfl⟩)]
  | none =>
      simp only [Option.none_or, Option.bind_none]
      cases hfind' : rest.find? (fun v => !v.tooNew r) with
      | none => rfl
      | some v =>
          simp only [Option.bind_some]
          refine if_neg (fun hmem => ?_)
          obtain ⟨x, hx, heq⟩ := (hrecs v).mp hmem
          have hlt := (List.pairwise_append.mp hdesc).2.2 x hx v
            (List.mem_of_find?_eq_some hfind')
          rw [heq] at hlt
          exact absurd hlt (lt_irrefl _)

theorem Rep.key_of_visibleAt (h : db.Rep E S ch) (hlog : LogOk db.log lo hi) {r : UInt64}
    {k : Bytes} {e : Kv} (he : db.visibleAt r k = some e) : e.key = k := by
  rw [h.visibleAt_eq hlog] at he
  obtain ⟨v, hv, hitem⟩ := Option.bind_eq_some_iff.mp he
  have hmem := (List.dropWhile_sublist _).mem (List.mem_of_head? hv)
  exact (hlog.sound (h.mem_versions hmem) hitem).2.2.1

theorem passesMod_eq_false_iff {a : RangeArgs} {e : Kv} :
    passesMod a e = false ↔
      (0 < a.minMod ∧ e.rev.upper < a.minMod) ∨ 0 < a.maxMod ∧ a.maxMod < e.rev.upper := by
  simp only [passesMod, Bool.and_eq_false_iff, Bool.not_eq_false', Bool.and_eq_true,
    decide_eq_true_eq]

theorem passesCreated_eq_false_iff {a : RangeArgs} {e : Kv} :
    passesCreated a e = false ↔
      (0 < a.minCreated ∧ e.created < a.minCreated) ∨
        0 < a.maxCreated ∧ a.maxCreated < e.created := by
  simp only [passesCreated, Bool.and_eq_false_iff, Bool.not_eq_false', Bool.and_eq_true,
    decide_eq_true_eq]

/-- One key of a range. -/
theorem Rep.rangeKey_eq (h : db.Rep E S ch) (hlog : LogOk db.log lo hi) {a : RangeArgs}
    {k : Bytes} (hne : db.rev.dups k ≠ []) (acc : RangeAcc) :
    DbKv.rangeKey E db a k (db.rev.dups k) acc = rangeStep E a acc (sight E db a k) := by
  rcases h.dups_cases k with ⟨-, hdups⟩ | ⟨b, rest, krec, hdups, hdecode⟩
  · exact absurd hdups hne
  · have hwalk := fun keep => h.descend hlog k a.revision keep
    rw [sight, candidate, h.visibleAt_eq hlog, reading]
    rw [hdups] at hwalk ⊢
    rw [DbKv.rangeKey, hdecode, rangeStep]
    simp only
    rw [show (!acc.countOnly && decide (0 < a.limit) &&
      decide ((acc.items.length : Int) = a.limit.toInt64.toInt)) = acc.full a from rfl]
    split
    · rfl
    · generalize (if acc.full a = true then
        { acc with more := true, countOnly := true } else acc) = acc'
      rw [hwalk, hwalk]
      cases hat : (versionsAt a.revision (ch k)).head? with
      | none =>
          rw [current, hat]
          rfl
      | some v =>
          have hv : v ∈ versions db.log k :=
            h.mem_versions ((List.dropWhile_sublist _).mem (List.mem_of_head? hat))
          have hitem := hlog.item_isSome hv
          rw [current, hat]
          simp only [Option.map_some, Option.bind_some]
          cases he : v.item with
          | none =>
              have hdel : v.rev.isdel = true := by
                rw [he] at hitem
                simpa using hitem
              simp only [hdel, if_true, ite_self, Option.filter_none, Option.map_none]
          | some e =>
              have hlive : v.rev.isdel = false := hitem.mp (by rw [he]; rfl)
              have hrev : v.rev = e.rev := (item_of_mem_versions hv he).1.symm
              cases hmod : passesMod a e with
              | false =>
                  rw [Option.filter_some_neg (by simp [hmod])]
                  rcases passesMod_eq_false_iff.mp hmod with hmin | hmax
                  · rw [hrev, if_pos hmin]
                    rfl
                  · rw [hrev, if_pos hmax, ite_self]
                    rfl
              | true =>
                  have hpass := mt passesMod_eq_false_iff.mpr (ne_of_eq_of_ne hmod (by decide))
                  rw [not_or] at hpass
                  rw [Option.filter_some_pos (by simp [hmod]), Option.map_some, hrev,
                    if_neg hpass.1, if_neg hpass.2, ← hrev, hlive]
                  simp only [Bool.false_eq_true, if_false, if_true]
                  cases hcount : acc'.countOnly with
                  | true => rfl
                  | false =>
                      simp only [Bool.not_false, if_true, Bool.false_eq_true, if_false]
                      rcases readRevs E db a.keysOnly
                        ((decodedAbove a.revision (ch k)).map Version.rev ++ [v.rev]) {} none with
                        ⟨item, _ | err⟩
                      · cases hcr : passesCreated a item with
                        | false =>
                            simp only [hcr, Bool.false_eq_true, if_false]
                            rcases passesCreated_eq_false_iff.mp hcr with hmin | hmax
                            · rw [if_pos hmin]
                            · rw [if_pos hmax, ite_self]
                        | true =>
                            have hpass :=
                              mt passesCreated_eq_false_iff.mpr (ne_of_eq_of_ne hcr (by decide))
                            rw [not_or] at hpass
                            simp only [hcr, hpass.1, hpass.2, if_false, if_true]
                      · rfl

theorem Rep.rangeLoop_eq (h : db.Rep E S ch) (hlog : LogOk db.log lo hi) {a : RangeArgs}
    {key rangeEnd : Bytes} {ks : List Bytes} (hsorted : ks.Pairwise (· < ·))
    (hks : ∀ k ∈ ks, db.rev.dups k ≠ [] ∧ key ≤ k) (acc : RangeAcc) :
    DbKv.rangeLoop E db a key rangeEnd (ks.map (fun k => (k, db.rev.dups k))) acc =
      rangeFold E a
        ((ks.filter (fun k => decide (InRange key rangeEnd k))).map (sight E db a)) acc := by
  induction ks generalizing acc with
  | nil => rfl
  | cons k ks ih =>
      obtain ⟨hlt, hsorted⟩ := List.pairwise_cons.mp hsorted
      obtain ⟨hne, hle⟩ := hks k List.mem_cons_self
      rw [List.map_cons, DbKv.rangeLoop]
      by_cases hin : InRange key rangeEnd k
      · rw [if_neg (fun hover => (rangeOver_iff hle).mp hover hin),
          List.filter_cons_of_pos (by simpa using hin), List.map_cons, rangeFold,
          h.rangeKey_eq hlog hne]
        rcases rangeStep E a acc (sight E db a k) with e | ⟨acc', stop⟩
        · rfl
        · simp only [Bool.or_eq_true, decide_eq_true_eq]
          by_cases hstop : stop = true
          · rw [if_pos (.inl hstop), if_pos hstop]
          · rw [if_neg hstop]
            by_cases hend : rangeEnd = []
            · rw [if_pos (.inr hend), filter_inRange_eq_nil hle hlt (.inl hend)]
              rfl
            · rw [if_neg (by simp [hstop, hend])]
              exact ih hsorted (fun k' hk' => hks k' (List.mem_cons_of_mem _ hk')) _
      · rw [if_pos ((rangeOver_iff hle).mpr hin), List.filter_cons_of_neg (by simpa using hin),
          filter_inRange_eq_nil hle hlt (.inr hin)]
        rfl

/-- A range is the fold over what it makes of its keys. -/
theorem Rep.getRange_eq (h : db.Rep E S ch) (hlog : LogOk db.log lo hi) (a : RangeArgs)
    {key : Bytes} (rangeEnd : Bytes) (hkey : ValidKey key) :
    DbKv.getRange E db key rangeEnd a =
      (rangeFold E a ((db.rangeKeys key rangeEnd).map (sight E db a))
        { countOnly := a.countOnly }).map (fun acc => (acc.items, acc.count, acc.more)) := by
  rw [DbKv.getRange, rangeKeys]
  rcases seek_eq hkey with ⟨hs, hnil⟩ | hs
  · rw [hs, hnil]
    rfl
  · rw [hs]
    simp only
    rw [h.rangeLoop_eq hlog (db.rev.keysFrom_sorted key)
      (fun k hk => DupTable.mem_keysFrom.mp hk)]
    cases rangeFold E a _ _ <;> rfl

theorem readRevs_concat {keysOnly : Bool} {rs : List Keyrev} {r : Keyrev} {recv item : Kv}
    {next : Option Bytes} (h : readRevs E db keysOnly (rs ++ [r]) recv next = (item, none)) :
    ∃ recv' next' v, db.val.fetch r.key = .ok v ∧
      Kv.fromBytes E.codec recv' r.key v next' keysOnly = (item, none) := by
  induction rs generalizing recv next with
  | nil =>
      rw [List.nil_append, readRevs] at h
      split at h
      · cases (Prod.mk.inj h).2
      · next v hv =>
          split at h
          · cases (Prod.mk.inj h).2
          · next item' hitem =>
              rw [readRevs] at h
              rw [(Prod.mk.inj h).1] at hitem
              exact ⟨recv, next, v, hv, hitem⟩
  | cons r' rs ih =>
      rw [List.cons_append, readRevs] at h
      split at h
      · cases (Prod.mk.inj h).2
      · split at h
        · cases (Prod.mk.inj h).2
        · exact ih h

/-- A record that decodes shows the creation revision that was written. -/
theorem Rep.created_of_reading (h : db.Rep E S ch) (hlog : LogOk db.log lo hi) {a : RangeArgs}
    {k : Bytes} {e item : Kv} (he : db.visibleAt a.revision k = some e)
    (hread : reading E db a k = .ok item) : item.created = e.created := by
  rw [h.visibleAt_eq hlog] at he
  obtain ⟨v, hat, hitem⟩ := Option.bind_eq_some_iff.mp he
  have hmem : v ∈ ch k := (List.dropWhile_sublist _).mem (List.mem_of_head? hat)
  obtain ⟨hrev, hlive, hkey, hne, hlen⟩ := hlog.sound (h.mem_versions hmem) hitem
  obtain ⟨base, hget⟩ := (h.stored k).get hmem hitem
  rw [reading, h.descend hlog, hat] at hread
  simp only [Option.map_some, if_true] at hread
  split at hread
  · cases hread
  · next item' hr =>
      obtain rfl := Except.ok.inj hread
      obtain ⟨recv, next, b, hfetch, hdecode⟩ := readRevs_concat hr
      rw [Table.fetch, hget] at hfetch
      obtain rfl := Except.ok.inj hfetch
      rw [← hrev] at hdecode
      exact Kv.created_of_fromBytes hlive (by rw [hkey]; exact hne)
        (by rw [hkey]; exact lt_of_le_of_lt hlen (by decide)) hdecode

/-- Decoding the record of a key gives what was written, unless a record on the way is too
short. -/
theorem Rep.reading_eq (h : db.Rep E True ch) (hlog : LogOk db.log lo hi) {a : RangeArgs}
    {k : Bytes} {e : Kv} (he : db.visibleAt a.revision k = some e) :
    reading E db a k =
      if Readable a.revision (ch k) then .ok (e.shown a.keysOnly) else .error .checksumMissing := by
  rw [h.visibleAt_eq hlog] at he
  obtain ⟨v, hat, hitem⟩ := Option.bind_eq_some_iff.mp he
  rw [reading, h.descend hlog, hat]
  rcases h.read hlog hat hitem a.keysOnly with ⟨hread, heq⟩ | ⟨hread, item, heq⟩
  · simp only [Option.map_some, if_true, heq, if_pos hread]
  · simp only [Option.map_some, if_true, heq, if_neg hread]

end Walk

section Fold

variable {a : RangeArgs}

theorem RangeAcc.full_of_countOnly {acc : RangeAcc} (h : acc.countOnly = true) :
    acc.full a = false := by
  rw [RangeAcc.full, h]
  rfl

/-- A limit of 0, or one that is negative as a signed number, is never reached. -/
theorem RangeAcc.not_full (hnone : ¬ 0 < a.limit.toInt64.toInt) (acc : RangeAcc) :
    acc.full a = false := by
  have hlt : ¬ (0 < a.limit ∧ (acc.items.length : Int) = a.limit.toInt64.toInt) := by
    rintro ⟨hpos, hlen⟩
    have hzero : a.limit.toInt64.toInt = 0 := by omega
    have hlimit : a.limit.toInt64 = 0 := Int64.toInt.inj (by rw [hzero]; rfl)
    have : a.limit = 0 := by
      rw [← UInt64.toUInt64_toInt64 a.limit, hlimit]
      rfl
    rw [this] at hpos
    exact absurd hpos (by decide)
  rw [RangeAcc.full, Bool.and_assoc, ← Bool.decide_and, decide_eq_false hlt, Bool.and_false]

/-- How far the loop counts: to the end, or to the first. -/
def tally (E : Env) (n : Nat) : Nat := if E.flags.rangeCountFake then min n 1 else n

@[simp] theorem tally_zero : tally E 0 = 0 := by
  rw [tally, Nat.zero_min, ite_self]

theorem rangeFold_counting (os : List (Option (Except Err Kv))) {acc : RangeAcc}
    (hacc : acc.countOnly = true) :
    rangeFold E a os acc =
      .ok { acc with count := acc.count + tally E (os.countP Option.isSome) } := by
  induction os generalizing acc with
  | nil => simp [rangeFold]
  | cons o os ih =>
      rw [rangeFold, rangeStep, RangeAcc.full_of_countOnly hacc, List.countP_cons]
      cases o with
      | none => exact ih hacc
      | some x =>
          simp only [Bool.false_and, Bool.false_eq_true, if_false, hacc, if_true,
            Option.isSome_some]
          rw [tally]
          split
          · rw [Nat.min_eq_right (by omega)]
          · next hfake =>
              rw [ih rfl, tally, if_neg hfake, Nat.add_right_comm, Nat.add_assoc]

def RangeAcc.collect (acc : RangeAcc) (o : Option Kv) : RangeAcc :=
  { acc with items := acc.items ++ o.toList, count := acc.count + o.toList.length }

theorem rangeStep_error {acc : RangeAcc} (hacc : acc.countOnly = false)
    (hbelow : acc.full a = false) (e : Err) :
    rangeStep E a acc (some (.error e)) = .error e := by
  rw [rangeStep, hbelow]
  simp only [Bool.false_and, Bool.false_eq_true, if_false, hacc]

/-- Below the limit the loop keeps what passes. -/
theorem rangeStep_collect {acc : RangeAcc} (hacc : acc.countOnly = false)
    (hbelow : acc.full a = false) {o : Option (Except Err Kv)} (ho : ∀ e, o ≠ some (.error e)) :
    rangeStep E a acc o = .ok (acc.collect (collected a o), false) := by
  rw [rangeStep, hbelow, RangeAcc.collect]
  simp only [Bool.false_and, Bool.false_eq_true, if_false]
  rcases o with _ | e | item
  · simp
  · exact absurd rfl (ho e)
  · rcases acc with ⟨items, count, more, countOnly⟩
    obtain rfl : countOnly = false := hacc
    simp only [Bool.false_eq_true, if_false, collected_ok]
    split
    · rfl
    · simp

/-- Without a limit the loop collects, unless a record does not decode. -/
theorem rangeFold_collecting (hnone : ¬ 0 < a.limit.toInt64.toInt)
    (os : List (Option (Except Err Kv))) {acc acc' : RangeAcc} (hacc : acc.countOnly = false) :
    rangeFold E a os acc = .ok acc' ↔
      (∀ o ∈ os, ∀ e, o ≠ some (.error e)) ∧
        acc' = { acc with
          items := acc.items ++ os.filterMap (collected a)
          count := acc.count + (os.filterMap (collected a)).length } := by
  induction os generalizing acc with
  | nil =>
      simp only [rangeFold, List.filterMap_nil, List.append_nil, List.length_nil, Nat.add_zero]
      exact ⟨fun h => ⟨by simp, (Except.ok.inj h).symm⟩, fun h => by rw [h.2]⟩
  | cons o os ih =>
      rw [rangeFold, List.forall_mem_cons]
      by_cases ho : ∀ e, o ≠ some (.error e)
      · have hlist : (o :: os).filterMap (collected a) =
            (collected a o).toList ++ os.filterMap (collected a) := by
          rw [List.filterMap_cons]
          cases collected a o <;> rfl
        rw [rangeStep_collect hacc (RangeAcc.not_full hnone acc) ho, hlist]
        simp only [Bool.false_eq_true, if_false]
        rw [@ih (acc.collect (collected a o)) hacc, RangeAcc.collect, List.length_append,
          List.append_assoc, Nat.add_assoc]
        exact and_congr_left (fun _ => ⟨fun h => ⟨ho, h⟩, fun h => h.2⟩)
      · obtain ⟨e, he⟩ := not_forall.mp ho
        obtain rfl := not_not.mp he
        rw [rangeStep_error hacc (RangeAcc.not_full hnone acc)]
        exact ⟨fun h => (by cases h), fun h => absurd h.1.1 ho⟩

/-- With a limit it collects up to the limit, and then counts. -/
theorem rangeFold_limited (hfull : E.flags.rangeCountFull = true) {L n : Nat}
    (hL : a.limit.toInt64.toInt = L) (hpos : 0 < a.limit) (os : List (Option (Except Err Kv)))
    {acc : RangeAcc} (hacc : acc.countOnly = false) (hn : acc.items.length + n = L) :
    rangeFold E a os acc =
      match rangeFold E { a with limit := 0 }
        (throughNth (fun o => (collected a o).isSome) n os) acc with
      | .error e => .error e
      | .ok acc' =>
          if afterNth (fun o => (collected a o).isSome) n os = [] then .ok acc'
          else .ok { acc' with
            more := true
            countOnly := true
            count := acc'.count + tally E
              ((afterNth (fun o => (collected a o).isSome) n os).countP Option.isSome) } := by
  induction os generalizing n acc with
  | nil =>
      cases n <;> rfl
  | cons o os ih =>
      cases n with
      | zero =>
          have hreached : acc.full a = true := by
            rw [RangeAcc.full, hacc, decide_eq_true hpos, decide_eq_true (by rw [hL]; omega)]
            rfl
          have hswitch : rangeFold E a (o :: os) acc =
              rangeFold E a (o :: os) { acc with more := true, countOnly := true } := by
            rw [rangeFold, rangeFold, rangeStep, rangeStep, hreached, hfull,
              RangeAcc.full_of_countOnly (by rfl)]
            rfl
          rw [hswitch, rangeFold_counting _ rfl, throughNth, afterNth, rangeFold]
          rfl
      | succ n =>
          have hbelow : acc.full a = false := by
            have hne : (acc.items.length : Int) ≠ a.limit.toInt64.toInt := by
              rw [hL]
              omega
            rw [RangeAcc.full, decide_eq_false hne, Bool.and_false]
          have hbelow' : acc.full { a with limit := 0 } = false :=
            RangeAcc.not_full (a := { a with limit := 0 }) (by simp) acc
          rw [rangeFold, throughNth, afterNth, rangeFold]
          by_cases ho : ∀ e, o ≠ some (.error e)
          · rw [rangeStep_collect hacc hbelow ho, rangeStep_collect hacc hbelow' ho,
              show collected { a with limit := 0 } o = collected a o from rfl]
            simp only [Bool.false_eq_true, if_false]
            cases hk : collected a o with
            | none => exact ih hacc (by simpa [RangeAcc.collect] using hn)
            | some item => exact ih hacc (by simp [RangeAcc.collect]; omega)
          · obtain ⟨e, he⟩ := not_forall.mp ho
            obtain rfl := not_not.mp he
            rw [rangeStep_error hacc hbelow, rangeStep_error hacc hbelow']

end Fold

section Results

variable {a : RangeArgs} {key rangeEnd : Bytes}

/-- A range that returns has been given a key the table takes. -/
theorem validKey_of_getRange {out : List Kv × Nat × Bool}
    (h : DbKv.getRange E db key rangeEnd a = .ok out) : ValidKey key := by
  rintro rfl
  rw [DbKv.getRange, setRange_nil] at h
  cases h

/-- The items a range makes of some of its keys. -/
def itemsOf (E : Env) (db : DbKv) (a : RangeArgs) (ks : List Bytes) : List Kv :=
  ks.filterMap (fun k => collected a (sight E db a k))

/-- Without a limit a range returns what passes, unless some of it does not decode. -/
theorem Rep.getRange_unlimited (h : db.Rep E S ch) (hlog : LogOk db.log lo hi)
    (hcount : a.countOnly = false) (hnone : ¬ 0 < a.limit.toInt64) (hkey : ValidKey key)
    {out : List Kv × Nat × Bool} :
    DbKv.getRange E db key rangeEnd a = .ok out ↔
      (∀ k ∈ db.rangeKeys key rangeEnd, ∀ e, sight E db a k ≠ some (.error e)) ∧
        out = (itemsOf E db a (db.rangeKeys key rangeEnd),
          (itemsOf E db a (db.rangeKeys key rangeEnd)).length, false) := by
  have hnone : ¬ 0 < a.limit.toInt64.toInt :=
    fun hpos => hnone (Int64.lt_iff_toInt_lt.mpr hpos)
  have hfold := fun acc' => @rangeFold_collecting E a hnone
    ((db.rangeKeys key rangeEnd).map (sight E db a)) { countOnly := a.countOnly } acc' hcount
  simp only [List.filterMap_map, List.forall_mem_map, List.nil_append, Nat.zero_add] at hfold
  rw [h.getRange_eq hlog a rangeEnd hkey]
  constructor
  · intro hok
    cases hacc : rangeFold E a ((db.rangeKeys key rangeEnd).map (sight E db a))
        { countOnly := a.countOnly } with
    | error e =>
        rw [hacc] at hok
        cases hok
    | ok acc =>
        obtain ⟨hall, rfl⟩ := (hfold acc).mp hacc
        rw [hacc] at hok
        exact ⟨hall, (Except.ok.inj hok).symm⟩
  · rintro ⟨hall, rfl⟩
    rw [(hfold _).mpr ⟨hall, rfl⟩]
    rfl

theorem le_of_inRange {k : Bytes} (h : InRange key rangeEnd k) : key ≤ k := by
  rw [InRange] at h
  split at h
  · exact h.ge
  · exact h.1

theorem mem_rangeKeys {k : Bytes} :
    k ∈ db.rangeKeys key rangeEnd ↔ db.rev.dups k ≠ [] ∧ InRange key rangeEnd k := by
  rw [rangeKeys, List.mem_filter, DupTable.mem_keysFrom, decide_eq_true_eq]
  constructor
  · rintro ⟨⟨hne, -⟩, hin⟩
    exact ⟨hne, hin⟩
  · rintro ⟨hne, hin⟩
    exact ⟨⟨hne, le_of_inRange hin⟩, hin⟩

theorem Rep.mem_entriesAt (h : db.Rep E S ch) (hlog : LogOk db.log lo hi) {r : UInt64} {e : Kv} :
    e ∈ db.entriesAt r key rangeEnd ↔
      InRange key rangeEnd e.key ∧ db.visibleAt r e.key = some e := by
  rw [entriesAt, List.mem_filterMap]
  constructor
  · rintro ⟨k, hk, he⟩
    obtain rfl := h.key_of_visibleAt hlog he
    exact ⟨(mem_rangeKeys.mp hk).2, he⟩
  · rintro ⟨hin, he⟩
    refine ⟨e.key, mem_rangeKeys.mpr ⟨fun hnil => ?_, hin⟩, he⟩
    rw [h.dups, List.map_eq_nil_iff] at hnil
    rw [h.visibleAt_eq hlog, hnil] at he
    cases he

theorem Rep.entriesAt_sorted (h : db.Rep E S ch) (hlog : LogOk db.log lo hi) (r : UInt64)
    (key rangeEnd : Bytes) :
    (db.entriesAt r key rangeEnd).Pairwise (fun x y => x.key < y.key) := by
  refine List.pairwise_filterMap.mpr (((db.rev.keysFrom_sorted key).filter _).imp ?_)
  intro k k' hlt e he e' he'
  rw [h.key_of_visibleAt hlog he, h.key_of_visibleAt hlog he']
  exact hlt

/-- A range at a revision returns what its keys hold, if the record of every one decodes. -/
theorem Rep.getRange_entriesAt (h : db.Rep E S ch) (hlog : LogOk db.log lo hi)
    (hkey : ValidKey key) {r : UInt64} {good : Bytes → Kv → Prop} [∀ k e, Decidable (good k e)]
    (hread : ∀ k e, db.visibleAt r k = some e → reading E db { revision := r } k =
      if good k e then .ok e else .error .checksumMissing) {out : List Kv × Nat × Bool} :
    DbKv.getRange E db key rangeEnd { revision := r } = .ok out ↔
      (∀ k ∈ db.rangeKeys key rangeEnd, ∀ e ∈ db.visibleAt r k, good k e) ∧
        out = (db.entriesAt r key rangeEnd, (db.entriesAt r key rangeEnd).length, false) := by
  have hsight : ∀ k, sight E db { revision := r } k =
      (db.visibleAt r k).map (fun e => if good k e then .ok e else .error .checksumMissing) := by
    intro k
    rw [sight, candidate]
    cases he : db.visibleAt r k with
    | none => rfl
    | some e =>
        rw [Option.map_some, ← hread k e he]
        rfl
  have hok : (∀ k ∈ db.rangeKeys key rangeEnd, ∀ e,
      sight E db { revision := r } k ≠ some (.error e)) ↔
        ∀ k ∈ db.rangeKeys key rangeEnd, ∀ e ∈ db.visibleAt r k, good k e := by
    refine forall₂_congr (fun k _ => ?_)
    rw [hsight]
    cases db.visibleAt r k with
    | none => simp
    | some e => by_cases hgood : good k e <;> simp [hgood]
  rw [h.getRange_unlimited hlog rfl (by simp) hkey, hok]
  refine and_congr_right (fun hall => ?_)
  have hitems : itemsOf E db { revision := r } (db.rangeKeys key rangeEnd) =
      db.entriesAt r key rangeEnd := by
    refine List.filterMap_congr (fun k hk => ?_)
    rw [hsight]
    cases he : db.visibleAt r k with
    | none => rfl
    | some e =>
        rw [Option.map_some, if_pos (hall k hk e he)]
        rfl
  rw [hitems]

/-- A range at a revision returns what its keys hold exactly when every key of the range can be
read. -/
theorem Rep.getRange_at (h : db.Rep E True ch) (hlog : LogOk db.log lo hi) (hkey : ValidKey key)
    {r : UInt64} {out : List Kv × Nat × Bool} :
    DbKv.getRange E db key rangeEnd { revision := r } = .ok out ↔
      (∀ k, InRange key rangeEnd k → Readable r (ch k)) ∧
        out = (db.entriesAt r key rangeEnd, (db.entriesAt r key rangeEnd).length, false) := by
  rw [h.getRange_entriesAt hlog hkey (fun k e he => h.reading_eq hlog he)]
  refine and_congr_left (fun _ => ⟨fun hall k hin v hv hsome => ?_, fun hall k hk e _ => ?_⟩)
  · obtain ⟨e, he⟩ := Option.isSome_iff_exists.mp hsome
    have hvis : db.visibleAt r k = some e := by
      rw [h.visibleAt_eq hlog, current, hv]
      exact he
    have hmem : k ∈ db.rangeKeys key rangeEnd := mem_rangeKeys.mpr ⟨fun hnil => ?_, hin⟩
    · exact hall k hmem e hvis v hv hsome
    · rw [h.dups, List.map_eq_nil_iff] at hnil
      rw [hnil] at hv
      cases hv
  · exact hall k (mem_rangeKeys.mp hk).2

end Results

end DbKv

end Turbokube
