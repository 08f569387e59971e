import Mathlib.Data.List.ReduceOption
import Turbokube.Machine.Paging
import Turbokube.Store.Kept
import Turbokube.Store.Newest

/-!
# Ranges of a history

What a range returns is a function of what its keys held at the revision asked for, in the order
of the keys: `DbKv.listing` takes that list, and knows nothing of the tables.  Keys that hold
nothing at that revision show only in the flag `more`, which `listing` leaves out.
-/

namespace Turbokube

open Encoding Lmdb

/-- What a key holds at a revision.  Revision 0 asks for the newest. -/
def seenAt (log : List Write) (r : UInt64) (k : Bytes) : Option Kv :=
  current (versionsAt r (versions log k))

namespace DbKv

/-- How many of the entries behind the limit are counted. -/
def countedBehind (E : Env) (n : Nat) : Nat :=
  if E.flags.rangeCountFull || E.flags.rangeCountFake then tally E n else 0

/-- The items and the count of a range whose keys hold `es` in this order. -/
def listing (E : Env) (a : RangeArgs) (es : List Kv) : List Kv × Nat :=
  if a.countOnly then ([], tally E (es.filter (passesMod a)).length)
  else
    let kept := (es.filter (passesMod a)).filter (passesCreated a)
    if 0 < a.limit.toInt64 then
      ((kept.take a.limit.toNat).map (Kv.shown a.keysOnly),
        (kept.take a.limit.toNat).length + countedBehind E
          (afterNth (passesCreated a) a.limit.toNat (es.filter (passesMod a))).length)
    else (kept.map (Kv.shown a.keysOnly), kept.length)

variable {E : Env} {db : DbKv} {ch : Bytes → List Version} {lo hi bound C : Nat} {a : RangeArgs}

section Fold

@[simp] theorem passesCreated_shown (keysOnly : Bool) (e : Kv) :
    passesCreated a (e.shown keysOnly) = passesCreated a e := rfl

@[simp] theorem RangeAcc.collect_none (acc : RangeAcc) : acc.collect none = acc := by
  simp [RangeAcc.collect]

/-- What the loop is given when every record decodes. -/
def decoded (a : RangeArgs) (os : List (Option Kv)) : List (Option (Except Err Kv)) :=
  os.map (Option.map (fun e => .ok (e.shown a.keysOnly)))

theorem countP_decoded (os : List (Option Kv)) :
    (decoded a os).countP Option.isSome = os.reduceOption.length := by
  rw [decoded, List.countP_map]
  induction os with
  | nil => rfl
  | cons o os ih =>
      rw [List.countP_cons, ih]
      cases o with
      | none => rfl
      | some e => simp

/-- At the limit the loop stops, or it counts what is left. -/
theorem rangeFold_full {acc : RangeAcc} (hfull : acc.full a = true) (os : List (Option Kv)) :
    ∃ out, rangeFold E a (decoded a os) acc = .ok out ∧ out.items = acc.items ∧
      out.count = acc.count + countedBehind E os.reduceOption.length := by
  cases os with
  | nil =>
      refine ⟨acc, rfl, rfl, ?_⟩
      simp [countedBehind]
  | cons o os =>
      by_cases hmode : E.flags.rangeCountFull || E.flags.rangeCountFake
      · have hgo : (!E.flags.rangeCountFull && !E.flags.rangeCountFake) = false := by
          rw [← Bool.not_or, hmode]
          rfl
        have hswitch : rangeFold E a (decoded a (o :: os)) acc =
            rangeFold E a (decoded a (o :: os)) { acc with more := true, countOnly := true } := by
          rw [decoded, List.map_cons, rangeFold, rangeFold, rangeStep, rangeStep, hfull,
            RangeAcc.full_of_countOnly (by rfl), Bool.and_assoc, hgo]
          rfl
        rw [hswitch, rangeFold_counting _ rfl, countP_decoded]
        refine ⟨_, rfl, rfl, ?_⟩
        rw [countedBehind, if_pos hmode]
      · have hstop : (acc.full a && !E.flags.rangeCountFull && !E.flags.rangeCountFake) = true := by
          rw [Bool.and_assoc, ← Bool.not_or, hfull]
          simpa using hmode
        rw [decoded, List.map_cons, rangeFold, rangeStep, if_pos hstop]
        refine ⟨_, rfl, rfl, ?_⟩
        rw [countedBehind, if_neg hmode]
        rfl

/-- Below the limit it collects what passes, up to the limit. -/
theorem rangeFold_below {L n : Nat} (hL : a.limit.toInt64.toInt = L) (hpos : 0 < a.limit)
    (os : List (Option Kv)) {acc : RangeAcc} (hacc : acc.countOnly = false)
    (hn : acc.items.length + n = L) :
    ∃ out, rangeFold E a (decoded a os) acc = .ok out ∧
      out.items = acc.items ++
        ((os.reduceOption.filter (passesCreated a)).take n).map (Kv.shown a.keysOnly) ∧
      out.count = acc.count + ((os.reduceOption.filter (passesCreated a)).take n).length +
        countedBehind E (afterNth (passesCreated a) n os.reduceOption).length := by
  induction os generalizing n acc with
  | nil =>
      refine ⟨acc, rfl, by simp, ?_⟩
      cases n <;> simp [afterNth, countedBehind]
  | cons o os ih =>
      cases n with
      | zero =>
          have hfull : acc.full a = true := by
            rw [RangeAcc.full, hacc, decide_eq_true hpos, decide_eq_true (by rw [hL]; omega)]
            rfl
          obtain ⟨out, hout, hitems, hcount⟩ := @rangeFold_full E a acc hfull (o :: os)
          refine ⟨out, hout, ?_, ?_⟩
          · rw [hitems, List.take_zero, List.map_nil, List.append_nil]
          · rw [hcount, List.take_zero, afterNth, List.length_nil, Nat.add_zero]
      | succ n =>
          have hbelow : acc.full a = false := by
            have hne : (acc.items.length : Int) ≠ a.limit.toInt64.toInt := by
              rw [hL]
              omega
            rw [RangeAcc.full, decide_eq_false hne, Bool.and_false]
          have hstep : ∀ acc', rangeStep E a acc
              (o.map (fun e => .ok (e.shown a.keysOnly))) = .ok (acc', false) →
              rangeFold E a (decoded a (o :: os)) acc = rangeFold E a (decoded a os) acc' := by
            intro acc' hstep
            rw [decoded, List.map_cons, rangeFold, hstep]
            rfl
          have hcollect := rangeStep_collect (E := E) hacc hbelow
            (o := o.map (fun e => .ok (e.shown a.keysOnly))) (by cases o <;> simp)
          rw [hstep _ hcollect]
          cases o with
          | none =>
              rw [Option.map_none, collected_none, RangeAcc.collect_none,
                List.reduceOption_cons_of_none]
              exact ih hacc hn
          | some e =>
              rw [List.reduceOption_cons_of_some, List.filter_cons, afterNth, Option.map_some,
                collected_ok, passesCreated_shown]
              by_cases hpass : passesCreated a e = true
              · rw [if_pos hpass, if_pos hpass, if_pos hpass]
                obtain ⟨out, hout, hitems, hcount⟩ := @ih n
                  (acc.collect (some (e.shown a.keysOnly))) hacc
                  (by simp [RangeAcc.collect]; omega)
                refine ⟨out, hout, ?_, ?_⟩
                · rw [hitems]
                  simp [RangeAcc.collect]
                · rw [hcount]
                  simp [RangeAcc.collect]
                  omega
              · rw [if_neg hpass, if_neg hpass, if_neg hpass]
                rw [RangeAcc.collect_none]
                exact ih hacc hn

theorem filterMap_decoded (os : List (Option Kv)) :
    (decoded a os).filterMap (collected a) =
      (os.reduceOption.filter (passesCreated a)).map (Kv.shown a.keysOnly) := by
  induction os with
  | nil => rfl
  | cons o os ih =>
      rw [decoded] at ih
      cases o with
      | none =>
          rw [List.reduceOption_cons_of_none, ← ih]
          rfl
      | some e =>
          rw [decoded, List.map_cons, Option.map_some, List.filterMap_cons, collected_ok,
            passesCreated_shown, List.reduceOption_cons_of_some, List.filter_cons, ih]
          by_cases hpass : passesCreated a e = true
          · rw [if_pos hpass, if_pos hpass]
            rfl
          · rw [if_neg hpass, if_neg hpass]

/-- The items and the count of a range over keys that hold `os`. -/
theorem rangeFold_listing (os : List (Option Kv)) :
    ∃ more, (rangeFold E a (decoded a (os.map (Option.filter (passesMod a))))
        { countOnly := a.countOnly }).map (fun acc => (acc.items, acc.count, acc.more)) =
        .ok ((listing E a os.reduceOption).1, (listing E a os.reduceOption).2, more) ∧
      (¬ 0 < a.limit.toInt64 → more = false) := by
  have hhits : (os.map (Option.filter (passesMod a))).reduceOption =
      os.reduceOption.filter (passesMod a) := by
    induction os with
    | nil => rfl
    | cons o os ih =>
        cases o with
        | none => simpa using ih
        | some e =>
            rw [List.map_cons, Option.filter_some, List.reduceOption_cons_of_some, List.filter_cons]
            split
            · rw [List.reduceOption_cons_of_some, ih]
            · rw [List.reduceOption_cons_of_none, ih]
  rw [listing]
  by_cases hcount : a.countOnly = true
  · rw [if_pos hcount, rangeFold_counting _ hcount, countP_decoded, hhits]
    exact ⟨false, by simp [Except.map], fun _ => rfl⟩
  · have hcount' : a.countOnly = false := by simpa using hcount
    rw [if_neg hcount, ← hhits]
    by_cases hlimit : 0 < a.limit.toInt64
    · have hL := toInt_limit hlimit
      have hpos : 0 < a.limit := by
        have hlt : 0 < a.limit.toInt64.toInt := Int64.lt_iff_toInt_lt.mp hlimit
        rw [UInt64.lt_iff_toNat_lt, UInt64.toNat_zero]
        omega
      obtain ⟨out, hout, hitems, hcnt⟩ := @rangeFold_below E a _ a.limit.toNat hL hpos
        (os.map (Option.filter (passesMod a))) { countOnly := a.countOnly } hcount' (by simp)
      rw [hout, if_pos hlimit]
      refine ⟨out.more, ?_, fun hnot => absurd hlimit hnot⟩
      simp only [Except.map, hitems, hcnt, List.nil_append, Nat.zero_add]
    · have hnone : ¬ 0 < a.limit.toInt64.toInt :=
        fun hpos => hlimit (Int64.lt_iff_toInt_lt.mpr hpos)
      have hok := (@rangeFold_collecting E a hnone
        (decoded a (os.map (Option.filter (passesMod a)))) { countOnly := a.countOnly } _
        hcount').mpr ⟨?_, rfl⟩
      · rw [hok, if_neg hlimit, filterMap_decoded]
        exact ⟨false, by simp [Except.map], fun _ => rfl⟩
      · intro o ho e heq
        rw [decoded, List.mem_map] at ho
        obtain ⟨x, -, rfl⟩ := ho
        cases x <;> simp at heq

end Fold

section History

theorem Rep.sight_eq (h : db.Rep E True ch) (hlog : LogOk db.log lo hi) (hshort : NoShort db.log)
    (k : Bytes) :
    sight E db a k = ((db.visibleAt a.revision k).filter (passesMod a)).map
      (fun e => .ok (e.shown a.keysOnly)) := by
  rw [sight, candidate]
  cases he : db.visibleAt a.revision k with
  | none => rfl
  | some e =>
      rw [h.reading_eq hlog he, if_pos (h.readable hshort a.revision k), Option.filter_some]
      split <;> rfl

/-- A range is the listing of what its keys hold. -/
theorem Rep.getRange_listing (h : db.Rep E True ch) (hlog : LogOk db.log lo hi)
    (hshort : NoShort db.log) (a : RangeArgs) {key : Bytes} (hkey : ValidKey key)
    (rangeEnd : Bytes) :
    ∃ more, DbKv.getRange E db key rangeEnd a =
        .ok ((listing E a (db.entriesAt a.revision key rangeEnd)).1,
          (listing E a (db.entriesAt a.revision key rangeEnd)).2, more) ∧
      (¬ 0 < a.limit.toInt64 → more = false) := by
  obtain ⟨more, hfold, hmore⟩ := @rangeFold_listing E a
    ((db.rangeKeys key rangeEnd).map (db.visibleAt a.revision))
  refine ⟨more, ?_, hmore⟩
  rw [h.getRange_eq hlog a rangeEnd hkey]
  have hsight : (db.rangeKeys key rangeEnd).map (sight E db a) =
      decoded a (((db.rangeKeys key rangeEnd).map (db.visibleAt a.revision)).map
        (Option.filter (passesMod a))) := by
    rw [decoded, List.map_map, List.map_map]
    exact List.map_congr_left (fun k _ => h.sight_eq hlog hshort k)
  rw [hsight, hfold, List.reduceOption, List.filterMap_map]
  rfl

variable {S : Prop}

/-- From the last compaction on the tables show what the history says. -/
theorem KeptFrom.visibleAt_eq (h : db.KeptFrom E S C bound) {r : UInt64}
    (hr : r = 0 ∨ C ≤ r.toNat) (k : Bytes) : db.visibleAt r k = seenAt db.log r k := by
  obtain ⟨ch, hrep, hlog, hcut⟩ := h
  rw [hrep.visibleAt_eq hlog, seenAt]
  rcases hr with rfl | hr
  · rw [versionsAt_zero, versionsAt_zero, hrep.current_eq]
  · rw [current, current, hcut.head?_versionsAt (hrep.kept k) hr]

/-- The entries of a range are in the order of their keys, and they are what the history has
at the revision. -/
theorem KeptFrom.entriesAt_spec (h : db.KeptFrom E S C bound) {r : UInt64}
    (hr : r = 0 ∨ C ≤ r.toNat) (key rangeEnd : Bytes) :
    (db.entriesAt r key rangeEnd).Pairwise (fun x y => x.key < y.key) ∧
      ∀ e, e ∈ db.entriesAt r key rangeEnd ↔
        InRange key rangeEnd e.key ∧ seenAt db.log r e.key = some e := by
  have hvis := h.visibleAt_eq hr
  obtain ⟨ch, hrep, hlog, -⟩ := h
  exact ⟨hrep.entriesAt_sorted hlog r key rangeEnd, fun e => by rw [hrep.mem_entriesAt hlog, hvis]⟩

end History

end DbKv

end Turbokube
