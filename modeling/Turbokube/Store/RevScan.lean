import Turbokube.Model.StorageStream
import Turbokube.Store.Events

/-!
# The events of a list of revisions

`revScan` reads one operation of each revision.  When the events of each revision come from
one operation (`OneOp`) that is all of them, and the running index that matches an event with
a notice (`indexed`) is the position of its revision in the list.
-/

namespace Turbokube

open Encoding Lmdb

theorem mapM_eq_ok {α β : Type} {f : α → Except Err β} {g : α → β} {l : List α}
    (h : ∀ x ∈ l, f x = .ok (g x)) : l.mapM f = .ok (l.map g) := by
  induction l with
  | nil => rfl
  | cons x l ih =>
      rw [List.mapM_cons, h x List.mem_cons_self, ih (fun y hy => h y (List.mem_cons_of_mem _ hy))]
      rfl

namespace DbKv

/-- There are events of revision `r`, and they are those of one operation. -/
def OneOp (db : DbKv) (r : Nat) : Prop :=
  ∃ kr : Keyrev, kr.upper.toNat = r ∧ (∃ evt ∈ db.events, evt.rev = kr) ∧
    ∀ evt ∈ db.events, evt.rev.upper.toNat = r → evt.rev = kr

def eventsAt (db : DbKv) (r : UInt64) : List KvEvent :=
  db.events.filter (fun evt => evt.rev.upper = r)

variable {db : DbKv} {r : UInt64}

theorem upper_eq_of_mem_eventsAt {evt : KvEvent} (h : evt ∈ db.eventsAt r) : evt.rev.upper = r := by
  simpa using (List.mem_filter.mp h).2

theorem OneOp.eventsAt_ne_nil (h : db.OneOp r.toNat) : db.eventsAt r ≠ [] := by
  obtain ⟨kr, hkr, ⟨evt, hevt, rfl⟩, -⟩ := h
  exact List.ne_nil_of_mem (List.mem_filter.mpr ⟨hevt, by simpa using UInt64.toNat_inj.mp hkr⟩)

/-- The cursor finds the operation of the revision. -/
theorem OneOp.seek (h : db.OneOp r.toNat) (hok : ∀ p ∈ db.evt.pairs, EvtOk p) :
    ∃ k rest, db.evt.seek (putUint64 (r <<< 12)) = (k, db.evt.dups k) :: rest ∧
      (db.evt.dups k).mapM (evtFromBytes k) = .ok (db.eventsAt r) := by
  obtain ⟨kr, hkr, ⟨evt, hevt, hrev⟩, hone⟩ := h
  have hkey : ∀ p ∈ db.evt.pairs, p.1 = (decodeEvt p).rev.key := fun p hp =>
    congrArg Prod.fst (hok p hp)
  have hstart : ((⟨r <<< 12⟩ : Keyrev).word).toNat = r.toNat * 4096 := by
    have hlt := kr.word.toNat_lt
    rw [Keyrev.upper_toNat] at hkr
    have hshift : (12 : UInt64).toNat % 64 = 12 := by decide
    rw [UInt64.toNat_shiftLeft, hshift, Nat.shiftLeft_eq]
    omega
  have hne : db.evt.dups kr.key ≠ [] := by
    obtain ⟨p, hp, rfl⟩ := List.mem_map.mp hevt
    have hmem := DupTable.mem_pairs.mp hp
    rw [hkey p hp, hrev] at hmem
    exact List.ne_nil_of_mem hmem
  -- the first operation at or after the start of the revision is the only one of it
  have hfirst : ∀ x, (⟨r <<< 12⟩ : Keyrev).key ≤ x → db.evt.dups x ≠ [] → kr.key ≤ x := by
    intro x hle hx
    obtain ⟨v, hv⟩ := List.exists_mem_of_ne_nil _ hx
    have hp : (x, v) ∈ db.evt.pairs := DupTable.mem_pairs.mpr hv
    have hx' : x = (decodeEvt (x, v)).rev.key := hkey _ hp
    rw [hx', Keyrev.key_le_key_iff, hstart] at hle
    rw [hx', Keyrev.key_le_key_iff]
    by_cases hup : (decodeEvt (x, v)).rev.upper.toNat = r.toNat
    · rw [hone _ (List.mem_map_of_mem hp) hup]
    · rw [Keyrev.upper_toNat] at hup hkr
      omega
  have hle : (⟨r <<< 12⟩ : Keyrev).key ≤ kr.key := by
    rw [Keyrev.key_le_key_iff, hstart, ← hkr, Keyrev.upper_toNat]
    omega
  obtain ⟨rest, hseek⟩ := DupTable.seek_of_first hle hne hfirst
  have hat : db.eventsAt r = ((db.evt.dups kr.key).map (fun v => (kr.key, v))).map decodeEvt := by
    rw [eventsAt, events, List.filter_map, ← DupTable.pairs_filter_key]
    refine congrArg _ (List.filter_congr (fun p hp => decide_eq_decide.mpr ?_))
    rw [hkey p hp]
    constructor
    · intro hup
      rw [hone _ (List.mem_map_of_mem hp) (congrArg UInt64.toNat hup)]
    · intro heq
      rw [Keyrev.key_inj heq]
      exact UInt64.toNat_inj.mp hkr
  refine ⟨kr.key, rest, hseek, ?_⟩
  rw [hat, List.map_map]
  refine mapM_eq_ok (fun v hv => ?_)
  have hp := hok (kr.key, v) (DupTable.mem_pairs.mpr hv)
  exact evtFromBytes_of_evtOk hp

end DbKv

namespace StorageKv

open DbKv

variable {db : DbKv} {revs : List UInt64}

theorem revScan_eq (hok : ∀ p ∈ db.evt.pairs, EvtOk p) (h : ∀ r ∈ revs, db.OneOp r.toNat) :
    revScan db revs = .ok (revs.flatMap db.eventsAt) := by
  induction revs with
  | nil => rfl
  | cons r revs ih =>
      obtain ⟨k, rest, hseek, hevts⟩ := (h r List.mem_cons_self).seek hok
      rw [revScan, hseek]
      simp only [hevts]
      rw [ih (fun r' hr' => h r' (List.mem_cons_of_mem _ hr'))]
      rfl

/-- In the order of the table, the events of ascending revisions are the selected ones. -/
theorem flatMap_eventsAt
    (hsorted : db.events.Pairwise (fun a b => a.rev.word.toNat ≤ b.rev.word.toNat))
    (hasc : revs.Pairwise (· < ·)) :
    revs.flatMap db.eventsAt = db.events.filter (fun evt => evt.rev.upper ∈ revs) := by
  induction revs with
  | nil => simp
  | cons r revs ih =>
      obtain ⟨hr, hasc⟩ := List.pairwise_cons.mp hasc
      rw [List.flatMap_cons, ih hasc, eventsAt]
      -- below the next revision there are only events of `r`, from it on none
      obtain ⟨low, high, hsplit, hlow, hhigh⟩ := split_of_sorted hsorted ((r.toNat + 1) * 4096)
      rw [hsplit]
      simp only [List.filter_append]
      have hlow' : low.filter (fun evt => evt.rev.upper ∈ revs) = [] := by
        refine List.filter_eq_nil_iff.mpr (fun evt hevt hmem => ?_)
        have hlt := hlow evt hevt
        have hgt := UInt64.lt_iff_toNat_lt.mp (hr _ (of_decide_eq_true hmem))
        rw [Keyrev.upper_toNat] at hgt
        omega
      have hhigh' : high.filter (fun evt => evt.rev.upper = r) = [] := by
        refine List.filter_eq_nil_iff.mpr (fun evt hevt heq => ?_)
        have hge := hhigh evt hevt
        have hup := Keyrev.upper_toNat evt.rev
        rw [of_decide_eq_true heq] at hup
        omega
      rw [hlow', hhigh', List.append_nil, List.nil_append]
      refine congrArg₂ _ (List.filter_congr (fun evt hevt => ?_))
        (List.filter_congr (fun evt hevt => ?_))
      · have hnot := List.filter_eq_nil_iff.mp hlow' evt hevt
        simp only [decide_eq_true_eq] at hnot
        simp [hnot]
      · have hnot := List.filter_eq_nil_iff.mp hhigh' evt hevt
        simp only [decide_eq_true_eq] at hnot
        simp [hnot]

/-- Within the events of one revision the index stands still. -/
theorem indexed_append {r : UInt64} {i : Nat} {evts rest : List KvEvent}
    (h : ∀ evt ∈ evts, evt.rev.upper = r) :
    indexed r i (evts ++ rest) = evts.map (fun evt => (i, evt)) ++ indexed r i rest := by
  induction evts with
  | nil => rfl
  | cons evt evts ih =>
      have hup := h evt List.mem_cons_self
      have hsame : (if r ≠ r ∧ 0 < r then i + 1 else i) = i := if_neg (fun hne => hne.1 rfl)
      rw [List.cons_append, indexed, hup]
      simp only [hsame]
      rw [ih (fun e he => h e (List.mem_cons_of_mem _ he))]
      rfl

/-- From one group of events to the next the index moves by one.  `n` is the revision of the
group before, the last of `pre`, if there was one. -/
theorem indexed_groups {group : UInt64 → List KvEvent} {n : UInt64} {i : Nat} {pre : List UInt64}
    (hgroup : ∀ r ∈ revs, group r ≠ [] ∧ ∀ evt ∈ group r, evt.rev.upper = r)
    (hasc : (n :: revs).Pairwise (· < ·)) (hpre : pre.length = if 0 < n then i + 1 else i) :
    ∀ p ∈ indexed n i (revs.flatMap group), (pre ++ revs)[p.1]? = some p.2.rev.upper := by
  induction revs generalizing n i pre with
  | nil => intro p hp; cases hp
  | cons r revs ih =>
      obtain ⟨hn, hrevs⟩ := List.pairwise_cons.mp hasc
      obtain ⟨hne, hup⟩ := hgroup r List.mem_cons_self
      have hlt : n < r := hn r List.mem_cons_self
      have hpos : 0 < r := by
        rw [UInt64.lt_iff_toNat_lt] at hlt ⊢
        exact Nat.zero_lt_of_lt hlt
      obtain ⟨evt, evts, hevts⟩ := List.exists_cons_of_ne_nil hne
      rw [hevts] at hup
      have hfirst : evt.rev.upper = r := hup evt List.mem_cons_self
      have hmove : (if n ≠ r ∧ 0 < n then i + 1 else i) = pre.length := by
        rw [hpre]
        have hdiff : n ≠ r := fun heq => by
          rw [heq] at hlt
          exact absurd hlt (UInt64.lt_irrefl r)
        simp [hdiff]
      have hrest : ∀ p ∈ indexed r pre.length (revs.flatMap group),
          (pre ++ [r] ++ revs)[p.1]? = some p.2.rev.upper := ih
        (fun r' hr' => hgroup r' (List.mem_cons_of_mem _ hr')) hrevs (by simp [hpos])
      rw [List.flatMap_cons, hevts, List.cons_append, indexed, hfirst]
      simp only [hmove]
      rw [indexed_append (fun e he => hup e (List.mem_cons_of_mem _ he))]
      have hat : (pre ++ r :: revs)[pre.length]? = some r := by simp
      intro p hp
      rcases List.mem_cons.mp hp with rfl | hp
      · rw [hfirst]
        exact hat
      · rcases List.mem_append.mp hp with hp | hp
        · obtain ⟨e, he, rfl⟩ := List.mem_map.mp hp
          rw [hup e (List.mem_cons_of_mem _ he)]
          exact hat
        · have := hrest p hp
          rwa [List.append_assoc, List.singleton_append] at this

end StorageKv

end Turbokube
