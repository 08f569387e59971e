import Turbokube.Model.StorageKv
import Turbokube.Store.Clearing

/-!
# Compaction in pieces

A call of the module removes the first of the events that its cursor meets below the
compacted revision, and prunes the keys they name.  Two pieces of the work in a row are
one (`Piece.append`).  When the cursor steps over no event, neither does that of the next
call, so that calls until one finds nothing to do remove all that one call of the native
store removes (`compactAll_eq`).  An event that was stepped over is found by the next
call, so otherwise the calls remove more (`compactAll_complete`).
-/

namespace Turbokube

open Encoding Lmdb

namespace DbKv

variable {E F : Env} {S : Prop} {db d d' : DbKv} {ch : Bytes → List Version} {lo hi : Nat}
  {max : UInt64} {gone gone' : List (Bytes × Bytes)}

theorem threshold_append {l l' : List KvEvent} (hsorted : (l ++ l').Pairwise
      (fun a b => a.rev.word.toNat ≤ b.rev.word.toNat)) (k : Bytes) :
    threshold (l ++ l') k = Nat.max (threshold l k) (threshold l' k) := by
  obtain ⟨hl, hl', -⟩ := List.pairwise_append.mp hsorted
  refine le_antisymm ?_ (Nat.max_le.mpr ⟨?_, ?_⟩)
  · rcases threshold_eq (l ++ l') k with ⟨hzero, -⟩ | ⟨evt, hevt, rfl, heq⟩
    · rw [hzero]
      exact Nat.zero_le _
    · rw [heq]
      rcases List.mem_append.mp hevt with hevt | hevt
      · exact (le_threshold hl hevt).trans (Nat.le_max_left _ _)
      · exact (le_threshold hl' hevt).trans (Nat.le_max_right _ _)
  · rcases threshold_eq l k with ⟨hzero, -⟩ | ⟨evt, hevt, rfl, heq⟩
    · rw [hzero]
      exact Nat.zero_le _
    · rw [heq]
      exact le_threshold hsorted (List.mem_append_left _ hevt)
  · rcases threshold_eq l' k with ⟨hzero, -⟩ | ⟨evt, hevt, rfl, heq⟩
    · rw [hzero]
      exact Nat.zero_le _
    · rw [heq]
      exact le_threshold hsorted (List.mem_append_right _ hevt)

/-- Pruning what is left after pruning. -/
theorem Pruned.trans {T T' : Bytes → Nat} (h : Pruned ch db T d)
    (h' : Pruned (fun k => (ch k).filter (fun x => T k ≤ x.rev.word.toNat)) d T' d') :
    Pruned ch db (fun k => Nat.max (T k) (T' k)) d' where
  log := h'.log.trans h.log
  dups k := by
    rw [h'.dups, List.filter_filter]
    refine congrArg _ (List.filter_congr (fun x _ => ?_))
    simp [Bool.and_comm]
  sub k hne := by
    rw [h'.sub k hne, h.sub k]
    intro hnil
    rw [h.dups, List.map_eq_nil_iff] at hnil
    simp [h'.dups, hnil] at hne
  val rk v := by
    rw [h'.val, h.val, and_assoc]
    refine and_congr_right (fun _ => ⟨?_, fun hall => ⟨?_, ?_⟩⟩)
    · rintro ⟨hT, hT'⟩ k x hx hlive hrk
      have hle := hT k x hx hlive hrk
      exact Nat.max_le.mpr ⟨hle, hT' k x (List.mem_filter.mpr ⟨hx, by simpa using hle⟩) hlive hrk⟩
    · exact fun k x hx hlive hrk => (Nat.max_le.mp (hall k x hx hlive hrk)).1
    · exact fun k x hx hlive hrk =>
        (Nat.max_le.mp (hall k x (List.mem_filter.mp hx).1 hlive hrk)).2

theorem sub_dropEvents {t : DupTable Bytes Bytes} {k : Bytes}
    (h : (dropEvents gone t).dups k ≠ []) : (dropEvents gone t).sub k = t.sub k := by
  induction gone generalizing t with
  | nil => rfl
  | cons p gone ih =>
      rw [show dropEvents (p :: gone) t = dropEvents gone (t.delDup p.1 p.2) from rfl] at h ⊢
      rw [ih h]
      refine DupTable.sub_delDup (fun hnil => ?_)
      obtain ⟨v, hv⟩ := List.exists_mem_of_ne_nil _ h
      have hmem := (mem_dropEvents.mp hv).1
      rw [hnil] at hmem
      cases hmem

namespace Piece

theorem append (hp : Piece ch db gone d) (hp' : Piece (rest ch gone) d gone' d')
    (h : db.Rep E S ch) (hsub : (gone ++ gone').Sublist db.evt.pairs) :
    Piece ch db (gone ++ gone') d' := by
  have hsorted : ((gone ++ gone').map decodeEvt).Pairwise
      (fun a b => a.rev.word.toNat ≤ b.rev.word.toNat) :=
    h.events_sorted.sublist (hsub.map decodeEvt)
  rw [List.map_append] at hsorted
  refine ⟨hsub, ?_, ?_⟩
  · rw [List.map_append, funext (threshold_append hsorted)]
    exact hp.pruned.trans hp'.pruned
  · rw [hp'.evt, hp.evt, dropEvents, dropEvents, dropEvents, List.foldl_append]

theorem event_of_event (hp : Piece ch db gone d) {evt : KvEvent} (hevt : evt ∈ d.events) :
    evt ∈ db.events := by
  obtain ⟨p, hmem, rfl⟩ := List.mem_map.mp hevt
  exact List.mem_map_of_mem (hp.mem_pairs.mp hmem).1

/-- Events that are left are met as before. -/
theorem met (hp : Piece ch db gone d) (h : db.Rep E S ch) {evt : KvEvent} (hevt : evt ∈ d.events)
    (hmet : db.Met evt) : d.Met evt := by
  rcases hmet with hsub | hfirst
  · left
    obtain ⟨p, hmem, rfl⟩ := List.mem_map.mp hevt
    have hne : d.evt.dups (decodeEvt p).rev.key ≠ [] := by
      rw [← h.key_of_evt (hp.mem_pairs.mp hmem).1]
      exact dups_ne_nil_of_mem hmem
    rw [hp.evt] at hne
    rw [Several, hp.evt, sub_dropEvents hne]
    exact hsub
  · exact .inr (fun e he => hfirst e (hp.event_of_event he))

theorem stepsOverNone_left (hp : Piece ch db gone d) (h : db.Rep E S ch)
    (hnone : db.StepsOverNone max) : d.StepsOverNone max :=
  fun evt hevt hlt => hp.met h hevt (hnone evt (hp.event_of_event hevt) hlt)

theorem stopsAt_left (hp : Piece ch db gone d) (h : db.Rep E S ch)
    (hgone : ∀ p ∈ gone, ¬ max ≤ (decodeEvt p).rev.upper) (hstop : db.StopsAt max) :
    d.StopsAt max := by
  have hleft : ∀ evt ∈ db.events, max ≤ evt.rev.upper → evt ∈ d.events := by
    intro evt hevt hle
    obtain ⟨p, hmem, rfl⟩ := List.mem_map.mp hevt
    exact List.mem_map_of_mem (hp.mem_pairs.mpr ⟨hmem, fun hin => hgone p hin hle⟩)
  obtain ⟨evt, hevt, hle, hmet | ⟨e, he, hle', hne⟩⟩ := hstop
  · exact ⟨evt, hleft evt hevt hle, hle, .inl (hp.met h (hleft evt hevt hle) hmet)⟩
  · exact ⟨evt, hleft evt hevt hle, hle, .inr ⟨e, hleft e he hle', hle', hne⟩⟩

/-- What was still to be removed is `gone` and what is to be removed now. -/
theorem removedEvents_eq {limit : Nat} (hp : Piece ch db ((db.removedEvents max).take limit) d)
    (h : db.Rep E S ch) (hlog : LogOk db.log lo hi) (hpos : 0 < max)
    (hnone : db.StepsOverNone max) :
    db.removedEvents max = (db.removedEvents max).take limit ++ d.removedEvents max := by
  have hrep := (hp.shortened h hlog).rep h hlog
  have hsorted := db.evt.pairs_sorted.sublist (db.removedEvents_sublist max)
  have hdrop : d.removedEvents max = (db.removedEvents max).drop limit := by
    refine DupTable.pairs_ext (d.evt.pairs_sorted.sublist (d.removedEvents_sublist max))
      (hsorted.sublist (List.drop_sublist _ _)) (fun p => ?_)
    rw [mem_removedEvents_iff hpos (hrep.stepsOverNone_iff.mp (hp.stepsOverNone_left h hnone)),
      hp.mem_pairs, and_right_comm, ← mem_removedEvents_iff hpos (h.stepsOverNone_iff.mp hnone)]
    conv => lhs; lhs; rw [← List.take_append_drop limit (db.removedEvents max), List.mem_append]
    rw [← List.take_append_drop limit (db.removedEvents max)] at hsorted
    refine ⟨fun hmem => hmem.1.resolve_left hmem.2, fun hmem => ⟨.inr hmem, fun htake => ?_⟩⟩
    rcases (List.pairwise_append.mp hsorted).2.2 p htake p hmem with hself | ⟨-, hself⟩
    · exact lt_irrefl _ hself
    · exact lt_irrefl _ hself
  rw [hdrop, List.take_append_drop]

end Piece

end DbKv

namespace StorageKv

open DbKv

variable {E F : Env} {S : Prop} {db d : DbKv} {ch : Bytes → List Version} {lo hi : Nat}
  {limit : Nat} {max : UInt64}

/-- The loop over events below `max` that the budget covers. -/
theorem compactLoop_removes (max : UInt64) {N : Nat} (hN : N ≤ limit) :
    Removes (fun l n keys last d => (compactLoop F limit max l n keys last d,
      compactLoopLeft F limit max l n keys d)) (fun n m => n + m = N) ch db
      (fun p => ¬ Stops max p) := by
  refine ⟨fun {p rest n m keys θ T last d} hp hlt hn h => ?_⟩
  refine ⟨n + 1, keys, T, d, ?_, by omega, rfl, h⟩
  have hgo : ¬ ((0 < max ∧ max ≤ (decodeEvt p).rev.upper) ∨ limit ≤ n) := by
    rintro (hstop | hstop)
    · exact hlt hstop
    · omega
  rw [show p = (p.1, p.2) from rfl, compactLoop, compactLoopLeft, fromKey_of_evtOk hp]
  simp only
  rw [if_neg hgo, if_neg hgo]
  simp only [trimChecksum_of_evtOk hp, skipUvarint_putUvarint]

theorem pruneLeft_eq {l : List (Bytes × Keyrev)} (h : DbKv.prune l db = .ok d) :
    pruneLeft l db = d := by
  induction l generalizing db with
  | nil => exact Except.ok.inj h
  | cons p l ih =>
      rw [DbKv.prune] at h
      rw [pruneLeft]
      cases hkey : DbKv.pruneKey db p.1 p.2 with
      | error e =>
          rw [hkey] at h
          cases h
      | ok db₁ =>
          simp only [hkey] at h ⊢
          exact ih h

theorem compactBy_start (h : db.Rep E S ch) (hne : db.evt.walk ≠ []) (F : Env) (limit : Nat)
    (max : UInt64) :
    compactBy F limit db max = compactLoop F limit max db.evt.walk 0 .empty 0 db ∧
      compactLeftBy F limit db max = compactLoopLeft F limit max db.evt.walk 0 .empty db := by
  rw [compactBy, compactLeftBy]
  cases hfirst : db.evt.walk with
  | nil => exact absurd hfirst hne
  | cons q rest =>
      have hmem : q ∈ db.evt.pairs := db.evt.walk_sublist.subset (by rw [hfirst]; simp)
      simp only [fromKey_of_evtOk (h.evtOk q hmem), and_self]

/-- The loop behind the events that the budget covers. -/
theorem compactLoop_end {scanned : Nat} {keys : Table Bytes Keyrev} {d₁ : DbKv}
    {l : List (Bytes × Bytes)} (last : UInt64)
    (hprune : DbKv.prune (F.order 0 keys.entries) d₁ = .ok d)
    (hok : ∀ q ∈ l, EvtOk q) (hstop : ∀ q ∈ l, Stops max q ∨ limit ≤ scanned) :
    compactLoopLeft F limit max l scanned keys d₁ = d ∧
      compactLoop F limit max l scanned keys last d₁ =
        if l = [] ∧ scanned < limit then .error .checksumInvalid else .ok (d, last, scanned) := by
  cases l with
  | nil =>
      rw [compactLoop, hprune, compactLoopLeft]
      refine ⟨pruneLeft_eq hprune, ?_⟩
      simp only [true_and]
      by_cases hfull : limit ≤ scanned
      · rw [if_pos hfull, if_neg (Nat.not_lt.mpr hfull)]
      · rw [if_neg hfull, if_pos (Nat.not_le.mp hfull)]
  | cons q rest =>
      have hnext : (0 < max ∧ max ≤ (decodeEvt q).rev.upper) ∨ limit ≤ scanned :=
        hstop q List.mem_cons_self
      rw [show q = (q.1, q.2) from rfl, compactLoop, compactLoopLeft,
        fromKey_of_evtOk (hok q List.mem_cons_self)]
      simp only
      rw [if_pos hnext, if_pos hnext, hprune, if_neg (by simp)]
      exact ⟨pruneLeft_eq hprune, rfl⟩

/-- When a call succeeds: it meets an event at `max` or has used up its budget. -/
def Returns (limit : Nat) (db : DbKv) (max : UInt64) : Prop :=
  db.MeetsStop max ∨ limit ≤ (db.removedEvents max).length

theorem compactBy_run (h : db.Rep E S ch) (hlog : LogOk db.log lo hi) (hlimit : 1 ≤ limit)
    (max : UInt64) (F : Env) :
    ∃ d, Piece ch db ((db.removedEvents max).take limit) d ∧ compactLeftBy F limit db max = d ∧
      (Returns limit db max → compactBy F limit db max =
        .ok (d, lastUpper 0 ((db.removedEvents max).take limit),
          ((db.removedEvents max).take limit).length)) ∧
      (¬ Returns limit db max → ∃ e, compactBy F limit db max = .error e) := by
  have hlow : ∀ p ∈ (db.removedEvents max).take limit, ¬ Stops max p :=
    fun p hp => (mem_removedEvents.mp (List.mem_of_mem_take hp)).2
  have hsub := (List.take_sublist limit _).trans (db.removedEvents_sublist max)
  have hsplit := h.walk_eq max
  have habove : ∀ p ∈ db.evt.walk.filter (fun p => Stops max p), Stops max p :=
    fun p hp => by simpa using (List.mem_filter.mp hp).2
  have hmeets : db.MeetsStop max ↔ db.evt.walk.filter (fun p => Stops max p) ≠ [] := by
    rw [Ne, List.filter_eq_nil_iff, MeetsStop]
    simp
  rw [Returns, hmeets]
  generalize db.removedEvents max = below at *
  generalize db.evt.walk.filter (fun p => Stops max p) = above at *
  by_cases hne : db.evt.walk = []
  · obtain ⟨rfl, rfl⟩ := List.append_eq_nil_iff.mp (hsplit.symm.trans hne)
    rw [List.take_nil]
    refine ⟨db, ⟨List.nil_sublist _, h.pruned, rfl⟩, by rw [compactLeftBy, hne], ?_,
      fun _ => ⟨.checksumMissing, by rw [compactBy, hne]⟩⟩
    rintro (hstop | hlen)
    · exact absurd rfl hstop
    · rw [List.length_nil] at hlen
      omega
  · have hcut : db.evt.walk = below.take limit ++ (below.drop limit ++ above) := by
      rw [hsplit, ← List.append_assoc, List.take_append_drop]
    obtain ⟨n, keys, d₁, hloop, hn, hpruned⟩ := (compactLoop_removes (F := F) max
      (List.length_take_le limit below)).piece h hlog hsub hlow (Nat.zero_add _)
      (below.drop limit ++ above)
    obtain ⟨hloop, hleft⟩ := Prod.mk.inj hloop
    obtain rfl : n = (below.take limit).length := hn
    obtain ⟨d, hprune, hpiece⟩ := hpruned F 0
    have hok : ∀ q ∈ below.drop limit ++ above, EvtOk q := fun q hq =>
      h.evtOk q (db.evt.walk_sublist.subset (by rw [hcut]; exact List.mem_append_right _ hq))
    -- behind the budget nothing is below `max` unless the budget is used up
    have hstop : ∀ q ∈ below.drop limit ++ above,
        Stops max q ∨ limit ≤ (below.take limit).length := by
      intro q hq
      rcases List.mem_append.mp hq with hq | hq
      · have hlen := List.length_pos_iff.mpr (List.ne_nil_of_mem hq)
        rw [List.length_drop] at hlen
        exact .inr (by rw [List.length_take]; omega)
      · exact .inl (habove q hq)
    obtain ⟨hendLeft, hend⟩ :=
      compactLoop_end (lastUpper 0 (below.take limit)) hprune hok hstop
    obtain ⟨hstart, hstartLeft⟩ := compactBy_start h hne F limit max
    refine ⟨d, hpiece, ?_⟩
    rw [hstart, hstartLeft, hcut, hloop, hleft, hend]
    refine ⟨hendLeft, fun hreturns => if_neg ?_, fun hnot => ⟨.checksumInvalid, if_pos ?_⟩⟩
    · rintro ⟨hnil, hlt⟩
      obtain ⟨hdrop, rfl⟩ := List.append_eq_nil_iff.mp hnil
      rw [List.take_of_length_le (List.drop_eq_nil_iff.mp hdrop)] at hlt
      rcases hreturns with hne | hge
      · exact hne rfl
      · omega
    · rw [not_or, not_ne_iff, Nat.not_le] at hnot
      rw [hnot.1, List.append_nil, List.drop_eq_nil_iff, List.length_take]
      omega

/-- A call works on as many events as its budget allows.  It fails when it meets neither an
event at `max` nor the end of its budget, and then it has done its work. -/
theorem compactBy_cases (h : db.Rep E S ch) (hlog : LogOk db.log lo hi) (hlimit : 1 ≤ limit)
    (max : UInt64) :
    ∃ d, Piece ch db ((db.removedEvents max).take limit) d ∧ ∀ F,
      compactLeftBy F limit db max = d ∧
      (Returns limit db max → compactBy F limit db max =
        .ok (d, lastUpper 0 ((db.removedEvents max).take limit),
          ((db.removedEvents max).take limit).length)) ∧
      (¬ Returns limit db max → ∃ e, compactBy F limit db max = .error e) := by
  obtain ⟨d, hpiece, -⟩ := compactBy_run h hlog hlimit max E
  refine ⟨d, hpiece, fun F => ?_⟩
  obtain ⟨d', hpiece', hcases⟩ := compactBy_run h hlog hlimit max F
  rw [hpiece.unique hpiece']
  exact hcases

/-- What a call that succeeded has done. -/
theorem compactBy_inv (h : db.Rep E S ch) (hlog : LogOk db.log lo hi) (hlimit : 1 ≤ limit)
    {scanned : Nat} {last : UInt64} (hcall : compactBy F limit db max = .ok (d, last, scanned)) :
    Returns limit db max ∧ Piece ch db ((db.removedEvents max).take limit) d ∧
      scanned = ((db.removedEvents max).take limit).length := by
  obtain ⟨d', hpiece, hcases⟩ := compactBy_cases h hlog hlimit max
  obtain ⟨-, hok, herr⟩ := hcases F
  by_cases hstop : Returns limit db max
  · rw [hok hstop] at hcall
    simp only [Except.ok.injEq, Prod.mk.injEq] at hcall
    obtain ⟨rfl, -, rfl⟩ := hcall
    exact ⟨hstop, hpiece, rfl⟩
  · obtain ⟨e, he⟩ := herr hstop
    rw [he] at hcall
    cases hcall

theorem piece_below (hpos : 0 < max) {p : Bytes × Bytes}
    (hp : p ∈ (db.removedEvents max).take limit) : ¬ max ≤ (decodeEvt p).rev.upper :=
  not_le_of_mem_removedEvents hpos (List.mem_of_mem_take hp)

/-- Calls until one scans no event give what one-shot compaction gives, when the cursor steps
over no event. -/
theorem compactAll_eq {fuel : Nat} (h : db.Rep E S ch) (hlog : LogOk db.log lo hi)
    (hlimit : 1 ≤ limit) (hpos : 0 < max) (hnone : db.StepsOverNone max) (hstop : db.StopsAt max)
    (hfuel : (db.removedEvents max).length < fuel) :
    ∃ d, compactAll F limit max fuel db = .ok d ∧ Piece ch db (db.removedEvents max) d := by
  induction fuel generalizing db ch with
  | zero => exact absurd hfuel (Nat.not_lt_zero _)
  | succ fuel ih =>
      obtain ⟨d, hpiece, hcases⟩ := compactBy_cases h hlog hlimit max
      obtain ⟨-, hok, -⟩ := hcases F
      rw [compactAll, hok (.inl (h.meetsStop hpos hstop))]
      simp only
      have hs := hpiece.shortened h hlog
      have hremoved := hpiece.removedEvents_eq h hlog hpos hnone
      by_cases hdone : ((db.removedEvents max).take limit).length = 0
      · rw [if_pos hdone]
        refine ⟨d, rfl, ?_⟩
        rw [List.length_eq_zero_iff, List.take_eq_nil_iff] at hdone
        rw [hdone.resolve_left (by omega), List.take_nil] at hpiece
        rw [hdone.resolve_left (by omega)]
        exact hpiece
      · rw [if_neg hdone]
        have hlen := congrArg List.length hremoved
        rw [List.length_append] at hlen
        obtain ⟨d', hall, hpiece'⟩ := ih (hs.rep h hlog) (hs.logOk hlog)
          (hpiece.stepsOverNone_left h hnone)
          (hpiece.stopsAt_left h (fun p hp => piece_below hpos hp) hstop) (by omega)
        refine ⟨d', hall, ?_⟩
        rw [hremoved]
        refine hpiece.append hpiece' h ?_
        rw [← hremoved]
        exact db.removedEvents_sublist max

/-- A call that scans no event finds none below `max`. -/
theorem events_of_scanned_zero (h : db.Rep E S ch) (hlog : LogOk db.log lo hi) (hlimit : 1 ≤ limit)
    {last : UInt64} (hcall : compactBy F limit db max = .ok (d, last, 0)) :
    ∀ evt ∈ d.events, max ≤ evt.rev.upper := by
  obtain ⟨-, hpiece, hlen⟩ := compactBy_inv h hlog hlimit hcall
  have hnil : db.removedEvents max = [] := by
    rw [eq_comm, List.length_eq_zero_iff, List.take_eq_nil_iff] at hlen
    exact hlen.resolve_left (by omega)
  intro evt hevt
  obtain ⟨p, hp, rfl⟩ := List.mem_map.mp hevt
  have hmem := (hpiece.mem_pairs.mp hp).1
  -- the first event is met, and it is not removed
  obtain ⟨q, qs, hqs⟩ := List.exists_cons_of_ne_nil (List.ne_nil_of_mem hmem)
  have hq : q ∈ db.evt.pairs := by rw [hqs]; exact List.mem_cons_self
  have hsorted := h.events_sorted
  rw [events, hqs, List.map_cons] at hsorted
  have hfirst : ∀ e ∈ db.events, (decodeEvt q).rev.word.toNat ≤ e.rev.word.toNat := by
    intro e he
    rw [events, hqs, List.map_cons] at he
    rcases List.mem_cons.mp he with rfl | he
    · exact le_rfl
    · exact List.rel_of_pairwise_cons hsorted he
  have hwalk := h.mem_walk_of_met hq (.inr hfirst)
  by_contra hlt
  have hin : q ∈ db.removedEvents max := by
    refine mem_removedEvents.mpr ⟨hwalk, fun hstops => hlt (UInt64.le_trans hstops.2 ?_)⟩
    exact upper_le_of_word_le (hfirst _ (List.mem_map_of_mem hmem))
  rw [hnil] at hin
  cases hin

/-- Calls that end have removed every event below `max`. -/
theorem compactAll_complete {fuel : Nat} (h : db.Rep E S ch) (hlog : LogOk db.log lo hi)
    (hlimit : 1 ≤ limit) (hall : compactAll F limit max fuel db = .ok d) :
    ∀ evt ∈ d.events, max ≤ evt.rev.upper := by
  induction fuel generalizing db ch with
  | zero => cases hall
  | succ fuel ih =>
      rw [compactAll] at hall
      cases hcall : compactBy F limit db max with
      | error e =>
          rw [hcall] at hall
          cases hall
      | ok r =>
          obtain ⟨d₁, last, scanned⟩ := r
          rw [hcall] at hall
          simp only at hall
          split at hall
          · rename_i hzero
            obtain rfl := Except.ok.inj hall
            rw [hzero] at hcall
            exact events_of_scanned_zero h hlog hlimit hcall
          · obtain ⟨-, hpiece, -⟩ := compactBy_inv h hlog hlimit hcall
            have hs := hpiece.shortened h hlog
            exact ih (hs.rep h hlog) (hs.logOk hlog) hall

end StorageKv

end Turbokube
