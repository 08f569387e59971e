import Turbokube.Model.MachineStream
import Turbokube.Registry
import Turbokube.Transition
import Turbokube.Watch.Runs

/-!
# The watches of a stream

A stream of the native state machine removes the id of a watch when the client cancels it, and
once more when its goroutine ends.  The second time it may be the id of another watch, which
was created meanwhile; and a watch that ends before it has a goroutine is never removed.

In the runs below no watch is refused for its start revision and no id is used again before
the goroutine that had it is gone.  There the registry has exactly the watches that have not
ended (`Sound`), and a running watch is stopped by the client alone.
-/

namespace Turbokube

open Encoding Lmdb DbKv Registry Transition

section Ids

theorem watchID_lt_nextWatchID (watches : Table Int Nat) (n : Nat) (watchID : Int) :
    watchID < nextWatchID watches n watchID := by
  induction n generalizing watchID with
  | zero => exact Int.lt_succ watchID
  | succ n ih =>
      rw [nextWatchID]
      split
      · exact (Int.lt_succ watchID).trans (ih (watchID + 1))
      · exact Int.lt_succ watchID

/-- If the loop does not find a free id, all it tried are registered. -/
theorem isSome_of_nextWatchID {watches : Table Int Nat} {n : Nat} {watchID : Int}
    (h : (watches.get (nextWatchID watches n watchID)).isSome = true) (j : Nat) (hj : j ≤ n) :
    (watches.get (watchID + 1 + j)).isSome = true := by
  induction n generalizing watchID j with
  | zero =>
      obtain rfl : j = 0 := by omega
      simpa [nextWatchID] using h
  | succ n ih =>
      rw [nextWatchID] at h
      split at h
      · next hfirst =>
          cases j with
          | zero => simpa using hfirst
          | succ j =>
              have hnext := ih h j (by omega)
              rw [show watchID + 1 + ((j + 1 : Nat) : Int) = watchID + 1 + 1 + j by omega]
              exact hnext
      · next hfirst => exact absurd h hfirst

theorem nextWatchID_free (watches : Table Int Nat) (watchID : Int) :
    watches.get (nextWatchID watches watches.entries.length watchID) = none := by
  by_contra hne
  have hall := isSome_of_nextWatchID (Option.isSome_iff_ne_none.mpr hne)
  have hsub : (List.range (watches.entries.length + 1)).map
      (fun j : Nat => watchID + 1 + (j : Int)) ⊆ watches.entries.map Prod.fst := by
    intro k hk
    obtain ⟨j, hj, rfl⟩ := List.mem_map.mp hk
    obtain ⟨i, hi⟩ := Option.isSome_iff_exists.mp
      (hall j (Nat.lt_succ_iff.mp (List.mem_range.mp hj)))
    exact List.mem_map.mpr ⟨_, Table.get_eq_some_iff.mp hi, rfl⟩
  have hnodup : ((List.range (watches.entries.length + 1)).map
      (fun j : Nat => watchID + 1 + (j : Int))).Nodup :=
    List.nodup_range.map (fun a b hab => by omega)
  have hlen := (List.subperm_of_subset hnodup hsub).length_le
  simp at hlen

end Ids

section Scans

variable {E : Env} {s : Store}

theorem DbKv.Rep.scan_events {S : Prop} {db : DbKv} {ch : Bytes → List Version}
    (h : db.Rep E S ch) (r : UInt64) :
    ∃ evts, db.scan r = .ok evts ∧ ∀ evt ∈ evts, evt ∈ db.events := by
  rw [scan, DupTable.seekPairs, scanPairs_eq (fun p hp =>
    (h.version_of_evt (List.mem_of_mem_filter hp)).1)]
  refine ⟨_, rfl, fun evt hevt => ?_⟩
  obtain ⟨p, hp, rfl⟩ := List.mem_map.mp hevt
  exact List.mem_map_of_mem (List.mem_of_mem_filter hp)

/-- There is a message for every event, also for one whose version is gone. -/
theorem DbKv.Rep.watchEvent_ok {db : DbKv} {ch : Bytes → List Version} {lo hi : Nat}
    (h : db.Rep E True ch) (hlog : LogOk db.log lo hi) (hshort : NoShort db.log) {evt : KvEvent}
    (hevt : evt ∈ db.events) (prevKv : Bool) : ∃ m, watchEvent E db prevKv evt = .ok m := by
  obtain ⟨x, hx, -⟩ := h.version_of_event hevt
  have hget : db.getRev E evt.key evt.rev.upper prevKv = _ :=
    h.getRev hlog (hlog.key_of_mem hx).1 (h.readable hshort evt.rev.upper evt.key)
      (fun _ v hv => hshort evt.key v (h.mem_versions
        ((List.dropWhile_sublist _).mem (List.mem_of_mem_tail (List.mem_of_head? hv)))))
  rw [watchEvent, hget]
  split <;> exact ⟨_, rfl⟩

/-- In the states of a run whose events can be told from the tables no scan fails, whatever
revision it is from. -/
theorem Reached.watchScan_err
    (h : Reached E (fun _ cmd => cmd.Watchable) (.start s)) (hlt : s.dbMeta.rev < 2 ^ 52)
    (req : WatchCreateRequest) (since : Nat) : (watchScan E s req since).err = none := by
  obtain ⟨ch, hrep, hlog, -⟩ := h.versioned_watchable hlt
  have hshort := h.noShort (fun _ _ hq => hq.2.2)
  obtain ⟨evts, hscan, hevts⟩ := hrep.scan_events (UInt64.ofNat since)
  obtain ⟨ms, hloop, -⟩ := @watchLoop_eq E s.tables.kv req (fun _ _ => True) s.dbMeta.rev evts
    (fun evt hevt => by
      obtain ⟨m, hm⟩ := hrep.watchEvent_ok hlog hshort (hevts evt hevt) req.prevKv
      exact ⟨m, hm, trivial⟩)
  rw [watchScan]
  split
  · rfl
  · rw [hscan]
    simp only [hloop]

namespace Watch

variable {w : Watch}

theorem scanned_phase {r : Scanned} (hr : r.err = none) (next : WatchPhase) :
    (w.scanned r next).phase = next := by
  rw [Watch.scanned, hr]
  rfl

/-- Where a step takes a watch whose scans do not fail and that is not refused. -/
theorem step_phase (hscan : ∀ req since, (watchScan E s req since).err = none)
    (hcheck : w.phase = .created → 0 < w.req.since → s.dbMeta.revMin.toNat ≤ w.req.since) :
    w.phase.isStarting = true ∧ (w.step E s).phase.isStarting = true ∧
        (w.step E s).phase ≠ .created ∨
      w.phase = .rescan ∧ (w.step E s).phase = .idle ∨
      w.phase.isStarting = false ∧ (w.step E s).phase.isStarting = false ∧
        ((w.step E s).phase = .done → w.phase = .done) := by
  unfold Watch.step
  split
  case h_1 hphase =>
    rw [check, if_neg (fun hc => Nat.not_lt.mpr (hcheck hphase hc.1) hc.2), hphase]
    exact .inl ⟨rfl, rfl, by simp⟩
  case h_2 hphase =>
    refine .inl ⟨by rw [hphase]; rfl, ?_⟩
    simp only [scanned_phase (hscan _ _)]
    exact ⟨rfl, by simp⟩
  case h_3 hphase => exact .inl ⟨by rw [hphase]; rfl, rfl, by simp⟩
  case h_4 hphase => exact .inr (.inl ⟨hphase, scanned_phase (hscan _ _) _⟩)
  case h_5 hphase =>
    refine .inr (.inr ⟨by rw [hphase]; rfl, ?_⟩)
    rw [drain]
    split
    · rw [hphase]
      exact ⟨rfl, id⟩
    · simp only
      split <;> exact ⟨rfl, fun h => by cases h⟩
  case h_6 hphase =>
    have hidle : (w.sync E s).phase = .idle := by
      unfold sync
      simp only [hscan _ _, Option.isSome_none, Bool.false_eq_true, if_false]
      split <;> exact @scanned_phase w _ (hscan _ _) .idle
    rw [hidle, hphase]
    exact .inr (.inr ⟨rfl, rfl, fun h => by cases h⟩)
  case h_7 hphase =>
    rw [hphase]
    exact .inr (.inr ⟨rfl, rfl, fun h => h⟩)

/-- A watch that runs goes on. -/
theorem step_runs (hscan : ∀ req since, (watchScan E s req since).err = none)
    (hcreated : w.phase ≠ .created) (hdone : w.phase ≠ .done) :
    (w.step E s).phase ≠ .created ∧ (w.step E s).phase ≠ .done := by
  rcases step_phase hscan (fun h => absurd h hcreated) with
    ⟨-, hstart, hne⟩ | ⟨-, hidle⟩ | ⟨-, hstart, hd⟩
  · refine ⟨hne, fun h => ?_⟩
    rw [h] at hstart
    cases hstart
  · simp [hidle]
  · refine ⟨fun h => ?_, fun h => hdone (hd h)⟩
    rw [h] at hstart
    cases hstart

end Watch

end Scans

/-- What the registry knows of a watcher. -/
def Watcher.holder (c : Watcher) : Holder Int := ⟨c.watchId, c.canceled, c.called⟩

/-- The watch was refused or failed before it had a goroutine, or it was cancelled, or its
goroutine is gone. -/
def Watcher.Ended (c : Watcher) : Prop :=
  c.canceled = true ∨ c.called = true ∨ c.watch.phase = .done ∧ c.started = false

/-- The watch has sent its first message, and nothing has stopped it. -/
def MachineStream.Running (σ : MachineStream) (i : Nat) : Prop :=
  ∃ c ∈ σ.watchers[i]?, c.canceled = false ∧ c.watch.phase ≠ .created ∧
    c.watch.phase ≠ .done ∧ σ.closed = false

instance (c : Watcher) : Decidable c.Ended := by
  unfold Watcher.Ended
  infer_instance

instance (σ : MachineStream) (i : Nat) : Decidable (σ.Running i) := by
  unfold MachineStream.Running
  infer_instance

/-- No puts whose records cannot be read back; no id that a goroutine still has to remove, which
for a generated one are the ids above the counter; and no start revision below the lowest
that can be read. -/
def MachineAction.Meets (E : Env) (σ : MachineStream) : MachineAction → Prop
  | .commit ents => AllMeet E (fun _ cmd => cmd.Watchable) ents (.start σ.store)
  | .request (.create watchId _) =>
      if watchId = 0 then ∀ c ∈ σ.watchers, c.holder.Late → c.watchId ≤ σ.watchID
      else ∀ c ∈ σ.watchers, c.holder.Late → c.watchId ≠ watchId
  | .step i => ∀ c ∈ σ.watchers[i]?, c.watch.phase = .created → 0 < c.watch.req.since →
      σ.store.dbMeta.revMin.toNat ≤ c.watch.req.since
  | _ => True

instance (E : Env) (σ : MachineStream) : (a : MachineAction) → Decidable (a.Meets E σ)
  | .commit ents =>
      inferInstanceAs (Decidable (AllMeet E (fun _ cmd => cmd.Watchable) ents (.start σ.store)))
  | .request (.create watchId _) => by
      unfold MachineAction.Meets Holder.Late
      infer_instance
  | .step i => by
      unfold MachineAction.Meets
      infer_instance
  | .request (.cancel _) | .request .progress | .request .invalid | .tell | .exit _ | .callback _
  | .close | .stop => .isTrue trivial

/-- A watcher of a stream no watch of which is refused or fails. -/
structure Watcher.Ok (closed : Bool) (c : Watcher) : Prop where
  named : c.watchId ≠ 0
  started : c.watch.phase.isStarting = false → c.started = true
  stopped : c.watch.phase = .done → c.canceled = true ∨ closed = true

/-- The registry has the watches that have not ended. -/
structure MachineStream.Sound (σ : MachineStream) : Prop where
  consistent : Registry.Consistent σ.watches (σ.watchers.map Watcher.holder)
  counter : 0 ≤ σ.watchID
  ok : ∀ c ∈ σ.watchers, c.Ok σ.closed

namespace MachineStream

variable {E : Env} {find : WatchCreateRequest → Bytes → Bool} {σ : MachineStream} {i : Nat}
  {c : Watcher}

theorem next_free (σ : MachineStream) : σ.watches.get σ.next = none := nextWatchID_free _ _

theorem watchID_lt_next (σ : MachineStream) : σ.watchID < σ.next := watchID_lt_nextWatchID _ _ _

/-- A watch with an id keeps it. -/
theorem step_eq (E : Env) (σ : MachineStream) (i : Nat) {c : Watcher} (hne : c.watchId ≠ 0) :
    σ.step E i c = { σ with
      watchers := σ.watchers.modify i (fun c' => { c' with
        watch := c.watch.step E σ.store
        started := c'.started ||
          (c'.watch.phase = .rescan && (c.watch.step E σ.store).phase = .idle) }) } :=
  if_neg (fun h => hne h.1)

namespace Sound

theorem holder (hc : σ.watchers[i]? = some c) :
    (σ.watchers.map Watcher.holder)[i]? = some c.holder := by
  rw [List.getElem?_map, hc]
  rfl

theorem add {watchId watchID : Int} {req : WatchCreateRequest} (h : σ.Sound)
    (hne : watchId ≠ 0) (hcounter : 0 ≤ watchID) (hfree : σ.watches.get watchId = none)
    (hlate : ∀ c ∈ σ.watchers, c.holder.Late → c.watchId ≠ watchId) :
    ({ σ with watchID := watchID }.add watchId req).Sound := by
  refine ⟨?_, hcounter, fun c hc => ?_⟩
  · have hadd := h.consistent.add hfree (fun m hm hml => by
      obtain ⟨c, hc, rfl⟩ := List.mem_map.mp hm
      exact hlate c hc hml)
    rw [List.length_map] at hadd
    rw [MachineStream.add, List.map_append]
    exact hadd
  · rcases List.mem_append.mp hc with hc | hc
    · exact h.ok c hc
    · rw [List.mem_singleton.mp hc]
      exact ⟨hne, fun hstart => (by cases hstart), fun hdone => (by cases hdone)⟩

theorem create {watchId : Int} {req : WatchCreateRequest} (h : σ.Sound)
    (hmeet : (MachineAction.request (.create watchId req)).Meets E σ) :
    (σ.create watchId req).Sound := by
  rw [MachineAction.Meets] at hmeet
  have hcounter := h.counter
  have hlt := σ.watchID_lt_next
  rw [MachineStream.create]
  split
  · next hzero =>
      rw [if_pos hzero] at hmeet
      refine h.add (by omega) (by omega) σ.next_free (fun c hc hml => ?_)
      have := hmeet c hc hml
      omega
  · next hne =>
      rw [if_neg hne] at hmeet
      split
      · exact ⟨h.consistent, h.counter, h.ok⟩
      · next hfree =>
          exact h.add hne hcounter (by simpa using hfree) hmeet

theorem remove {watchId : Int} (h : σ.Sound) (hget : σ.watches.get watchId = some i) :
    (σ.remove watchId i).Sound := by
  refine ⟨?_, h.counter, fun c hc => ?_⟩
  · rw [MachineStream.remove,
      @map_modify _ _ (fun c : Watcher => { c with canceled := true }) Holder.cancel Watcher.holder
        (fun _ => rfl)]
    exact h.consistent.cancel hget
  · rcases mem_modify_cases hc with ⟨b, hb, rfl⟩ | hc
    · have hok := h.ok b (List.mem_of_getElem? hb)
      exact ⟨hok.named, hok.started, fun _ => .inl rfl⟩
    · exact h.ok c hc

theorem cancel (h : σ.Sound) (watchId : Int) : (σ.cancel watchId).Sound := by
  rw [MachineStream.cancel]
  split
  · exact h
  · next hget =>
      have hremove := h.remove hget
      exact ⟨hremove.consistent, hremove.counter, hremove.ok⟩

/-- What a call back finds: nothing, or its own watch, of which the client has gone. -/
theorem get_of_done (h : σ.Sound) (hc : σ.watchers[i]? = some c) (hdone : c.watch.phase = .done)
    (hcalled : c.called = false) :
    c.canceled = true ∧ σ.watches.get c.watchId = none ∨
      c.canceled = false ∧ σ.closed = true ∧ σ.watches.get c.watchId = some i := by
  have hmem := List.mem_of_getElem? hc
  cases hcanceled : c.canceled with
  | true =>
      exact .inl ⟨rfl, h.consistent.late c.holder (List.mem_map_of_mem hmem)
        ⟨hcanceled, hcalled⟩⟩
  | false =>
      refine .inr ⟨rfl, ?_, h.consistent.registered i c.holder (holder hc) hcanceled⟩
      exact ((h.ok c hmem).stopped hdone).resolve_left (by simp [hcanceled])

theorem callback (h : σ.Sound) (hc : σ.watchers[i]? = some c) (hdone : c.watch.phase = .done)
    (hcalled : c.called = false) : (σ.callback i c).Sound := by
  have hcall : ∀ l : List Watcher,
      (l.modify i (fun c => { c with called := true })).map Watcher.holder =
        (l.map Watcher.holder).modify i Holder.call :=
    fun l => @map_modify _ _ (fun c : Watcher => { c with called := true }) Holder.call
      Watcher.holder (fun _ => rfl) l i
  have hok : ∀ σ' : MachineStream, σ'.Sound → ∀ c ∈ σ'.watchers.modify i
      (fun c => { c with called := true }), c.Ok σ'.closed := by
    intro σ' h' c hc
    rcases mem_modify_cases hc with ⟨b, hb, rfl⟩ | hc
    · have hok := h'.ok b (List.mem_of_getElem? hb)
      exact ⟨hok.named, hok.started, hok.stopped⟩
    · exact h'.ok c hc
  rcases h.get_of_done hc hdone hcalled with ⟨hcanceled, hget⟩ | ⟨hcanceled, -, hget⟩
  · simp only [MachineStream.callback, hget]
    refine ⟨?_, h.counter, hok σ h⟩
    rw [hcall]
    exact h.consistent.call (holder hc) hcanceled
  · have hremove := h.remove hget
    simp only [MachineStream.callback, hget]
    refine ⟨?_, h.counter, hok _ hremove⟩
    have hown := h.consistent.call_own (holder hc) hcanceled
    rw [hcall, MachineStream.remove,
      @map_modify _ _ (fun c : Watcher => { c with canceled := true }) Holder.cancel Watcher.holder
        (fun _ => rfl)]
    exact hown

/-- One watch moves, and the registry does not notice. -/
theorem modify {f : Watcher → Watcher} (h : σ.Sound) (hc : σ.watchers[i]? = some c)
    (hf : ∀ c, (f c).holder = c.holder) (hok : (f c).Ok σ.closed) :
    Sound { σ with watchers := σ.watchers.modify i f } := by
  refine ⟨?_, h.counter, fun c' hc' => ?_⟩
  · rw [map_modify_of_eq hf]
    exact h.consistent
  · rcases mem_modify_cases hc' with ⟨b, hb, rfl⟩ | hc'
    · rw [hc] at hb
      obtain rfl := Option.some.inj hb
      exact hok
    · exact h.ok c' hc'

theorem step (h : σ.Sound) (hscan : ∀ req since, (watchScan E σ.store req since).err = none)
    (hc : σ.watchers[i]? = some c) (hmeet : (MachineAction.step i).Meets E σ) :
    (σ.step E i c).Sound := by
  have hok := h.ok c (List.mem_of_getElem? hc)
  rw [σ.step_eq E i hok.named]
  refine h.modify hc (fun _ => rfl) ⟨hok.named, fun hstart => ?_, fun hdone => ?_⟩
  · rcases Watch.step_phase hscan (hmeet c hc) with ⟨-, hs, -⟩ | ⟨hr, hidle⟩ | ⟨hs, -⟩
    · rw [show (c.watch.step E σ.store).phase.isStarting = false from hstart] at hs
      cases hs
    · simp [hr, hidle]
    · simp [hok.started hs]
  · rcases Watch.step_phase hscan (hmeet c hc) with ⟨-, hs, -⟩ | ⟨-, hidle⟩ | ⟨-, -, hd⟩
    · rw [show (c.watch.step E σ.store).phase = .done from hdone] at hs
      cases hs
    · rw [show (c.watch.step E σ.store).phase = .done from hdone] at hidle
      cases hidle
    · exact hok.stopped (hd hdone)

theorem exit (h : σ.Sound) (hc : σ.watchers[i]? = some c)
    (hended : c.canceled = true ∨ σ.closed = true) (hidle : c.watch.phase = .idle) :
    Sound { σ with
      watchers := σ.watchers.modify i (fun c => { c with watch := c.watch.cancel }) } := by
  have hok := h.ok c (List.mem_of_getElem? hc)
  exact h.modify hc (fun _ => rfl)
    ⟨hok.named, fun _ => hok.started (by rw [hidle]; rfl), fun _ => hended⟩

theorem tell (h : σ.Sound) (keys : List Bytes) (r : Nat) :
    Sound { σ with
      pending := none
      watchers := σ.watchers.map (fun c => { c with watch := c.watch.alert find keys r }) } := by
  refine ⟨?_, h.counter, fun c' hc' => ?_⟩
  · simp only [List.map_map]
    exact h.consistent
  · obtain ⟨c, hc, rfl⟩ := List.mem_map.mp hc'
    have hok := h.ok c hc
    obtain ⟨alerts, halert⟩ := c.watch.alert_eq find keys r
    rw [halert]
    exact ⟨hok.named, hok.started, hok.stopped⟩

end Sound

/-- What an action does. -/
inductive Happens (E : Env) (find : WatchCreateRequest → Bytes → Bool) (σ : MachineStream) :
    MachineAction → MachineStream → Prop where
  | commit {ents : List Entry} {u : Updated} (hu : update E σ.store ents = .ok u) :
      Happens E find σ (.commit ents)
        { σ with store := u.store, pending := some (u.keys, u.newRev) }
  | tell (keys : List Bytes) (r : Nat) :
      Happens E find σ .tell { σ with
        pending := none
        watchers := σ.watchers.map (fun c => { c with watch := c.watch.alert find keys r }) }
  | request (req : WatchRequest) (hrecv : σ.receiving = true) :
      Happens E find σ (.request req) (σ.handle E req)
  | step {i : Nat} {c : Watcher} (hc : σ.watchers[i]? = some c) :
      Happens E find σ (.step i) (σ.step E i c)
  | exit {i : Nat} {c : Watcher} (hc : σ.watchers[i]? = some c)
      (hended : c.canceled = true ∨ σ.closed = true) (hidle : c.watch.phase = .idle) :
      Happens E find σ (.exit i) { σ with
        watchers := σ.watchers.modify i (fun c => { c with watch := c.watch.cancel }) }
  | callback {i : Nat} {c : Watcher} (hc : σ.watchers[i]? = some c)
      (hdone : c.watch.phase = .done) (hcalled : c.called = false) :
      Happens E find σ (.callback i) (σ.callback i c)
  | close : Happens E find σ .close { σ with closed := true }
  | stop (hclosed : σ.closed = true) (hrecv : σ.receiving = true) (watchers : List Watcher) :
      Happens E find σ .stop { σ with watchers := watchers, returned := true }

variable {σ' : MachineStream} {a : MachineAction}

theorem happens_of_act (hact : σ.act E find a = some σ') : σ.Happens E find a σ' := by
  cases a with
  | commit ents =>
      simp only [MachineStream.act] at hact
      split at hact
      · next hu =>
          obtain rfl := Option.some.inj hact
          exact .commit hu
      · cases hact
  | tell =>
      simp only [MachineStream.act] at hact
      split at hact
      · obtain rfl := Option.some.inj hact
        exact .tell _ _
      · cases hact
  | request req =>
      simp only [MachineStream.act] at hact
      split at hact
      · next hrecv =>
          obtain rfl := Option.some.inj hact
          exact .request req hrecv
      · cases hact
  | step i =>
      obtain ⟨c, hc, rfl⟩ := Option.map_eq_some_iff.mp hact
      exact .step hc
  | exit i =>
      simp only [MachineStream.act] at hact
      split at hact
      · cases hact
      · next c hc =>
          split at hact
          · next hcond =>
              obtain rfl := Option.some.inj hact
              simp only [Bool.and_eq_true, Bool.or_eq_true, decide_eq_true_eq] at hcond
              exact .exit hc hcond.1 hcond.2
          · cases hact
  | callback i =>
      simp only [MachineStream.act] at hact
      split at hact
      · cases hact
      · next c hc =>
          split at hact
          · next hcond =>
              obtain rfl := Option.some.inj hact
              simp only [Bool.and_eq_true, Bool.not_eq_true', decide_eq_true_eq] at hcond
              exact .callback hc hcond.1.2 hcond.2
          · cases hact
  | close =>
      obtain rfl := Option.some.inj hact
      exact .close
  | stop =>
      simp only [MachineStream.act] at hact
      split at hact
      · next hcond =>
          obtain rfl := Option.some.inj hact
          simp only [Bool.and_eq_true] at hcond
          exact .stop hcond.1 hcond.2 _
      · cases hact

section Frame

theorem handle_frame (E : Env) (σ : MachineStream) (req : WatchRequest) :
    (σ.handle E req).store = σ.store ∧ (σ.handle E req).closed = σ.closed := by
  cases req with
  | create watchId req =>
      simp only [handle, MachineStream.create]
      split
      · exact ⟨rfl, rfl⟩
      · split <;> exact ⟨rfl, rfl⟩
  | cancel watchId =>
      simp only [handle, MachineStream.cancel]
      split <;> exact ⟨rfl, rfl⟩
  | progress => exact ⟨rfl, rfl⟩
  | invalid => exact ⟨rfl, rfl⟩

theorem step_frame (E : Env) (σ : MachineStream) (i : Nat) (c : Watcher) :
    (σ.step E i c).store = σ.store ∧ (σ.step E i c).closed = σ.closed ∧
      (σ.step E i c).returned = σ.returned := by
  simp only [MachineStream.step]
  split <;> exact ⟨rfl, rfl, rfl⟩

theorem callback_frame (σ : MachineStream) (i : Nat) (c : Watcher) :
    (σ.callback i c).store = σ.store ∧ (σ.callback i c).closed = σ.closed ∧
      (σ.callback i c).returned = σ.returned := by
  simp only [MachineStream.callback]
  split <;> exact ⟨rfl, rfl, rfl⟩

theorem Happens.store_eq (h : σ.Happens E find a σ') :
    σ'.store = σ.store ∨ ∃ ents u, a = .commit ents ∧ update E σ.store ents = .ok u ∧
      σ'.store = u.store := by
  cases h with
  | commit hu => exact .inr ⟨_, _, rfl, hu, rfl⟩
  | request req => exact .inl (handle_frame E σ req).1
  | step => exact .inl (step_frame E σ _ _).1
  | callback => exact .inl (callback_frame σ _ _).1
  | tell | exit | close | stop => exact .inl rfl

end Frame

/-- The client is gone and the stream has noticed it. -/
def Over (σ : MachineStream) : Prop := σ.closed = true ∧ σ.returned = true

theorem not_over_of_receiving (h : σ.receiving = true) : ¬ σ.Over := by
  rintro ⟨-, hreturned⟩
  simp [receiving, hreturned] at h

theorem Over.happens (h : σ.Over) (hact : σ.Happens E find a σ') : σ'.Over := by
  obtain ⟨hclosed, hreturned⟩ := id h
  cases hact with
  | request req hrecv => exact absurd h (not_over_of_receiving hrecv)
  | stop _ hrecv => exact absurd h (not_over_of_receiving hrecv)
  | step =>
      obtain ⟨-, hc, hr⟩ := step_frame E σ _ _
      exact ⟨hc.trans hclosed, hr.trans hreturned⟩
  | callback =>
      obtain ⟨-, hc, hr⟩ := callback_frame σ _ _
      exact ⟨hc.trans hclosed, hr.trans hreturned⟩
  | close => exact ⟨rfl, hreturned⟩
  | commit | tell | exit => exact ⟨hclosed, hreturned⟩

/-- An action that meets the conditions keeps the registry sound. -/
theorem Sound.happens (h : σ.Sound)
    (hscan : ∀ req since, (watchScan E σ.store req since).err = none) (hmeet : a.Meets E σ)
    (hact : σ.Happens E find a σ') : σ'.Sound ∨ σ'.Over := by
  cases hact with
  | commit => exact .inl ⟨h.consistent, h.counter, h.ok⟩
  | tell keys r => exact .inl (h.tell keys r)
  | request req =>
      refine .inl ?_
      cases req with
      | create watchId req => exact h.create hmeet
      | cancel watchId => exact h.cancel watchId
      | progress => exact ⟨h.consistent, h.counter, h.ok⟩
      | invalid => exact ⟨h.consistent, h.counter, h.ok⟩
  | step hc => exact .inl (h.step hscan hc hmeet)
  | exit hc hended hidle => exact .inl (h.exit hc hended hidle)
  | callback hc hdone hcalled => exact .inl (h.callback hc hdone hcalled)
  | close =>
      refine .inl ⟨h.consistent, h.counter, fun c hc => ?_⟩
      have hok := h.ok c hc
      exact ⟨hok.named, hok.started, fun _ => .inr rfl⟩
  | stop hclosed => exact .inr ⟨hclosed, rfl⟩

/-- A running watch is stopped by a request to cancel it or by the end of the client. -/
theorem Sound.running (h : σ.Sound)
    (hscan : ∀ req since, (watchScan E σ.store req since).err = none)
    (hrun : σ.Running i) (hact : σ.Happens E find a σ') :
    σ'.Running i ∨ a = .close ∨
      ∃ c, σ.watchers[i]? = some c ∧ a = .request (.cancel c.watchId) := by
  obtain ⟨c, hc, hcanceled, hcreated, hdone, hclosed⟩ := id hrun
  rw [Option.mem_def] at hc
  cases hact with
  | commit => exact .inl hrun
  | tell keys r =>
      obtain ⟨alerts, halert⟩ := c.watch.alert_eq find keys r
      refine .inl ⟨{ c with watch := c.watch.alert find keys r }, ?_, hcanceled, ?_, ?_, hclosed⟩
      · rw [List.getElem?_map, hc]
        rfl
      · rw [halert]
        exact hcreated
      · rw [halert]
        exact hdone
  | request req hrecv =>
      cases req with
      | create watchId req =>
          refine .inl ⟨c, ?_, hcanceled, hcreated, hdone, (handle_frame E σ _).2.trans hclosed⟩
          have hlt := (List.getElem?_eq_some_iff.mp hc).1
          simp only [handle, MachineStream.create]
          split
          · exact (List.getElem?_append_left hlt).trans hc
          · split
            · exact hc
            · exact (List.getElem?_append_left hlt).trans hc
      | cancel watchId =>
          simp only [handle, MachineStream.cancel]
          cases hget : σ.watches.get watchId with
          | none => exact .inl hrun
          | some j =>
              by_cases hij : j = i
              · subst hij
                obtain ⟨m, hm, hid, -⟩ := h.consistent.entry watchId j hget
                rw [Sound.holder hc] at hm
                obtain rfl := Option.some.inj hm
                exact .inr (.inr ⟨c, hc, by rw [← hid]; rfl⟩)
              · refine .inl ⟨c, ?_, hcanceled, hcreated, hdone, hclosed⟩
                exact (List.getElem?_modify_ne _ _ hij).trans hc
      | progress => exact .inl hrun
      | invalid => exact .inl hrun
  | @step j c' hc' =>
      have hok := h.ok c' (List.mem_of_getElem? hc')
      rw [σ.step_eq E j hok.named]
      by_cases hij : j = i
      · subst hij
        rw [hc] at hc'
        obtain rfl := Option.some.inj hc'
        obtain ⟨hcreated', hdone'⟩ := Watch.step_runs hscan hcreated hdone
        refine .inl ⟨_, by rw [List.getElem?_modify, hc]; rfl, ?_⟩
        simp only [if_true]
        exact ⟨hcanceled, hcreated', hdone', hclosed⟩
      · refine .inl ⟨c, ?_, hcanceled, hcreated, hdone, hclosed⟩
        exact (List.getElem?_modify_ne _ _ hij).trans hc
  | @exit j c' hc' hended hidle =>
      have hij : j ≠ i := fun heq => by
        rw [heq, hc] at hc'
        obtain rfl := Option.some.inj hc'
        simp [hcanceled, hclosed] at hended
      refine .inl ⟨c, ?_, hcanceled, hcreated, hdone, hclosed⟩
      exact (List.getElem?_modify_ne _ _ hij).trans hc
  | @callback j c' hc' hdone' hcalled =>
      have hij : j ≠ i := fun heq => by
        rw [heq, hc] at hc'
        obtain rfl := Option.some.inj hc'
        exact hdone hdone'
      rcases h.get_of_done hc' hdone' hcalled with ⟨-, hget⟩ | ⟨-, hclosed', -⟩
      · refine .inl ⟨c, ?_, hcanceled, hcreated, hdone, (callback_frame σ j c').2.1.trans hclosed⟩
        simp only [MachineStream.callback, hget]
        exact (List.getElem?_modify_ne _ _ hij).trans hc
      · rw [hclosed] at hclosed'
        cases hclosed'
  | close => exact .inr (.inl rfl)
  | stop hclosed' =>
      rw [hclosed] at hclosed'
      cases hclosed'

theorem opened_sound (s : Store) (pending : Option (List Bytes × Nat)) :
    (opened false s pending).Sound :=
  ⟨.empty, le_rfl, fun c hc => by cases hc⟩

/-- The watchers in the registry are those that have not ended. -/
theorem Sound.get_isSome_iff (h : σ.Sound) (watchId : Int) :
    (σ.watches.get watchId).isSome = true ↔
      ∃ c ∈ σ.watchers, c.watchId = watchId ∧ ¬ c.Ended := by
  constructor
  · intro hsome
    obtain ⟨i, hget⟩ := Option.isSome_iff_exists.mp hsome
    obtain ⟨m, hm, hid, hcanceled⟩ := h.consistent.entry watchId i hget
    rw [List.getElem?_map] at hm
    obtain ⟨c, hc, rfl⟩ := Option.map_eq_some_iff.mp hm
    have hmem := List.mem_of_getElem? hc
    have hfalse : c.canceled = false := hcanceled
    refine ⟨c, hmem, hid, ?_⟩
    rintro (hended | hcalled | ⟨hdone, hnot⟩)
    · rw [hfalse] at hended
      cases hended
    · have := h.consistent.called c.holder (List.mem_map_of_mem hmem) hcalled
      rw [hcanceled] at this
      cases this
    · have := (h.ok c hmem).started (by rw [hdone]; rfl)
      rw [hnot] at this
      cases this
  · rintro ⟨c, hmem, rfl, hended⟩
    obtain ⟨i, hc⟩ := List.mem_iff_getElem?.mp hmem
    have hfalse : c.canceled = false := by
      cases hcanceled : c.canceled with
      | false => rfl
      | true => exact absurd (.inl hcanceled) hended
    have hget : σ.watches.get c.watchId = some i :=
      h.consistent.registered i c.holder (Sound.holder hc) hfalse
    rw [hget]
    rfl

section Run

variable {s : Store} {pending : Option (List Bytes × Nat)}

theorem reached_of_run (hs : Reached E (fun _ cmd => cmd.Watchable) (.start s))
    (h : Run (act E find) (fun σ a => a.Meets E σ) (opened false s pending) σ) :
    Reached E (fun _ cmd => cmd.Watchable) (.start σ.store) := by
  refine h.invariant (I := fun σ => Reached E (fun _ cmd => cmd.Watchable) (.start σ.store)) hs
    (fun σ σ' a hreach hmeet hact => ?_)
  rcases (happens_of_act hact).store_eq with hsame | ⟨ents, u, rfl, hu, hstore⟩
  · rw [hsame]
    exact hreach
  · rw [hstore]
    exact hreach.update hmeet hu

theorem sound_of_run (hs : Reached E (fun _ cmd => cmd.Watchable) (.start s))
    (h : Run (act E find) (fun σ a => a.Meets E σ) (opened false s pending) σ)
    (hlt : σ.store.dbMeta.rev < 2 ^ 52) : σ.Sound ∨ σ.Over := by
  induction h with
  | refl => exact .inl (opened_sound s pending)
  | @act σ σ' a hrun hmeet hact ih =>
      have hhappens := happens_of_act hact
      have hle : σ.store.dbMeta.rev ≤ σ'.store.dbMeta.rev := by
        rcases hhappens.store_eq with hsame | ⟨ents, u, -, hu, hstore⟩
        · rw [hsame]
        · rw [hstore]
          exact rev_le_of_update hu
      have hlt' := hle.trans_lt hlt
      rcases ih hlt' with hsound | hover
      · exact hsound.happens
          (fun req since => (reached_of_run hs hrun).watchScan_err hlt' req since) hmeet
          hhappens
      · exact .inr (hover.happens hhappens)

end Run

end MachineStream

/-- In every run of a stream in which no watch is refused for its start revision, no id is used
again before the goroutine that had it is gone, and all records can be read back: a request to
create a watch under an id is refused if and only if a watch of that id has not ended, a
generated id is not that of such a watch, and a running watch is stopped by a request to cancel
it or by the end of the client alone. -/
theorem stream_registry_sound {E : Env} {find : WatchCreateRequest → Bytes → Bool} {s : Store}
    {pending : Option (List Bytes × Nat)} {σ : MachineStream}
    (hs : Reached E (fun _ cmd => cmd.Watchable) (.start s))
    (h : Run (MachineStream.act E find) (fun σ a => a.Meets E σ)
      (.opened false s pending) σ)
    (hlt : σ.store.dbMeta.rev < 2 ^ 52) :
    (∀ watchId req σ', watchId ≠ 0 →
        σ.act E find (.request (.create watchId req)) = some σ' →
        (σ'.replies = σ.replies ++ [.errExists] ↔
          ∃ c ∈ σ.watchers, c.watchId = watchId ∧ ¬ c.Ended)) ∧
      (∀ req σ', σ.act E find (.request (.create 0 req)) = some σ' →
        ∃ c, σ'.watchers = σ.watchers ++ [c] ∧
          ∀ c' ∈ σ.watchers, ¬ c'.Ended → c'.watchId ≠ c.watchId) ∧
      (∀ a σ' i, σ.act E find a = some σ' → σ.Running i → ¬ σ'.Running i →
        a = .close ∨ ∃ c, σ.watchers[i]? = some c ∧ a = .request (.cancel c.watchId)) := by
  have hsound := MachineStream.sound_of_run hs h hlt
  have hrecv : ∀ req σ', σ.act E find (.request req) = some σ' →
      σ.Sound ∧ σ' = σ.handle E req := by
    intro req σ' hact
    cases MachineStream.happens_of_act hact with
    | request req hrecv =>
        exact ⟨hsound.resolve_right (MachineStream.not_over_of_receiving hrecv), rfl⟩
  refine ⟨fun watchId req σ' hne hact => ?_, fun req σ' hact => ?_,
    fun a σ' i hact hrun hstop => ?_⟩
  · obtain ⟨hok, rfl⟩ := hrecv _ σ' hact
    rw [← hok.get_isSome_iff]
    simp only [MachineStream.handle, MachineStream.create, if_neg hne]
    split
    · next hsome => exact ⟨fun _ => hsome, fun _ => rfl⟩
    · next hnone =>
        refine ⟨fun heq => ?_, fun hsome => absurd hsome hnone⟩
        simp [MachineStream.add] at heq
  · obtain ⟨hok, rfl⟩ := hrecv _ σ' hact
    refine ⟨_, rfl, fun c' hc' hended heq => ?_⟩
    have hsome := (hok.get_isSome_iff c'.watchId).mpr ⟨c', hc', rfl, hended⟩
    rw [heq, σ.next_free] at hsome
    cases hsome
  · have hclosed : σ.closed = false := by
      obtain ⟨-, -, -, -, -, hclosed⟩ := hrun
      exact hclosed
    have hok := hsound.resolve_right (fun hover => by
      rw [hover.1] at hclosed
      cases hclosed)
    have hreach := MachineStream.reached_of_run hs h
    exact (hok.running (fun req since => hreach.watchScan_err hlt req since) hrun
      (MachineStream.happens_of_act hact)).resolve_left hstop

/-- From the request to create a watch to its waiting. -/
def createAt (i : Nat) (watchId : Int) (req : WatchCreateRequest) : List MachineAction :=
  .request (.create watchId req) :: List.replicate 4 (.step i)

theorem stream_registry_sound_one :
    ∃ σ ∈ acts (MachineStream.act .plain WatchCreateRequest.selects)
        (createAt 0 5 { key := [97] }) (.opened false .init none),
      (∃ σ' ∈ σ.act .plain WatchCreateRequest.selects (.request (.create 5 { key := [98] })),
        σ'.replies = [.errExists]) ∧ σ.Running 0 ∧
      ∀ a σ', σ.act .plain WatchCreateRequest.selects a = some σ' → ¬ σ'.Running 0 →
        a = .close ∨ ∃ c, σ.watchers[0]? = some c ∧ a = .request (.cancel c.watchId) := by
  obtain ⟨σ, hσ, hexists, hrunning, hrev⟩ : ∃ σ ∈ acts
      (MachineStream.act .plain WatchCreateRequest.selects)
      (createAt 0 5 { key := [97] }) (.opened false .init none),
      (∃ σ' ∈ σ.act .plain WatchCreateRequest.selects (.request (.create 5 { key := [98] })),
        σ'.replies = [.errExists]) ∧ σ.Running 0 ∧ σ.store.dbMeta.rev = 1 := by
    decide +kernel
  have hrun : Run (MachineStream.act .plain WatchCreateRequest.selects)
      (fun σ a => a.Meets .plain σ) (.opened false .init none) σ :=
    Run.refl.of_acts (by decide +kernel) hσ
  have hsound := stream_registry_sound .init hrun (by rw [hrev]; decide)
  exact ⟨σ, hσ, hexists, hrunning, fun a σ' hact hstop => hsound.2.2 a σ' 0 hact hrunning hstop⟩

/-- The watch of id 5 is refused, because revision 2 is below the mark, and nothing else was ever
created, but from then on the id exists.  And the goroutine of a watch that was cancelled stops
the watch that was created under the same id. -/
theorem stream_registry_unsound :
    (∃ σ ∈ acts (MachineStream.act .plain WatchCreateRequest.selects)
        [.commit [{ index := 1, cmd := .put { key := [97], value := [1] } }], .tell,
          .commit [{ index := 2, cmd := .put { key := [97], value := [2] } }], .tell,
          .commit [{ index := 3, cmd := .put { key := [97], value := [3] } }], .tell,
          .commit [{ index := 4, cmd := .compact 4 }], .tell,
          .request (.create 5 { key := [97], startRevision := 2 }), .step 0]
        (.opened false .init none),
      (∀ c ∈ σ.watchers, c.Ended) ∧
      ∃ σ' ∈ σ.act .plain WatchCreateRequest.selects (.request (.create 5 { key := [97] })),
        σ'.replies = σ.replies ++ [.errExists]) ∧
    (∃ σ ∈ acts (MachineStream.act .plain WatchCreateRequest.selects)
        (createAt 0 5 { key := [97] } ++ [.request (.cancel 5)] ++
          createAt 1 5 { key := [97] } ++ [.exit 0])
        (.opened false .init none),
      σ.Running 1 ∧
      ∃ σ' ∈ σ.act .plain WatchCreateRequest.selects (.callback 0), ¬ σ'.Running 1) := by
  decide +kernel

end Turbokube
