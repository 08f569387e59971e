import Turbokube.Watch.Delivery

/-!
# Runs of a watch

A watch is opened on a reached store.  From then on batches are committed, alerts are
delivered, the watch takes its steps and may be cancelled, in any order.  `P` is what is
known of the commands applied meanwhile, which may depend on where the watch is.

`WatchRun.follows` carries a history along such a run.  Without compaction it is the event
table, and the watch sends every event once.
-/

namespace Turbokube

open Encoding Lmdb DbKv

/-- A watch that was opened and has done nothing yet. -/
structure Opened (E : Env) (Q : Batch → Cmd → Prop) (req : WatchCreateRequest) (σ : Watching) :
    Prop where
  reached : Reached E Q (.start σ.store)
  watch : σ.watch = { req := req }
  pending : ∀ keys r, σ.pending = some (keys, r) → r = σ.store.dbMeta.rev

/-- The batch that is committed meets `P`. -/
def WatchAction.Meets (E : Env) (P : Watch → Batch → Cmd → Prop) (σ : Watching) :
    WatchAction → Prop
  | .commit ents => AllMeet E (P σ.watch) ents (.start σ.store)
  | _ => True

inductive WatchRun (E : Env) (find : WatchCreateRequest → Bytes → Bool)
    (P : Watch → Batch → Cmd → Prop) (σ₀ : Watching) : Watching → Prop where
  | refl : WatchRun E find P σ₀ σ₀
  | act {σ σ' : Watching} {a : WatchAction} (h : WatchRun E find P σ₀ σ)
      (hP : a.Meets E P σ)
      (hact : σ.act E find a = some σ') : WatchRun E find P σ₀ σ'

theorem AllMeet.imp {E : Env} {Q Q' : Batch → Cmd → Prop} (hQ : ∀ b cmd, Q b cmd → Q' b cmd)
    {ents : List Entry} {b : Batch} (h : AllMeet E Q ents b) : AllMeet E Q' ents b := by
  induction ents generalizing b with
  | nil => trivial
  | cons ent ents ih =>
      rw [AllMeet] at h ⊢
      refine ⟨hQ _ _ h.1, ?_⟩
      revert h
      cases applyEntry E b ent with
      | error e => exact fun _ => trivial
      | ok r => exact fun h => ih h.2

/-- What an action does. -/
theorem Watching.act_cases {E : Env} {find : WatchCreateRequest → Bytes → Bool}
    {σ σ' : Watching} {a : WatchAction} (h : σ.act E find a = some σ') :
    (∃ ents u, a = .commit ents ∧ σ.pending = none ∧ update E σ.store ents = .ok u ∧
        σ' = { σ with store := u.store, pending := some (u.keys, u.newRev) }) ∨
      (∃ keys r, σ.pending = some (keys, r) ∧
        σ' = { σ with pending := none, watch := σ.watch.alert find keys r }) ∨
      σ' = { σ with watch := σ.watch.step E σ.store } ∨
      σ' = { σ with watch := σ.watch.cancel } := by
  cases a with
  | commit ents =>
      simp only [Watching.act] at h
      split at h
      · rename_i hpending hu
        exact .inl ⟨ents, _, rfl, hpending, hu, (Option.some.inj h).symm⟩
      · cases h
  | tell =>
      simp only [Watching.act] at h
      split at h
      · rename_i hpending
        exact .inr (.inl ⟨_, _, hpending, (Option.some.inj h).symm⟩)
      · cases h
  | step => exact .inr (.inr (.inl (Option.some.inj h).symm))
  | cancel => exact .inr (.inr (.inr (Option.some.inj h).symm))

namespace Watch

variable {E : Env} {s : Store} {w : Watch}

theorem alert_eq (find : WatchCreateRequest → Bytes → Bool) (keys : List Bytes) (r : Nat)
    (w : Watch) : ∃ alerts, w.alert find keys r = { w with alerts := alerts } := by
  rw [alert]
  split
  · exact ⟨_, rfl⟩
  · exact ⟨w.alerts, rfl⟩

theorem cancel_eq (w : Watch) :
    w.cancel = w ∨ w.phase = .idle ∧ w.cancel = { w with phase := .done, registered := false } := by
  rw [cancel]
  split
  · rename_i hidle
    exact .inr ⟨hidle, rfl⟩
  · exact .inl rfl

theorem step_req (w : Watch) : (w.step E s).req = w.req := by
  simp only [step, check, drain, sync]
  repeat' split
  all_goals rfl

/-- Only the first scan sets where the watch began. -/
theorem step_first (hphase : w.phase ≠ .scan) : (w.step E s).first = w.first := by
  simp only [step, check, drain, sync]
  repeat' split
  all_goals first | rfl | exact absurd ‹_› hphase

theorem watchScan_rev (E : Env) (s : Store) (req : WatchCreateRequest) (since : Nat) :
    (watchScan E s req since).rev = s.dbMeta.rev := by
  unfold watchScan
  split
  · rfl
  · split
    · rfl
    · split <;> rfl

theorem next_eq (hcreated : w.phase ≠ .created) (hscan : w.phase ≠ .scan) :
    w.next = w.rev + 1 := by
  unfold next
  split
  · contradiction
  · contradiction
  · rfl

theorem events_scanned (w : Watch) (r : Scanned) (next : WatchPhase) :
    (w.scanned r next).events = w.events ++ r.sent.filterMap WatchMessage.event? :=
  List.filterMap_append

/-- A step sends no event, and the next scan begins where it would have begun unless the watch is
refused, or it scans what comes next. -/
theorem step_cases (E : Env) (s : Store) (w : Watch) :
    (w.step E s).rev = w.rev ∧ (w.step E s).events = w.events ∧
        (w.phase = .created ∧ (0 < w.req.since ∧ w.req.since < s.dbMeta.revMin.toNat) ∧
            (w.step E s).phase = .done ∨
          ((w.step E s).phase ≠ .done → w.phase ≠ .done) ∧ (w.step E s).next = w.next) ∨
      (w.phase ≠ .created ∧ w.phase ≠ .done) ∧ (w.step E s).rev = s.dbMeta.rev ∧
        (w.step E s).next = s.dbMeta.rev + 1 ∧ (w.step E s).events =
          w.events ++ (watchScan E s w.req w.next).sent.filterMap WatchMessage.event? := by
  have hscanned : ∀ (since : Nat) (next : WatchPhase), w.next = since → next ≠ .created →
      next ≠ .scan → (w.scanned (watchScan E s w.req since) next).rev = s.dbMeta.rev ∧
        (w.scanned (watchScan E s w.req since) next).next = s.dbMeta.rev + 1 ∧
        (w.scanned (watchScan E s w.req since) next).events =
          w.events ++ (watchScan E s w.req w.next).sent.filterMap WatchMessage.event? := by
    rintro since next rfl hcreated hscan
    refine ⟨watchScan_rev E s _ _, ?_, events_scanned _ _ _⟩
    rw [next_eq]
    · exact congrArg (· + 1) (watchScan_rev E s w.req _)
    all_goals
      simp only [scanned]
      split
      · simp
      · assumption
  unfold step
  split
  case h_1 hphase =>
    rw [check]
    split
    · rename_i hbelow
      exact .inl ⟨rfl, List.filterMap_append.trans (List.append_nil _), .inl ⟨hphase, hbelow, rfl⟩⟩
    · refine .inl ⟨rfl, List.filterMap_append.trans (List.append_nil _), .inr ⟨?_, ?_⟩⟩
      · simp [hphase]
      · simp only [next, hphase]
  case h_2 hphase =>
    exact .inr ⟨by simp [hphase],
      hscanned _ .insert (by simp only [next, hphase]) (by simp) (by simp)⟩
  case h_3 hphase => exact .inl ⟨rfl, rfl, .inr ⟨by simp [hphase], by simp only [next, hphase]⟩⟩
  case h_4 hphase =>
    exact .inr ⟨by simp [hphase],
      hscanned _ .idle (by simp only [next, hphase]) (by simp) (by simp)⟩
  case h_5 hphase =>
    rw [drain]
    split
    · exact .inl ⟨rfl, rfl, .inr ⟨fun h => h, rfl⟩⟩
    · rename_i alertRev _
      refine .inl ⟨rfl, rfl, .inr ⟨by simp [hphase], ?_⟩⟩
      rw [next_eq (w := w) (by simp [hphase]) (by simp [hphase])]
      by_cases hle : alertRev ≤ w.rev <;> simp [next, hle]
  case h_6 hphase =>
    have hsync := hscanned (w.rev + 1) .idle (by simp only [next, hphase]) (by simp) (by simp)
    refine .inr ⟨by simp [hphase], ?_⟩
    unfold sync
    simp only
    split
    · exact hsync
    · split
      · obtain ⟨hrev, hnext, hevents⟩ := hsync
        refine ⟨hrev, hnext, Eq.trans ?_ hevents⟩
        exact List.filterMap_append.trans (List.append_nil _)
      · exact hsync
  case h_7 hphase => exact .inl ⟨rfl, rfl, .inr ⟨fun h => h, rfl⟩⟩

/-- After a step the next scan begins where it would have begun, or above the store. -/
theorem step_next (w : Watch) (hdone : (w.step E s).phase ≠ .done) :
    (w.step E s).next = w.next ∨ (w.step E s).next = s.dbMeta.rev + 1 := by
  rcases w.step_cases E s with ⟨-, -, ⟨-, -, hrefused⟩ | ⟨-, hnext⟩⟩ | ⟨-, -, hnext, -⟩
  · exact absurd hrefused hdone
  · exact .inl hnext
  · exact .inr hnext

/-- A watch that asks for a revision below the mark is over after its first step. -/
def Refused (s : Store) (w : Watch) : Prop :=
  w.phase = .created ∧ 0 < w.req.since ∧ w.req.since < s.dbMeta.revMin.toNat ∨ w.phase = .done

theorem Refused.step (h : w.Refused s) : (w.step E s).phase = .done := by
  rcases h with ⟨hcreated, hbelow⟩ | hdone
  · simp only [Watch.step, hcreated, check, if_pos hbelow]
  · simp only [Watch.step, hdone]

/-- What the watch scans next, it is asked for or has not scanned. -/
theorem next_le (w : Watch) (hne : w.next ≠ 0) : w.next ≤ max w.start (w.rev + 1) := by
  unfold next at hne ⊢
  split <;> simp_all [start]

end Watch

namespace WatchRun

variable {E : Env} {find : WatchCreateRequest → Bytes → Bool} {Q : Batch → Cmd → Prop}
  {P : Watch → Batch → Cmd → Prop} {req : WatchCreateRequest} {σ₀ σ : Watching}

theorem rev_le (h : WatchRun E find P σ₀ σ) : σ₀.store.dbMeta.rev ≤ σ.store.dbMeta.rev := by
  induction h with
  | refl => exact le_rfl
  | act _ _ hact ih =>
      rcases Watching.act_cases hact with ⟨ents, u, -, -, hu, rfl⟩ | ⟨_, _, -, rfl⟩ | rfl | rfl
      · exact ih.trans (rev_le_of_update hu)
      · exact ih
      · exact ih
      · exact ih

theorem req_eq (hopen : Opened E Q req σ₀) (h : WatchRun E find P σ₀ σ) : σ.watch.req = req := by
  induction h with
  | refl => rw [hopen.watch]
  | @act σ _ _ _ _ hact ih =>
      rcases Watching.act_cases hact with ⟨_, _, -, -, -, rfl⟩ | ⟨keys, r, -, rfl⟩ | rfl | rfl
      · exact ih
      · obtain ⟨alerts, halert⟩ := σ.watch.alert_eq find keys r
        simp only [halert]
        exact ih
      · exact σ.watch.step_req.trans ih
      · rcases σ.watch.cancel_eq with hcancel | ⟨-, hcancel⟩ <;> simp only [hcancel] <;> exact ih

theorem reached (hQ : ∀ b cmd, Q b cmd → cmd.Watchable)
    (hP : ∀ w b cmd, P w b cmd → cmd.Watchable) (hopen : Opened E Q req σ₀)
    (h : WatchRun E find P σ₀ σ) : Reached E (fun _ cmd => cmd.Watchable) (.start σ.store) := by
  induction h with
  | refl => exact hopen.reached.mono hQ
  | act _ hmeet hact ih =>
      rcases Watching.act_cases hact with ⟨ents, u, rfl, -, hu, rfl⟩ | ⟨_, _, -, rfl⟩ | rfl | rfl
      · exact ih.update (AllMeet.imp (hP _) hmeet) hu
      · exact ih
      · exact ih
      · exact ih

/-- A watch that has sent anything began no earlier than it was asked to. -/
theorem since_le (hopen : Opened E Q req σ₀) (hsince : req.since ≤ σ₀.store.dbMeta.rev + 1)
    (h : WatchRun E find P σ₀ σ) :
    req.since ≤ σ.watch.first + 1 ∨ σ.watch.rev = 0 ∧
      (σ.watch.phase = .created ∨ σ.watch.phase = .scan ∨ σ.watch.phase = .done) := by
  induction h with
  | refl =>
      rw [hopen.watch]
      exact .inr ⟨rfl, .inl rfl⟩
  | @act σ _ _ hrun _ hact ih =>
      rcases Watching.act_cases hact with ⟨_, _, -, -, -, rfl⟩ | ⟨keys, r, -, rfl⟩ | rfl | rfl
      · exact ih
      · obtain ⟨alerts, halert⟩ := σ.watch.alert_eq find keys r
        simp only [halert]
        exact ih
      · by_cases hscan : σ.watch.phase = .scan
        · refine .inl ?_
          simp only [Watch.step, hscan]
          have := hrun.rev_le
          omega
        · simp only [Watch.step_first hscan]
          refine ih.imp_right (fun hbegins => ?_)
          obtain ⟨hrev, hphase⟩ := hbegins
          rcases hphase with hphase | hphase | hphase
          · simp only [Watch.step, hphase, Watch.check]
            split
            · exact ⟨hrev, .inr (.inr rfl)⟩
            · exact ⟨hrev, .inr (.inl rfl)⟩
          · exact absurd hphase hscan
          · simp only [Watch.step, hphase]
            exact ⟨hrev, .inr (.inr trivial)⟩
      · rcases σ.watch.cancel_eq with hcancel | ⟨hidle, hcancel⟩ <;> simp only [hcancel]
        · exact ih
        · refine .inl (ih.resolve_right ?_)
          rintro ⟨-, hphase⟩
          simp [hidle] at hphase

end WatchRun

/-- A history that the watch has followed.  Under `R`, that its start was not below the mark when
it was opened, the history has all writes from the start on, and the versions of what the watch
has still to scan are there.  Otherwise it scans nothing. -/
structure Follows (E : Env) (R : Prop) (σ : Watching) (hist : List KvEvent) : Prop where
  delivers : Delivers σ.store σ.pending σ.watch hist
  refused : R ∨ σ.watch.Refused σ.store
  kept : R → σ.watch.phase ≠ .done → σ.watch.next ≠ 0 →
    σ.store.tables.kv.KeptFrom E True σ.watch.next ((σ.store.dbMeta.rev + 1) * 4096)
  complete : R → σ.watch.next ≠ 0 → ∀ wr ∈ σ.store.tables.kv.log, σ.watch.start ≤ wr.rev →
      (σ.watch.phase ≠ .done ∨ wr.rev ≤ σ.watch.rev) →
      ∃ evt ∈ hist, evt.key = wr.key ∧ evt.rev = wr.kr

namespace Follows

variable {E : Env} {find : WatchCreateRequest → Bytes → Bool} {P : Batch → Cmd → Prop}
  {R : Prop} {σ : Watching} {hist : List KvEvent}

/-- The history of a watch that was just opened. -/
theorem opened {s : Store} {p : Option (List Bytes × Nat)} (req : WatchCreateRequest)
    (hreach : Reached E P (.start s))
    (hP : ∀ b cmd, P b cmd → cmd.Watchable ∧ cmd.KeepsMark b)
    (hs : Scannable E s) (hp : ∀ keys r, p = some (keys, r) → r = s.dbMeta.rev) :
    Follows E (req.since ≠ 0 → s.dbMeta.revMin.toNat ≤ req.since) ⟨s, p, { req := req }⟩
      s.tables.kv.events := by
  have hlt := hs.lt
  have hrev : (Batch.start s).newRev < 2 ^ 52 := show s.dbMeta.rev < 2 ^ 52 by omega
  constructor
  case delivers => exact .create hs hp req
  case refused =>
    by_cases hR : req.since ≠ 0 → s.dbMeta.revMin.toNat ≤ req.since
    · exact .inl hR
    · push Not at hR
      exact .inr (.inl ⟨rfl, Nat.pos_of_ne_zero hR.1, hR.2⟩)
  case kept =>
    intro hR _ hne
    exact (hreach.keptFrom_mark (fun b cmd hq => ⟨(hP b cmd hq).1.1,
      (hP b cmd hq).1.2.1.imp (fun _ hreq _ => hreq), (hP b cmd hq).2⟩) hrev).mono_cut (hR hne)
  case complete =>
    intro hR hne wr hwr hstart _
    obtain ⟨-, -, hlog, -⟩ := hreach.versioned_of_opsAtMost (fun b cmd hq => (hP b cmd hq).1.1) hrev
    have hpos : req.since ≠ 0 := hne
    refine (hreach.recorded_mark (fun b cmd hq => ⟨(hP b cmd hq).1.1, (hP b cmd hq).2⟩)
      hrev).mono (hR hpos) wr hwr ?_
    rw [hlog.upper wr hwr]
    simpa only [Watch.start, if_neg hpos] using hstart

/-- A batch whose compactions take away nothing the watch has still to read. -/
theorem commit {ents : List Entry} {u : Updated} (h : Follows E R σ hist)
    (hmulti : E.flags.txnMultiWriteEnabled = false)
    (hreach : Reached E (fun _ cmd => cmd.Watchable) (.start σ.store))
    (hP : ∀ b cmd, P b cmd → cmd.Watchable)
    (hcompact : ∀ b (revision : Int64), P b (.compact revision) → σ.watch.phase ≠ .done →
      σ.watch.next ≠ 0 → revision.toUInt64.toNat ≤ σ.watch.next)
    (hmark : R ∨ ∀ b cmd, P b cmd → cmd.KeepsMark b)
    (hmeet : AllMeet E P ents (.start σ.store)) (hpending : σ.pending = none)
    (hu : update E σ.store ents = .ok u) (hlt : u.store.dbMeta.rev + 1 < 2 ^ 52) :
    Follows E R { σ with store := u.store, pending := some (u.keys, u.newRev) }
      (hist ++ u.store.tables.kv.eventsFrom (σ.store.dbMeta.rev + 1)) := by
  have hle := rev_le_of_update hu
  have hver : VersionedTo E False False σ.store.tables σ.store.dbMeta.rev :=
    fun hr => hreach.versioned_of_opsAtMost (fun _ _ hq => hq.1) hr
  have hops : ∀ b cmd, P b cmd → cmd.OpsAtMost 1024 := fun b cmd hq => (hP b cmd hq).1
  have hreach' := hreach.update (hmeet.imp hP) hu
  have hs := hreach'.scannable hmulti (fun _ _ hq => hq) hlt
  obtain ⟨b, hb, htables, hrev, hnew, hkeys⟩ := begun_of_update hver hops hmeet hu
  have hsame : u.newRev = u.store.dbMeta.rev := hnew.trans hrev.symm
  have hr : u.newRev < 2 ^ 52 := by omega
  constructor
  case delivers =>
    have hdelivers := h.delivers
    rw [hpending] at hdelivers
    rw [hsame]
    refine hdelivers.commit hs hle (fun evt hevt => ?_) (fun hdone hne hn => ?_)
    · obtain ⟨hmem, hgt⟩ := List.mem_filter.mp hevt
      rw [htables] at hmem
      rw [hkeys]
      exact (hb.fresh (by omega) evt hmem (of_decide_eq_true hgt)).2
    · exact keptFrom_of_update hver hops hmeet hu hr hn
        (fun b revision hq => hcompact b revision hq hdone hne)
  case refused =>
    rcases h.refused with hR | ⟨hcreated, hpos, hbelow⟩ | hdone
    · exact .inl hR
    · refine hmark.imp_right (fun hmark => .inl ⟨hcreated, hpos, hbelow.trans_le ?_⟩)
      exact UInt64.le_iff_toNat_le.mp (revMin_le_of_update hmark hmeet hu)
    · exact .inr (.inr hdone)
  case kept =>
    intro hR hdone hne
    exact versions_of_update hops hmeet hu hr
      (fun b cmd hq => (hP b cmd hq).2.1.imp (fun _ hreq _ => hreq))
      (fun b revision hq => hcompact b revision hq hdone hne) (h.kept hR hdone hne)
  case complete =>
    intro hrec hne wr hwr hstart hdone
    obtain ⟨new, hlog, hlater⟩ := log_of_update hmeet hu hreach.recsOk
    rw [hlog] at hwr
    rcases List.mem_append.mp hwr with hold | hnew'
    · obtain ⟨evt, hevt, heq⟩ := h.complete hrec hne wr hold hstart hdone
      exact ⟨evt, List.mem_append_left _ hevt, heq⟩
    · have hgt := hlater wr hnew'
      have hnd : σ.watch.phase ≠ .done := by
        refine hdone.resolve_right (fun hle' : wr.rev ≤ σ.watch.rev => ?_)
        have := h.delivers.rev_le
        omega
      obtain ⟨-, -, hlogok, -⟩ := hver (by omega)
      obtain ⟨-, -, hlogok', -⟩ := hreach'.versioned_of_opsAtMost (fun _ _ hq => hq.1)
        (show u.store.dbMeta.rev < 2 ^ 52 by omega)
      have hnone : Recorded σ.store.tables.kv (max σ.watch.next (σ.store.dbMeta.rev + 1)) := by
        intro w hw hfloor
        rw [hlogok.upper w hw] at hfloor
        have : w.rev ≤ σ.store.dbMeta.rev := hlogok.rev_le le_rfl le_rfl hw
        omega
      have hall := recorded_of_update hver hops hmeet hu hr
        (fun b revision hq => (hcompact b revision hq hnd hne).trans (le_max_left _ _)) hnone
      have hupper : wr.kr.upper.toNat = wr.rev :=
        hlogok'.upper wr
          (by rw [show (Batch.start u.store).store = u.store from rfl, hlog]; exact hwr)
      have hnext := σ.watch.next_le hne
      have hwle := h.delivers.rev_le
      obtain ⟨evt, hevt, hkey, hevtrev⟩ := hall wr (by rw [hlog]; exact hwr)
        (by rw [hupper]; have : σ.watch.start ≤ wr.rev := hstart; omega)
      refine ⟨evt, List.mem_append_right _ (List.mem_filter.mpr ⟨hevt, ?_⟩), hkey, hevtrev⟩
      rw [decide_eq_true_eq, hevtrev, hupper]
      omega

/-- A step of the watch, for which only the first scan sets the start. -/
theorem move {p : Option (List Bytes × Nat)} {w : Watch} (h : Follows E R σ hist)
    (hdelivers : Delivers σ.store p w hist)
    (hstart : w.next ≠ 0 → (∀ wr ∈ σ.store.tables.kv.log, wr.rev < w.start) ∨
      σ.watch.next ≠ 0 ∧ w.start = σ.watch.start)
    (hdone : σ.watch.phase = .done → w.phase = .done ∧ w.rev = σ.watch.rev)
    (hrefused : σ.watch.Refused σ.store → w.Refused σ.store)
    (hnext : w.phase ≠ .done → w.next = σ.watch.next ∨ σ.store.tables.kv.KeptFrom E True w.next
      ((σ.store.dbMeta.rev + 1) * 4096)) :
    Follows E R { σ with pending := p, watch := w } hist := by
  refine ⟨hdelivers, h.refused.imp_right hrefused, fun hR hphase hne => ?_,
    fun hrec hne wr hwr hle hphase => ?_⟩
  · rcases hnext hphase with hsame | hkept
    · simp only at hne ⊢
      rw [hsame] at hne ⊢
      exact h.kept hR (fun hd => hphase (hdone hd).1) hne
    · exact hkept
  · rcases hstart hne with hnone | ⟨hne', heq⟩
    · exact absurd hle (Nat.not_le.mpr (hnone wr hwr))
    · refine h.complete hrec hne' wr hwr (heq ▸ hle) ?_
      by_cases hd : σ.watch.phase = .done
      · obtain ⟨hd', hrev⟩ := hdone hd
        exact .inr (hrev ▸ hphase.resolve_left (fun hne => hne hd'))
      · exact .inl hd

theorem readable (h : Follows E R σ hist) : σ.watch.Readable E True σ.store := by
  intro hcreated hdone
  refine h.kept (h.refused.resolve_right ?_) hdone
  rintro (⟨hphase, -⟩ | hphase)
  · exact hcreated hphase
  · exact hdone hphase

theorem step {U : Prop} (h : Follows E R σ hist) (hs : Scannable E σ.store)
    (hver : σ.store.tables.kv.Versioned E True U ((σ.store.dbMeta.rev + 1) * 4096))
    (hsince : σ.watch.req.since < 2 ^ 52) :
    Follows E R { σ with watch := σ.watch.step E σ.store } hist := by
  have hlog : ∀ wr ∈ σ.store.tables.kv.log, wr.rev ≤ σ.store.dbMeta.rev := by
    obtain ⟨-, -, hlog, -⟩ := id hver
    exact fun wr hwr => hlog.rev_le le_rfl le_rfl hwr
  refine h.move (h.delivers.step hs h.readable hsince) (fun hne => ?_) (fun hdone => ?_)
    (fun hrefused => .inr hrefused.step)
    (fun hdone => (σ.watch.step_next hdone).imp_right (fun hnext => ?_))
  · by_cases hscan : σ.watch.phase = .scan
    · by_cases hzero : σ.watch.req.since = 0
      · -- the watch starts above the revision of the store
        refine .inl (fun wr hwr => ?_)
        have := hlog wr hwr
        simp only [Watch.start, Watch.step, hscan, Watch.scanned, hzero, if_true]
        omega
      · refine .inr ⟨by simpa only [Watch.next, hscan] using hzero, ?_⟩
        rw [Watch.start, Watch.start, Watch.step_req, if_neg hzero, if_neg hzero]
    · have hstart : (σ.watch.step E σ.store).start = σ.watch.start := by
        rw [Watch.start, Watch.start, Watch.step_req, Watch.step_first hscan]
      refine .inr ⟨fun hnext => hne ?_, hstart⟩
      -- only a watch that has not scanned has no next revision
      have hcreated : σ.watch.phase = .created := by
        unfold Watch.next at hnext
        split at hnext
        · assumption
        · contradiction
        · omega
      have hzero : σ.watch.req.since = 0 := by
        simpa only [Watch.next, hcreated] using hnext
      simp [Watch.step, hcreated, Watch.check, hzero, Watch.next]
  · simp only [Watch.step, hdone]
    exact ⟨trivial, trivial⟩
  · rw [hnext]
    exact hver.keptFrom

theorem tell {keys : List Bytes} {r : Nat} (h : Follows E R σ hist)
    (hpending : σ.pending = some (keys, r))
    (hfind : ∀ k, σ.watch.req.selects k = true → find σ.watch.req k = true) :
    Follows E R { σ with pending := none, watch := σ.watch.alert find keys r } hist := by
  have hdelivers := h.delivers
  rw [hpending] at hdelivers
  have htold := hdelivers.tell hfind
  obtain ⟨alerts, halert⟩ := σ.watch.alert_eq find keys r
  rw [halert] at htold ⊢
  exact h.move htold (fun hne => .inr ⟨hne, rfl⟩) (fun hdone => ⟨hdone, rfl⟩)
    (fun hrefused => hrefused) (fun _ => .inl rfl)

theorem cancel (h : Follows E R σ hist) : Follows E R { σ with watch := σ.watch.cancel } hist := by
  have hdelivers := h.delivers.cancel
  rcases σ.watch.cancel_eq with hcancel | ⟨hidle, hcancel⟩
  · rw [hcancel]
    exact h
  · rw [hcancel] at hdelivers ⊢
    refine h.move hdelivers (fun _ => .inr ⟨?_, rfl⟩) (fun hdone => ⟨rfl, rfl⟩)
      (fun _ => .inr rfl) (fun hdone => absurd rfl hdone)
    simp [Watch.next, hidle]

end Follows

section Following

variable {E : Env} {find : WatchCreateRequest → Bytes → Bool} {Q : Batch → Cmd → Prop}
  {P : Watch → Batch → Cmd → Prop} {req : WatchCreateRequest} {σ₀ σ : Watching}
  (hmulti : E.flags.txnMultiWriteEnabled = false)
  (hfind : ∀ k, req.selects k = true → find req k = true)
  (hQ : ∀ b cmd, Q b cmd → cmd.Watchable ∧ cmd.KeepsMark b)
  (hP : ∀ w b cmd, P w b cmd → cmd.Watchable)
  (hcompact : ∀ w b (revision : Int64), P w b (.compact revision) → w.phase ≠ .done →
    w.next ≠ 0 → revision.toUInt64.toNat ≤ w.next)
  (hmark : (req.since ≠ 0 → σ₀.store.dbMeta.revMin.toNat ≤ req.since) ∨
    ∀ w b cmd, P w b cmd → cmd.KeepsMark b)
  (hopen : Opened E Q req σ₀) (hsince : req.since < 2 ^ 52)

include hmulti hfind hQ hP hcompact hmark hopen hsince in
/-- Without compaction the history is the event table. -/
theorem WatchRun.follows (h : WatchRun E find P σ₀ σ) (hlt : σ.store.dbMeta.rev + 1 < 2 ^ 52) :
    ∃ hist, Follows E (req.since ≠ 0 → σ₀.store.dbMeta.revMin.toNat ≤ req.since) σ hist ∧
      ((∀ w b revision, ¬ P w b (.compact revision)) → hist = σ.store.tables.kv.events) := by
  induction h with
  | refl =>
      have hs := hopen.reached.scannable hmulti (fun b cmd hq => (hQ b cmd hq).1) hlt
      refine ⟨_, ?_, fun _ => rfl⟩
      obtain ⟨s, p, w⟩ := σ₀
      obtain rfl := hopen.watch
      exact .opened req hopen.reached hQ hs hopen.pending
  | @act σ σ' a hrun hmeet hact ih =>
      have hreach := hrun.reached (fun b cmd hq => (hQ b cmd hq).1) hP hopen
      have hreq := hrun.req_eq hopen
      rcases Watching.act_cases hact with
        ⟨ents, u, rfl, hpending, hu, rfl⟩ | ⟨keys, r, hpending, rfl⟩ | rfl | rfl
      · have hle := rev_le_of_update hu
        simp only at hlt
        obtain ⟨hist, hfollows, hkept⟩ := ih (by omega)
        have hmeet' : AllMeet E (P σ.watch) ents (.start σ.store) := hmeet
        refine ⟨_, hfollows.commit hmulti hreach (hP _)
          (fun b revision hq => hcompact _ b revision hq)
          (hmark.imp_right (fun hmark b cmd hq => hmark _ b cmd hq)) hmeet' hpending hu hlt,
          fun hnone => ?_⟩
        have hver : VersionedTo E False False σ.store.tables σ.store.dbMeta.rev :=
          fun hr => hreach.versioned_of_opsAtMost (fun _ _ hq => hq.1) hr
        obtain ⟨b, -, -, hrev, hnew, -⟩ :=
          begun_of_update hver (fun b cmd hq => (hP _ b cmd hq).1) hmeet' hu
        have hall := keptFrom_of_update hver (fun b cmd hq => (hP _ b cmd hq).1) hmeet' hu
          (by omega) (Nat.zero_le _) (fun b revision hq => absurd hq (hnone _ b revision))
        simp only [KeptFrom, eventsFrom, Nat.zero_le, decide_true, List.filter_true] at hall
        rw [hkept hnone, eventsFrom]
        exact hall.symm
      · obtain ⟨hist, hfollows, hkept⟩ := ih hlt
        exact ⟨hist, hfollows.tell hpending (by rw [hreq]; exact hfind), hkept⟩
      · obtain ⟨hist, hfollows, hkept⟩ := ih hlt
        have hs := hreach.scannable hmulti (fun _ _ hq => hq) hlt
        have hver := hreach.versioned_watchable
          (show σ.store.dbMeta.rev < 2 ^ 52 by simp only at hlt; omega)
        exact ⟨hist, hfollows.step hs hver (by rw [hreq]; exact hsince), hkept⟩
      · obtain ⟨hist, hfollows, hkept⟩ := ih hlt
        exact ⟨hist, hfollows.cancel, hkept⟩

end Following

/-- The events from the start of the watch up to its revision that it is asked for. -/
def Watch.reports (w : Watch) (evt : KvEvent) : Bool :=
  decide (w.start ≤ evt.rev.upper.toNat) && decide (evt.rev.upper.toNat ≤ w.rev) &&
    w.req.wants evt

/-- A watch that was not asked for a revision to come sends what it is asked for. -/
theorem WatchRun.covers_eq {E : Env} {find : WatchCreateRequest → Bytes → Bool}
    {Q : Batch → Cmd → Prop} {P : Watch → Batch → Cmd → Prop} {req : WatchCreateRequest}
    {σ₀ σ : Watching} (hopen : Opened E Q req σ₀)
    (hsince : req.since ≤ σ₀.store.dbMeta.rev + 1) (h : WatchRun E find P σ₀ σ) :
    σ.watch.covers = σ.watch.reports := by
  funext evt
  rw [Watch.covers, Watch.reports]
  refine congrArg (· && _) ?_
  simp only [Bool.and_eq_decide, decide_eq_true_eq, decide_eq_decide]
  have hreq := h.req_eq hopen
  rcases h.since_le hopen hsince with hle | ⟨hrev, -⟩
  · rw [Watch.lower, Watch.start, hreq]
    split <;> omega
  · rw [Watch.lower, Watch.start, hreq]
    split <;> omega

/-- A watch is opened on a store whose compactions never went back.  In a run without compaction,
whose transactions are not too long and whose puts make no short records and send no value when
they keep the present one, it has sent the events from its start up to its revision, in their
order and each once.  When it waits and no alert is on its way, these are all there are. -/
theorem watch_sends_each_once {E : Env} {find : WatchCreateRequest → Bytes → Bool}
    {req : WatchCreateRequest} {σ₀ σ : Watching} (hmulti : E.flags.txnMultiWriteEnabled = false)
    (hfind : ∀ k, req.selects k = true → find req k = true)
    (hopen : Opened E (fun b cmd => cmd.Watchable ∧ cmd.KeepsMark b) req σ₀)
    (hsince : req.since ≤ σ₀.store.dbMeta.rev + 1)
    (h : WatchRun E find (fun _ _ cmd => cmd.Watchable ∧ cmd.isCompact = false) σ₀ σ)
    (hlt : σ.store.dbMeta.rev + 1 < 2 ^ 52) :
    List.Forall₂ Shows (σ.store.tables.kv.events.filter σ.watch.reports) σ.watch.events ∧
      (σ.store.tables.kv.events.filter σ.watch.reports).Pairwise KvEvent.Before ∧
      (σ.pending = none → σ.watch.phase = .idle → σ.watch.alerts = [] →
        ∀ evt ∈ σ.store.tables.kv.events, σ.watch.start ≤ evt.rev.upper.toNat →
          req.wants evt = true → evt.rev.upper.toNat ≤ σ.watch.rev) := by
  have hle := h.rev_le
  have hreach := h.reached (fun _ _ hq => hq.1) (fun _ _ _ hq => hq.1) hopen
  have hmark : ∀ (w : Watch) b cmd, Cmd.Watchable cmd ∧ cmd.isCompact = false →
      cmd.KeepsMark b := by
    intro _ b cmd hq
    cases cmd <;> first | trivial | cases hq.2
  obtain ⟨hist, hfollows, hkept⟩ := h.follows hmulti hfind (fun _ _ hq => hq)
    (fun _ _ _ hq => hq.1) (fun _ _ _ hq => by cases hq.2) (.inr hmark) hopen (by omega) hlt
  obtain rfl := hkept (fun _ _ _ hq => by cases hq.2)
  have hdelivers := hfollows.delivers
  obtain ⟨ch, hrep, hlog, -⟩ := hreach.versioned_of_opsAtMost (fun _ _ hq => hq.1)
    (show σ.store.dbMeta.rev < 2 ^ 52 by omega)
  refine ⟨?_, (hrep.events_before hlog hreach.tallied).filter _, ?_⟩
  · rw [← h.covers_eq hopen hsince]
    exact hdelivers.sent
  · intro hpending hidle halerts evt hevt _ hwants
    by_contra hgt
    rw [← h.req_eq hopen, WatchCreateRequest.wants, Bool.and_eq_true] at hwants
    rcases hdelivers.told hidle evt hevt (Nat.lt_of_not_le hgt) hwants.1 with
      ⟨keys, r, heq, -⟩ | ⟨a, ha, -⟩
    · rw [hpending] at heq
      cases heq
    · rw [halerts] at ha
      cases ha

section Concrete

variable {E : Env} {find : WatchCreateRequest → Bytes → Bool} {P : Watch → Batch → Cmd → Prop}

instance [∀ w b cmd, Decidable (P w b cmd)] (σ : Watching) (a : WatchAction) :
    Decidable (a.Meets E P σ) := by
  cases a <;> unfold WatchAction.Meets <;> infer_instance

/-- The commits of a series of actions meet `P` when their turn comes. -/
def ActsMeet (E : Env) (find : WatchCreateRequest → Bytes → Bool)
    (P : Watch → Batch → Cmd → Prop) : List WatchAction → Watching → Prop
  | [], _ => True
  | a :: rest, σ =>
      a.Meets E P σ ∧
      match σ.act E find a with
      | none => True
      | some σ' => ActsMeet E find P rest σ'

instance ActsMeet.decidable [∀ w b cmd, Decidable (P w b cmd)] :
    (acts : List WatchAction) → (σ : Watching) → Decidable (ActsMeet E find P acts σ)
  | [], _ => .isTrue trivial
  | a :: rest, σ => by
      unfold ActsMeet
      cases σ.act E find a with
      | none => exact inferInstanceAs (Decidable (a.Meets E P σ ∧ True))
      | some σ' =>
          have := ActsMeet.decidable rest σ'
          exact inferInstanceAs (Decidable (a.Meets E P σ ∧ ActsMeet E find P rest σ'))

theorem WatchRun.of_acts {acts : List WatchAction} {σ₀ σ σ' : Watching}
    (h : WatchRun E find P σ₀ σ) (hmeet : ActsMeet E find P acts σ)
    (hacts : σ' ∈ Watching.acts E find acts σ) : WatchRun E find P σ₀ σ' := by
  induction acts generalizing σ with
  | nil =>
      obtain rfl := Option.some.inj hacts
      exact h
  | cons a rest ih =>
      rw [Option.mem_def, Watching.acts, Option.bind_eq_some_iff] at hacts
      obtain ⟨σ₁, hact, hrest⟩ := hacts
      rw [ActsMeet, hact] at hmeet
      exact ih (h.act hmeet.1 hact) hmeet.2 hrest

/-- A watch on an empty store. -/
def Watching.init (req : WatchCreateRequest) : Watching :=
  { store := .init, watch := { req := req } }

theorem Opened.init {Q : Batch → Cmd → Prop} (req : WatchCreateRequest) :
    Opened E Q req (.init req) := ⟨.init, rfl, fun _ _ h => by cases h⟩

/-- The commit of one command and its alerts. -/
def commitTell (cmd : Cmd) : List WatchAction := [.commit [{ index := 1, cmd := cmd }], .tell]

/-- Three puts of `a`. -/
def threePuts : List WatchAction :=
  commitTell (.put { key := [97], value := [1] }) ++
    commitTell (.put { key := [97], value := [2] }) ++
    commitTell (.put { key := [97], value := [3] })

/-- From its creation to its waiting a watch takes four steps. -/
def settle : List WatchAction := [.step, .step, .step, .step]

end Concrete

theorem watch_sends_each_once_after_put :
    ∃ σ ∈ Watching.acts .plain WatchCreateRequest.selects
        (settle ++ commitTell (.put { key := [97], value := [1] }) ++ [.step, .step])
        (.init { key := [97] }),
      σ.watch.events.length = 1 ∧
      List.Forall₂ Shows (σ.store.tables.kv.events.filter σ.watch.reports) σ.watch.events := by
  obtain ⟨σ, hσ, hlen, hrev⟩ : ∃ σ ∈ Watching.acts .plain WatchCreateRequest.selects
        (settle ++ commitTell (.put { key := [97], value := [1] }) ++ [.step, .step])
        (.init { key := [97] }), σ.watch.events.length = 1 ∧ σ.store.dbMeta.rev = 2 := by
    decide +kernel
  have hrun : WatchRun .plain WatchCreateRequest.selects
      (fun _ _ cmd => cmd.Watchable ∧ cmd.isCompact = false) (.init { key := [97] }) σ :=
    WatchRun.refl.of_acts (by decide +kernel) hσ
  exact ⟨σ, hσ, hlen, (watch_sends_each_once rfl (fun _ hk => hk) (.init _) (by decide) hrun
    (by rw [hrev]; decide)).1⟩

/-- The record of `a` is too short to be read back.  The watch that comes to its event stops,
and the event is not sent. -/
theorem watch_stops_at_short_record :
    ∃ σ ∈ Watching.acts .plain WatchCreateRequest.selects
        (settle ++ commitTell (.put { key := [97] }) ++ [.step, .step]) (.init { key := [97] }),
      σ.store.tables.kv.events.filter σ.watch.reports = [⟨0, [97], revAt 2 0 false⟩] ∧
      σ.watch.events = [] ∧ σ.watch.phase = .done := by
  decide +kernel

end Turbokube
