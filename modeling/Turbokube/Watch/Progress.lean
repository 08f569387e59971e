import Turbokube.Registry
import Turbokube.Watch.Conns

/-!
# Progress responses

A progress response names a revision up to which the client has everything.  The service
reads the revision of the store for it and asks no watch.  What it says is true if no watch
has anything left to do at that moment: no batch is between its commit and its alerts, every
open watch waits without an alert, and its messages have been taken.
-/

namespace Turbokube

open Encoding Lmdb DbKv

namespace WatchStream

/-- No watch has anything left to do. -/
def Quiet (σ : WatchStream) : Prop :=
  σ.pending = none ∧ ∀ c ∈ σ.conns, c.watch.phase ≠ .done →
    c.watch.phase = .idle ∧ c.watch.alerts = [] ∧ c.taken = c.watch.sent.length

end WatchStream

/-- What is known of an action in the state it is taken in.  `V` is for the ranges that the
interval tree accepts. -/
def StreamAction.Allowed (E : Env) (V : WatchCreateRequest → Prop) (σ : WatchStream) :
    StreamAction → Prop
  | .commit ents => AllMeet E (fun b cmd => cmd.Watchable ∧ cmd.KeepsMark b ∧
      ∀ c ∈ σ.conns, cmd.Spares c.watch) ents (.start σ.store)
  | .create _ req => V req
  | .progress => σ.Quiet
  | _ => True

/-- A stream that is opened on a reached store, and what happens then. -/
inductive StreamRun (E : Env) (find : WatchCreateRequest → Bytes → Bool) (max : Nat)
    (V : WatchCreateRequest → Prop) : WatchStream → Prop where
  | start {s : Store} (watchId : Int64)
      (h : Reached E (fun b cmd => cmd.Watchable ∧ cmd.KeepsMark b) (.start s)) :
      StreamRun E find max V { store := s, watchId := watchId }
  | act {σ σ' : WatchStream} {a : StreamAction} (h : StreamRun E find max V σ)
      (ha : a.Allowed E V σ) (hact : σ.act E find max a = some σ') : StreamRun E find max V σ'

/-- The write has been sent on the stream for this watch. -/
def Conn.Sent (c : Conn) (wr : Write) : Prop :=
  ∃ resp ∈ c.out, ∃ m ∈ resp.events, Shows wr.event m

/-- Everything up to revision `r` that an open watch is asked for has been sent. -/
def WatchStream.SentTo (σ : WatchStream) (r : Nat) : Prop :=
  ∀ c ∈ σ.conns, c.watch.phase ≠ .done → ∀ wr ∈ σ.store.tables.kv.log,
    c.watch.start ≤ wr.rev → wr.rev ≤ r → c.watch.req.wants wr.event = true → c.Sent wr

/-- The state of a stream. -/
structure StreamOk (E : Env) (find : WatchCreateRequest → Bytes → Bool) (σ : WatchStream) :
    Prop where
  reached : Reached E (fun b cmd => cmd.Watchable ∧ cmd.KeepsMark b) (.start σ.store)
  pending : ∀ keys r, σ.pending = some (keys, r) → r = σ.store.dbMeta.rev
  conns : ∀ c ∈ σ.conns, ConnOk E find σ.store σ.pending c
  answering : ∀ header, σ.handling = .answering header →
    ∃ r ≤ σ.store.dbMeta.rev, header = responseHeader E r ∧ σ.SentTo r ∧
      ∀ c ∈ σ.conns, c.watch.phase ≠ .created ∧ c.watch.phase ≠ .scan

/-- What a watch that goes on keeps: where it began, and what was sent for it. -/
structure Conn.Continues (c c' : Conn) : Prop where
  opened : c'.watch.phase ≠ .done →
    c.watch.phase ≠ .done ∧ c'.watch.start = c.watch.start ∧ c'.watch.req = c.watch.req
  out : c.out ⊆ c'.out
  begun : c.watch.phase ≠ .created ∧ c.watch.phase ≠ .scan →
    c'.watch.phase ≠ .created ∧ c'.watch.phase ≠ .scan

namespace Conn.Continues

variable {E : Env} {find : WatchCreateRequest → Bytes → Bool} {s : Store}

theorem refl (c : Conn) : Continues c c := ⟨fun h => ⟨h, rfl, rfl⟩, fun _ h => h, fun h => h⟩

theorem alert (c : Conn) (keys : List Bytes) (r : Nat) :
    Continues c { c with watch := c.watch.alert find keys r } := by
  obtain ⟨alerts, halert⟩ := c.watch.alert_eq find keys r
  rw [halert]
  exact ⟨fun h => ⟨h, rfl, rfl⟩, fun _ h => h, fun h => h⟩

theorem cancel (c : Conn) : Continues c { c with watch := c.watch.cancel } := by
  rcases c.watch.cancel_eq with hcancel | ⟨hidle, hcancel⟩
  · rw [hcancel]
    exact .refl c
  · rw [hcancel]
    exact ⟨fun h => absurd rfl h, fun _ h => h, fun _ => ⟨by simp, by simp⟩⟩

theorem step (c : Conn) (hbegun : c.watch.phase ≠ .created ∧ c.watch.phase ≠ .scan) :
    Continues c { c with watch := c.watch.step E s } := by
  have hstart : (c.watch.step E s).start = c.watch.start := by
    rw [Watch.start, Watch.start, Watch.step_req, Watch.step_first hbegun.2]
  refine ⟨fun h => ⟨fun hdone => h ?_, hstart, Watch.step_req _⟩, fun _ h => h, fun _ => ?_⟩
  · simp only [Watch.step, hdone]
  · exact Watch.step_begun hbegun

end Conn.Continues

namespace StreamOk

variable {E : Env} {find : WatchCreateRequest → Bytes → Bool} {max : Nat}
  {V : WatchCreateRequest → Prop} {σ σ' : WatchStream}

/-- An action that leaves the store alone, after which each watch has gone on. -/
theorem moved (h : StreamOk E find σ) (hstore : σ'.store = σ.store)
    (hpending : ∀ keys r, σ'.pending = some (keys, r) → r = σ.store.dbMeta.rev)
    (hconns : ∀ c ∈ σ'.conns, ConnOk E find σ.store σ'.pending c)
    (hanswering : ∀ header, σ'.handling = .answering header → σ.handling = .answering header ∧
      ∀ c' ∈ σ'.conns, ∃ c ∈ σ.conns, c.Continues c') : StreamOk E find σ' := by
  refine ⟨hstore ▸ h.reached, hstore ▸ hpending, hstore ▸ hconns, fun header heq => ?_⟩
  obtain ⟨hsame, hcont⟩ := hanswering header heq
  obtain ⟨r, hr, hheader, hsent, hbegun⟩ := h.answering header hsame
  refine ⟨r, hstore ▸ hr, hheader, fun c' hc' hdone wr hwr hstart hle hwants => ?_,
    fun c' hc' => ?_⟩
  · obtain ⟨c, hc, hcc⟩ := hcont c' hc'
    obtain ⟨hopen, hst, hreq⟩ := hcc.opened hdone
    rw [hstore] at hwr
    obtain ⟨resp, hresp, hm⟩ := hsent c hc hopen wr hwr (hst ▸ hstart) hle (hreq ▸ hwants)
    exact ⟨resp, hcc.out hresp, hm⟩
  · obtain ⟨c, hc, hcc⟩ := hcont c' hc'
    exact hcc.begun (hbegun c hc)

/-- One watch moves. -/
theorem update {i : Nat} {f : Conn → Conn} (h : StreamOk E find σ)
    (hok : ∀ c, σ.conns[i]? = some c → ConnOk E find σ.store σ.pending (f c))
    (hcont : ∀ c, σ.conns[i]? = some c → c.watch.phase ≠ .created ∧ c.watch.phase ≠ .scan →
      c.Continues (f c)) : StreamOk E find (σ.update i f) := by
  refine h.moved rfl h.pending (fun c' hc' => ?_) (fun header heq => ⟨heq, fun c' hc' => ?_⟩)
  · rcases Registry.mem_modify_cases hc' with ⟨c, hc, rfl⟩ | hc
    · exact hok c hc
    · exact h.conns c' hc
  · rcases Registry.mem_modify_cases hc' with ⟨c, hc, rfl⟩ | hc
    · have hmem := List.mem_of_getElem? hc
      obtain ⟨-, -, -, -, hbegun⟩ := h.answering header heq
      exact ⟨c, hmem, hcont c hc (hbegun c hmem)⟩
    · exact ⟨c', hc, .refl c'⟩

/-- A batch is committed, and its revisions are above what is being answered. -/
theorem commit {ents : List Entry} {u : Updated} (h : StreamOk E find σ)
    (hmulti : E.flags.txnMultiWriteEnabled = false)
    (hallowed : (StreamAction.commit ents).Allowed E V σ) (hpending : σ.pending = none)
    (hu : Turbokube.update E σ.store ents = .ok u) (hlt : u.store.dbMeta.rev + 1 < 2 ^ 52) :
    StreamOk E find { σ with store := u.store, pending := some (u.keys, u.newRev) } := by
  have hmeet : AllMeet E (fun b cmd => cmd.Watchable ∧ cmd.KeepsMark b ∧
      ∀ c ∈ σ.conns, cmd.Spares c.watch) ents (.start σ.store) := hallowed
  have hle := rev_le_of_update hu
  obtain ⟨b, rs, -, -, hrev, -, hnew, -⟩ := update_inv hu
  refine ⟨h.reached.update (hmeet.imp (fun _ _ hq => ⟨hq.1, hq.2.1⟩)) hu, ?_, ?_, ?_⟩
  · intro keys r heq
    obtain ⟨-, rfl⟩ := Prod.mk.inj (Option.some.inj heq)
    exact hnew.trans hrev.symm
  · intro c hc
    have hconn := h.conns c hc
    rw [hpending] at hconn
    exact hconn.commit hmulti h.reached (fun b cmd hq => ⟨hq.1, hq.2.1, hq.2.2 c hc⟩) hmeet hu hlt
  · intro header heq
    obtain ⟨r, hr, hheader, hsent, hbegun⟩ := h.answering header heq
    refine ⟨r, hr.trans hle, hheader, fun c hc hdone wr hwr hstart hwrle hwants => ?_, hbegun⟩
    obtain ⟨new, hlog, hlater⟩ := log_of_update hmeet hu h.reached.recsOk
    rw [hlog] at hwr
    rcases List.mem_append.mp hwr with hold | hfresh
    · exact hsent c hc hdone wr hold hstart hwrle hwants
    · have := hlater wr hfresh
      omega

/-- The revision for an answer is read while no watch has anything left to do. -/
theorem progress (h : StreamOk E find σ) (hquiet : σ.Quiet)
    (hlt : σ.store.dbMeta.rev + 1 < 2 ^ 52) :
    StreamOk E find
      { σ with handling := .answering (responseHeader E σ.store.dbMeta.rev) } := by
  refine ⟨h.reached, h.pending, h.conns, fun header heq => ?_⟩
  obtain rfl := Handling.answering.inj heq
  obtain ⟨hpending, hquiet⟩ := hquiet
  obtain ⟨-, -, hlog, -⟩ := h.reached.versioned_of_opsAtMost (fun _ _ hq => hq.1.1)
    (show σ.store.dbMeta.rev < 2 ^ 52 by omega)
  refine ⟨_, le_rfl, rfl, fun c hc hdone wr hwr hstart _ hwants => ?_, fun c hc => ?_⟩
  · obtain ⟨hidle, halerts, htaken⟩ := hquiet c hc hdone
    have hconn := h.conns c hc
    rw [hpending] at hconn
    refine hconn.shown (fun wr hwr => ⟨hlog.upper wr hwr, ?_⟩) hidle halerts htaken hwr hstart
      hwants
    have : wr.rev ≤ σ.store.dbMeta.rev := hlog.rev_le le_rfl le_rfl hwr
    omega
  · by_cases hdone : c.watch.phase = .done
    · simp [hdone]
    · simp [(hquiet c hc hdone).1]

theorem create {watchId : Int64} {req : WatchCreateRequest} (h : StreamOk E find σ)
    (hmulti : E.flags.txnMultiWriteEnabled = false)
    (hfind : ∀ k, req.selects k = true → find req k = true) (hrecv : σ.handling = .recv)
    (hlt : σ.store.dbMeta.rev + 1 < 2 ^ 52) : StreamOk E find (σ.create watchId req) := by
  rw [WatchStream.create]
  split
  · exact h.moved rfl h.pending h.conns (fun header heq => by simp [hrecv] at heq)
  · refine h.moved rfl h.pending (fun c hc => ?_) (fun header heq => by simp [hrecv] at heq)
    rcases List.mem_append.mp hc with hc | hc
    · exact h.conns c hc
    · obtain rfl := List.mem_singleton.mp hc
      exact .create watchId hmulti hfind h.reached hlt h.pending

/-- The registration of a watch concerns only ids. -/
theorem named_eq (σ : WatchStream) (i : Nat) (c : Conn) (msg : WatchMessage) :
    ∃ watchId watches, (σ.named i c msg).2 = { σ with watchId := watchId, watches := watches } := by
  have hregister : ∃ watchId watches,
      (σ.register i c).2 = { σ with watchId := watchId, watches := watches } := by
    rw [WatchStream.register]
    split <;> exact ⟨_, _, rfl⟩
  obtain ⟨watchId, watches, heq⟩ := hregister
  cases msg with
  | init header => exact ⟨watchId, watches, heq⟩
  | errCompacted header =>
      simp only [WatchStream.named, heq]
      exact ⟨watchId, _, rfl⟩
  | _ => exact ⟨_, _, rfl⟩

theorem take {i : Nat} {c : Conn} (h : StreamOk E find σ) (hc : σ.conns[i]? = some c)
    (htake : σ.take max i c = some σ') : StreamOk E find σ' := by
  rw [WatchStream.take] at htake
  split at htake
  · cases htake
  · rename_i msg hmsg
    split at htake
    · cases htake
    · rename_i packer out hpack
      obtain rfl := Option.some.inj htake
      obtain ⟨watchId, watches, hnamed⟩ := named_eq σ i c msg
      rw [hnamed]
      have h' : StreamOk E find { σ with watchId := watchId, watches := watches } :=
        h.moved rfl h.pending h.conns (fun header heq => ⟨heq, fun c hc => ⟨c, hc, .refl c⟩⟩)
      refine h'.update (fun c' hc' => ?_) (fun c' _ _ => ?_)
      · obtain rfl := Option.some.inj (hc.symm.trans hc')
        exact (h.conns c (List.mem_of_getElem? hc)).take hmsg hpack
      · exact ⟨fun hdone => ⟨hdone, rfl, rfl⟩, fun _ hr => List.mem_append_left _ hr, fun hb => hb⟩

/-- Every action keeps the state of the stream. -/
theorem act {a : StreamAction} (h : StreamOk E find σ)
    (hmulti : E.flags.txnMultiWriteEnabled = false)
    (hV : ∀ req, V req → ∀ k, req.selects k = true → find req k = true)
    (hallowed : a.Allowed E V σ) (hact : σ.act E find max a = some σ')
    (hlt : σ'.store.dbMeta.rev + 1 < 2 ^ 52) : StreamOk E find σ' := by
  cases a with
  | commit ents =>
      simp only [WatchStream.act] at hact
      split at hact
      · rename_i hpending hu
        obtain rfl := Option.some.inj hact
        exact h.commit hmulti hallowed hpending hu hlt
      · cases hact
  | tell =>
      simp only [WatchStream.act] at hact
      split at hact
      · rename_i keys r hpending
        obtain rfl := Option.some.inj hact
        refine h.moved rfl (fun _ _ heq => by cases heq) (fun c' hc' => ?_)
          (fun header heq => ⟨heq, fun c' hc' => ?_⟩)
        · obtain ⟨c, hc, rfl⟩ := List.mem_map.mp hc'
          have hconn := h.conns c hc
          rw [hpending] at hconn
          exact hconn.tell
        · obtain ⟨c, hc, rfl⟩ := List.mem_map.mp hc'
          exact ⟨c, hc, .alert c keys r⟩
      · cases hact
  | create watchId req =>
      simp only [WatchStream.act] at hact
      split at hact
      · rename_i hrecv
        obtain rfl := Option.some.inj hact
        have hstore : (σ.create watchId req).store = σ.store := by
          rw [WatchStream.create]
          split <;> rfl
        exact h.create hmulti (hV req hallowed) hrecv (hstore ▸ hlt)
      · cases hact
  | cancel watchId =>
      simp only [WatchStream.act] at hact
      split at hact
      · split at hact
        · obtain rfl := Option.some.inj hact
          exact h
        · rename_i i _
          obtain rfl := Option.some.inj hact
          refine h.moved rfl h.pending (fun c' hc' => ?_) (fun header heq => by cases heq)
          rcases Registry.mem_modify_cases hc' with ⟨c, hc, rfl⟩ | hc
          · have hconn := h.conns c (List.mem_of_getElem? hc)
            exact ⟨hconn.find, hconn.follows, hconn.taken, hconn.packed, hconn.buffer⟩
          · exact h.conns c' hc
      · cases hact
  | closed =>
      simp only [WatchStream.act] at hact
      split at hact
      · split at hact
        · obtain rfl := Option.some.inj hact
          exact h.moved rfl h.pending h.conns (fun header heq => by cases heq)
        · cases hact
      · cases hact
  | progress =>
      simp only [WatchStream.act] at hact
      split at hact
      · obtain rfl := Option.some.inj hact
        exact h.progress hallowed hlt
      · cases hact
  | answer =>
      simp only [WatchStream.act] at hact
      split at hact
      · obtain rfl := Option.some.inj hact
        exact h.moved rfl h.pending h.conns (fun header heq => by cases heq)
      · cases hact
  | step i =>
      obtain rfl := Option.some.inj hact
      exact h.update
        (fun c hc => (h.conns c (List.mem_of_getElem? hc)).step hmulti h.reached hlt)
        (fun c _ hbegun => .step c hbegun)
  | stop i =>
      obtain rfl := Option.some.inj hact
      refine h.update (fun c hc => ?_) (fun c hc _ => ?_)
      · have hconn := h.conns c (List.mem_of_getElem? hc)
        split
        · exact hconn.cancel
        · exact hconn
      · split
        · exact .cancel c
        · exact .refl c
  | take i =>
      simp only [WatchStream.act] at hact
      split at hact
      · cases hact
      · rename_i c hc
        exact h.take hc hact
  | leave i =>
      simp only [WatchStream.act] at hact
      split at hact
      · cases hact
      · split at hact
        · obtain rfl := Option.some.inj hact
          exact h.moved rfl h.pending h.conns
            (fun header heq => ⟨heq, fun c hc => ⟨c, hc, .refl c⟩⟩)
        · cases hact

end StreamOk

/-- Only a commit changes the store. -/
theorem WatchStream.act_store {E : Env} {find : WatchCreateRequest → Bytes → Bool} {max : Nat}
    {σ σ' : WatchStream} {a : StreamAction} (h : σ.act E find max a = some σ') :
    σ'.store = σ.store ∨
      ∃ ents u, Turbokube.update E σ.store ents = .ok u ∧ σ'.store = u.store := by
  cases a with
  | commit ents =>
      simp only [act] at h
      split at h
      · rename_i hu
        obtain rfl := Option.some.inj h
        exact .inr ⟨ents, _, hu, rfl⟩
      · cases h
  | take i =>
      simp only [act, take] at h
      split at h
      · cases h
      · rename_i c _
        split at h
        · cases h
        · rename_i msg _
          split at h
          · cases h
          · obtain rfl := Option.some.inj h
            obtain ⟨watchId, watches, hnamed⟩ := StreamOk.named_eq σ i c msg
            rw [hnamed]
            exact .inl rfl
  | create watchId req =>
      simp only [act, create] at h
      repeat' split at h
      all_goals cases h
      all_goals exact .inl rfl
  | _ =>
      simp only [act] at h
      repeat' split at h
      all_goals cases h
      all_goals exact .inl rfl

theorem StreamRun.ok {E : Env} {find : WatchCreateRequest → Bytes → Bool} {max : Nat}
    {V : WatchCreateRequest → Prop} {σ : WatchStream}
    (hmulti : E.flags.txnMultiWriteEnabled = false)
    (hV : ∀ req, V req → ∀ k, req.selects k = true → find req k = true)
    (h : StreamRun E find max V σ) (hlt : σ.store.dbMeta.rev + 1 < 2 ^ 52) :
    StreamOk E find σ := by
  induction h with
  | start watchId h =>
      exact ⟨h, fun _ _ heq => (by cases heq), fun c hc => (by cases hc),
        fun _ heq => (by cases heq)⟩
  | act _ hallowed hact ih =>
      refine (ih ?_).act hmulti hV hallowed hact hlt
      rcases WatchStream.act_store hact with hstore | ⟨ents, u, hu, hstore⟩
      · rwa [hstore] at hlt
      · have := rev_le_of_update hu
        rw [hstore] at hlt
        omega

/-- In a run that can be watched, whose compactions go no further than the open watches have
scanned, and where the revision for a progress response is read while no open watch has
anything left to do, a progress response is true: when it is sent, every write up to its
revision that an open watch is asked for has been sent. -/
theorem progress_response_true {E : Env} {find : WatchCreateRequest → Bytes → Bool} {max : Nat}
    {V : WatchCreateRequest → Prop} {σ σ' : WatchStream}
    (hmulti : E.flags.txnMultiWriteEnabled = false)
    (hV : ∀ req, V req → ∀ k, req.selects k = true → find req k = true)
    (h : StreamRun E find max V σ) (hlt : σ.store.dbMeta.rev + 1 < 2 ^ 52)
    (hanswer : σ.act E find max .answer = some σ') :
    ∃ r watchId, σ'.answers =
        σ.answers ++ [{ header := responseHeader E r, watchId := watchId }] ∧ σ.SentTo r := by
  simp only [WatchStream.act] at hanswer
  split at hanswer
  · rename_i header hhandling
    obtain rfl := Option.some.inj hanswer
    obtain ⟨r, -, rfl, hsent, -⟩ := (h.ok hmulti hV hlt).answering header hhandling
    exact ⟨r, _, rfl, hsent⟩
  · cases hanswer

section Concrete

variable {E : Env} {find : WatchCreateRequest → Bytes → Bool} {max : Nat}
  {V : WatchCreateRequest → Prop}

instance (σ : WatchStream) : Decidable σ.Quiet := by
  unfold WatchStream.Quiet
  infer_instance

instance [∀ req, Decidable (V req)] (σ : WatchStream) (a : StreamAction) :
    Decidable (a.Allowed E V σ) := by
  cases a <;> unfold StreamAction.Allowed <;> infer_instance

/-- Each action is allowed when its turn comes. -/
def ActsAllowed (E : Env) (find : WatchCreateRequest → Bytes → Bool) (max : Nat)
    (V : WatchCreateRequest → Prop) : List StreamAction → WatchStream → Prop
  | [], _ => True
  | a :: rest, σ =>
      a.Allowed E V σ ∧
      match σ.act E find max a with
      | none => True
      | some σ' => ActsAllowed E find max V rest σ'

instance ActsAllowed.decidable [∀ req, Decidable (V req)] :
    (acts : List StreamAction) → (σ : WatchStream) → Decidable (ActsAllowed E find max V acts σ)
  | [], _ => .isTrue trivial
  | a :: rest, σ => by
      unfold ActsAllowed
      cases σ.act E find max a with
      | none => exact inferInstanceAs (Decidable (a.Allowed E V σ ∧ True))
      | some σ' =>
          have := ActsAllowed.decidable rest σ'
          exact inferInstanceAs
            (Decidable (a.Allowed E V σ ∧ ActsAllowed E find max V rest σ'))

theorem StreamRun.of_acts {acts : List StreamAction} {σ σ' : WatchStream}
    (h : StreamRun E find max V σ) (hallowed : ActsAllowed E find max V acts σ)
    (hacts : σ' ∈ WatchStream.acts E find max acts σ) : StreamRun E find max V σ' := by
  induction acts generalizing σ with
  | nil =>
      obtain rfl := Option.some.inj hacts
      exact h
  | cons a rest ih =>
      rw [Option.mem_def, WatchStream.acts, Option.bind_eq_some_iff] at hacts
      obtain ⟨σ₁, hact, hrest⟩ := hacts
      rw [ActsAllowed, hact] at hallowed
      exact ih (h.act hallowed.1 hact) hallowed.2 hrest

/-- A watch on `a` is created, waits, and its first message is taken. -/
def openStream : List StreamAction :=
  [.create 0 { key := [97] }, .step 0, .step 0, .step 0, .step 0, .take 0]

/-- The commit of a put of `a`. -/
def commitPut : StreamAction := .commit [{ index := 1, cmd := .put { key := [97], value := [1] } }]

end Concrete

theorem progress_response_true_after_put :
    ∃ σ ∈ WatchStream.acts .plain WatchCreateRequest.selects (10 * 1024 * 1024)
        (openStream ++ [commitPut, .tell, .step 0, .step 0, .take 0, .take 0, .progress])
        { store := .init },
      ∃ σ' ∈ σ.act .plain WatchCreateRequest.selects (10 * 1024 * 1024) .answer,
      ∃ r watchId, σ'.answers =
        σ.answers ++ [{ header := responseHeader .plain r, watchId := watchId }] ∧ σ.SentTo r := by
  obtain ⟨σ, hσ, hrev, σ', hσ', -⟩ : ∃ σ ∈ WatchStream.acts .plain WatchCreateRequest.selects
        (10 * 1024 * 1024)
        (openStream ++ [commitPut, .tell, .step 0, .step 0, .take 0, .take 0, .progress])
        { store := .init }, σ.store.dbMeta.rev = 2 ∧
      ∃ σ' ∈ σ.act .plain WatchCreateRequest.selects (10 * 1024 * 1024) .answer, True := by
    decide +kernel
  have hrun : StreamRun .plain WatchCreateRequest.selects (10 * 1024 * 1024) (fun _ => True) σ :=
    (StreamRun.start 1 .init).of_acts (by decide +kernel) hσ
  exact ⟨σ, hσ, σ', hσ', progress_response_true rfl (fun _ _ _ hk => hk) hrun
    (by rw [hrev]; decide) hσ'⟩

/-- The batch is committed and its alerts are on their way.  The response says that the client
has everything up to revision 2, and the put of revision 2 has not been sent. -/
theorem progress_response_false :
    ∃ σ ∈ WatchStream.acts .plain WatchCreateRequest.selects (10 * 1024 * 1024)
        (openStream ++ [commitPut, .progress, .answer]) { store := .init },
      σ.answers = [{ header := responseHeader .plain 2, watchId := 1 }] ∧
      ∃ c ∈ σ.conns, c.watch.phase ≠ .done ∧ c.watch.start = 2 ∧
        (∃ wr ∈ σ.store.tables.kv.log, wr.rev = 2 ∧ c.watch.req.wants wr.event = true) ∧
        ∀ resp ∈ c.out, resp.events = [] := by
  decide +kernel

end Turbokube
