import Turbokube.Machine.Events
import Turbokube.Watch.Content

/-!
# Every event once

The events a watch sends while batches are committed and alerts are delivered in any order
relative to its own steps.  `Delivers` ties the watch to a history of events: it has sent
those up to its revision, those above are still in the table, and while it waits an alert
is on its way for each of them that it selects.

The history is the event table as long as nothing is compacted.  A compaction up to the
revision the watch scans next takes away only what has been sent.
-/

namespace Turbokube

open Encoding Lmdb DbKv

section Scannable

/-- The message is about this event. -/
def Shows (evt : KvEvent) (m : WatchEvent) : Prop :=
  m.type = evt.etype ∧
    ∃ kv ∈ m.kv, kv.key = evt.key ∧ kv.modRevision = evt.rev.upper.toInt64

/-- The commands of a run whose events can be sent. -/
def Cmd.Watchable (cmd : Cmd) : Prop :=
  cmd.OpsAtMost txnOpsLimit ∧ cmd.PutsMeet PutRequest.SendsNoKept ∧
    cmd.PutsMeet PutRequest.LongEnough

instance (cmd : Cmd) : Decidable cmd.Watchable := by
  unfold Cmd.Watchable
  infer_instance

variable {E : Env} {ch : Bytes → List Version} {db : DbKv} {lo hi : Nat}

theorem DbKv.Rep.watchEvent_shows (h : db.Rep E True ch) (hlog : LogOk db.log lo hi)
    (hsp : Spaced False db.log) (hshort : NoShort db.log) {evt : KvEvent} {x : Version}
    (hx : x ∈ ch evt.key) (hrev : x.rev = evt.rev) (prevKv : Bool) :
    ∃ m, watchEvent E db prevKv evt = .ok m ∧ Shows evt m := by
  have hmem := h.mem_versions hx
  cases hdel : evt.rev.isdel with
  | true =>
      obtain ⟨w, hw, -, cur, hxw⟩ := write_of_mem_versions hmem
      have hupper : 0 < evt.rev.upper := by
        rw [UInt64.lt_iff_toNat_lt, UInt64.toNat_zero, ← hrev, hxw, Write.version, hlog.upper w hw]
        exact hlog.pos w hw
      rw [watchEvent, if_pos hdel]
      refine ⟨_, rfl, rfl, Kv.toProto { key := evt.key, rev := evt.rev }, ?_, rfl, rfl⟩
      exact if_pos hupper
  | false =>
      obtain ⟨pre, post, hsplit⟩ := List.append_of_mem hx
      obtain ⟨e, he⟩ := Option.isSome_iff_exists.mp
        ((hlog.item_isSome hmem).mpr (by rw [hrev, hdel]))
      obtain ⟨herev, hekey⟩ := item_of_mem_versions hmem he
      refine ⟨_, h.watchEvent_eq hlog hsp hshort hsplit hrev ?_ prevKv, rfl, e.toProto, ?_,
        hekey, ?_⟩
      · rw [hrev, hdel]
        exact fun hfalse => by cases hfalse
      · rw [he]
        rfl
      · rw [← hrev, ← herev]
        rfl

/-- What a watch relies on: scans send the events that are there, as long as no version is
missing from where they start. -/
structure Scannable (E : Env) (s : Store) : Prop where
  sorted : s.tables.kv.events.Pairwise (fun a b => a.rev.word.toNat ≤ b.rev.word.toNat)
  le : ∀ evt ∈ s.tables.kv.events, evt.rev.upper.toNat ≤ s.dbMeta.rev
  lt : s.dbMeta.rev + 1 < 2 ^ 52
  scan : ∀ (req : WatchCreateRequest) (since : Nat), since ≠ 0 → since < 2 ^ 52 →
    s.tables.kv.KeptFrom E True since ((s.dbMeta.rev + 1) * 4096) →
    ∃ ms, watchScan E s req since = ⟨s.dbMeta.rev, scanMessages E s.dbMeta.rev ms, none⟩ ∧
      List.Forall₂ Shows ((s.tables.kv.eventsFrom since).filter req.wants) ms

theorem Reached.scannable {Q : Batch → Cmd → Prop} {s : Store}
    (hmulti : E.flags.txnMultiWriteEnabled = false) (hQ : ∀ b cmd, Q b cmd → cmd.Watchable)
    (h : Reached E Q (.start s)) (hlt : s.dbMeta.rev + 1 < 2 ^ 52) : Scannable E s := by
  have hrev : (Batch.start s).newRev < 2 ^ 52 := (Nat.lt_succ_self _).trans hlt
  obtain ⟨ch, hrep, hlog, -⟩ := h.versioned (S := True) (U := False)
    (fun b cmd hq => (hQ b cmd hq).1)
    (fun b cmd hq => (hQ b cmd hq).2.1.imp (fun _ hreq _ => hreq)) (fun hU => hU.elim) hrev
  have hsp := h.spaced (T := False) hmulti (fun b cmd hq => (hQ b cmd hq).1)
    (fun hT => hT.elim) hrev
  have hshort := h.noShort (fun b cmd hq => (hQ b cmd hq).2.2)
  refine ⟨hrep.events_sorted, fun evt hevt => ?_, hlt, fun req since hpos hsince hkept => ?_⟩
  · obtain ⟨x, hx, hxrev⟩ := hrep.version_of_event hevt
    have hle := hlog.upper_le le_rfl le_rfl hx
    rw [hxrev] at hle
    exact hle
  · obtain ⟨ch', hrep', hlog', hversion⟩ := hkept.version_of_event
    refine watchScan_eq hrep' (fun evt hevt => ?_) hpos hsince
    obtain ⟨x, hx, hxrev⟩ := hversion evt hevt
    exact hrep'.watchEvent_shows hlog' hsp hshort hx hxrev req.prevKv

theorem Reached.versioned_watchable {s : Store}
    (h : Reached E (fun _ cmd => cmd.Watchable) (.start s)) (hrev : s.dbMeta.rev < 2 ^ 52) :
    s.tables.kv.Versioned E True False ((s.dbMeta.rev + 1) * 4096) :=
  h.versioned (fun _ _ hq => hq.1) (fun _ _ hq => hq.2.1.imp (fun _ hreq _ => hreq))
    (fun hU => hU.elim) hrev

/-- No event is above the revision of the store. -/
theorem Scannable.eventsFrom_succ {s : Store} (h : Scannable E s) :
    s.tables.kv.eventsFrom (s.dbMeta.rev + 1) = [] := by
  refine List.filter_eq_nil_iff.mpr (fun evt hevt => ?_)
  have := h.le evt hevt
  simp only [decide_eq_true_eq]
  omega

end Scannable

namespace Watch

/-- The first revision the watch has not scanned. -/
def next (w : Watch) : Nat :=
  match w.phase with
  | .created | .scan => w.req.since
  | _ => w.rev + 1

/-- No version is missing of what the watch scans next. -/
def Readable (E : Env) (S : Prop) (s : Store) (w : Watch) : Prop :=
  w.phase ≠ .created → w.phase ≠ .done → w.next ≠ 0 →
    s.tables.kv.KeptFrom E S w.next ((s.dbMeta.rev + 1) * 4096)

/-- The first revision the watch is asked for. -/
def start (w : Watch) : Nat := if w.req.since = 0 then w.first + 1 else w.req.since

/-- The first revision the watch sends.  A start above the revision of the first scan is
forgotten by the second one. -/
def lower (w : Watch) : Nat := min w.start (w.first + 1)

/-- The events the watch has sent. -/
def covers (w : Watch) (evt : KvEvent) : Bool :=
  decide (w.lower ≤ evt.rev.upper.toNat) && decide (evt.rev.upper.toNat ≤ w.rev) &&
    w.req.wants evt

end Watch

section Scans

variable {E : Env} {s : Store} {w : Watch}

theorem Scannable.first_scan (hs : Scannable E s) (hread : w.Readable E True s)
    (hphase : w.phase = .scan) (hzero : w.req.since ≠ 0) (hsince : w.req.since < 2 ^ 52) :
    ∃ ms, watchScan E s w.req w.req.since =
        ⟨s.dbMeta.rev, scanMessages E s.dbMeta.rev ms, none⟩ ∧
      List.Forall₂ Shows ((s.tables.kv.eventsFrom w.req.since).filter w.req.wants) ms := by
  have hnext : w.next = w.req.since := by simp only [Watch.next, hphase]
  rw [Watch.Readable, hnext] at hread
  exact hs.scan w.req w.req.since hzero hsince
    (hread (by simp [hphase]) (by simp [hphase]) hzero)

theorem Scannable.next_scan (hs : Scannable E s) (hread : w.Readable E True s)
    (hphase : w.phase = .rescan ∨ w.phase = .due) (hrev : w.rev ≤ s.dbMeta.rev) :
    ∃ ms, watchScan E s w.req (w.rev + 1) =
        ⟨s.dbMeta.rev, scanMessages E s.dbMeta.rev ms, none⟩ ∧
      List.Forall₂ Shows ((s.tables.kv.eventsFrom (w.rev + 1)).filter w.req.wants) ms := by
  have hlt := hs.lt
  have hnext : w.next = w.rev + 1 := by
    rcases hphase with hphase | hphase <;> simp only [Watch.next, hphase]
  rw [Watch.Readable, hnext] at hread
  refine hs.scan w.req (w.rev + 1) (Nat.succ_ne_zero _) (by omega)
    (hread ?_ ?_ (Nat.succ_ne_zero _))
  all_goals rcases hphase with hphase | hphase <;> simp [hphase]

end Scans

structure Delivers (s : Store) (p : Option (List Bytes × Nat)) (w : Watch)
    (hist : List KvEvent) : Prop where
  sorted : hist.Pairwise (fun a b => a.rev.word.toNat ≤ b.rev.word.toNat)
  le : ∀ evt ∈ hist, evt.rev.upper.toNat ≤ s.dbMeta.rev
  rev_le : w.rev ≤ s.dbMeta.rev
  first_le : w.first ≤ w.rev
  sent : List.Forall₂ Shows (hist.filter w.covers) w.events
  table : w.phase ≠ .done → w.next ≠ 0 →
    hist.filter (fun evt => w.next ≤ evt.rev.upper.toNat) = s.tables.kv.eventsFrom w.next
  begun : w.phase = .created ∨ w.phase = .scan → w.rev = 0 ∧ w.events = []
  pending : ∀ keys r, p = some (keys, r) → r = s.dbMeta.rev
  registered : w.phase = .rescan ∨ w.phase = .idle ∨ w.phase = .due → w.registered = true
  told : w.phase = .idle → ∀ evt ∈ hist, w.rev < evt.rev.upper.toNat →
    w.req.selects evt.key = true →
    (∃ keys r, p = some (keys, r) ∧ evt.key ∈ keys) ∨
      ∃ a ∈ w.alerts.getLast?, evt.rev.upper.toNat ≤ a

namespace Delivers

variable {E : Env} {find : WatchCreateRequest → Bytes → Bool} {s s' : Store}
  {p : Option (List Bytes × Nat)} {w : Watch} {hist : List KvEvent}

/-- A watch that has just been created. -/
theorem create (hs : Scannable E s) (hp : ∀ keys r, p = some (keys, r) → r = s.dbMeta.rev)
    (req : WatchCreateRequest) : Delivers s p { req := req } s.tables.kv.events where
  sorted := hs.sorted
  le := hs.le
  rev_le := Nat.zero_le _
  first_le := le_rfl
  sent := by
    have hnil : s.tables.kv.events.filter (Watch.covers { req := req }) = [] := by
      refine List.filter_eq_nil_iff.mpr (fun evt _ => ?_)
      simp only [Watch.covers, Watch.lower, Watch.start, Bool.and_eq_true, decide_eq_true_eq]
      split <;> omega
    rw [hnil]
    exact .nil
  table _ _ := rfl
  begun _ := ⟨rfl, rfl⟩
  pending := hp
  registered h := by simp at h
  told h := by cases h

/-- A batch is committed. -/
theorem commit {keys : List Bytes} (h : Delivers s none w hist) (hs : Scannable E s')
    (hle : s.dbMeta.rev ≤ s'.dbMeta.rev)
    (hfresh : ∀ evt ∈ s'.tables.kv.eventsFrom (s.dbMeta.rev + 1), evt.key ∈ keys)
    (hkept : w.phase ≠ .done → w.next ≠ 0 → w.next ≤ s.dbMeta.rev + 1 →
      KeptFrom w.next s s'.tables.kv) :
    Delivers s' (some (keys, s'.dbMeta.rev)) w
      (hist ++ s'.tables.kv.eventsFrom (s.dbMeta.rev + 1)) := by
  have hnew : ∀ evt ∈ s'.tables.kv.eventsFrom (s.dbMeta.rev + 1),
      s.dbMeta.rev < evt.rev.upper.toNat ∧ evt.rev.upper.toNat ≤ s'.dbMeta.rev := by
    intro evt hevt
    obtain ⟨hmem, hlt⟩ := List.mem_filter.mp hevt
    exact ⟨of_decide_eq_true hlt, hs.le evt hmem⟩
  constructor
  case sorted =>
    refine List.pairwise_append.mpr ⟨h.sorted, hs.sorted.filter _, fun a ha b hb => ?_⟩
    have hup := h.le a ha
    have hlt := (hnew b hb).1
    rw [Keyrev.upper_toNat] at hup hlt
    omega
  case le =>
    intro evt hevt
    rcases List.mem_append.mp hevt with hevt | hevt
    · exact (h.le evt hevt).trans hle
    · exact (hnew evt hevt).2
  case rev_le => exact h.rev_le.trans hle
  case first_le => exact h.first_le
  case sent =>
    have hnone : (s'.tables.kv.eventsFrom (s.dbMeta.rev + 1)).filter w.covers = [] := by
      refine List.filter_eq_nil_iff.mpr (fun evt hevt => ?_)
      have := (hnew evt hevt).1
      have := h.rev_le
      simp only [Watch.covers, Bool.and_eq_true, decide_eq_true_eq]
      omega
    rw [List.filter_append, hnone, List.append_nil]
    exact h.sent
  case table =>
    intro hdone hne
    rw [List.filter_append]
    by_cases hn : w.next ≤ s.dbMeta.rev + 1
    · rw [h.table hdone hne, hkept hdone hne hn]
      refine congrArg _ (List.filter_eq_self.mpr (fun evt hevt => ?_))
      have := (hnew evt hevt).1
      simp only [decide_eq_true_eq]
      omega
    · -- everything from there on is new
      have hnone : hist.filter (fun evt => w.next ≤ evt.rev.upper.toNat) = [] := by
        refine List.filter_eq_nil_iff.mpr (fun evt hevt => ?_)
        have := h.le evt hevt
        simp only [decide_eq_true_eq]
        omega
      rw [hnone, List.nil_append, eventsFrom, List.filter_filter, eventsFrom]
      refine List.filter_congr (fun evt _ => ?_)
      simp only [Bool.and_eq_decide, decide_eq_true_eq, decide_eq_decide]
      omega
  case begun => exact h.begun
  case pending =>
    intro keys' r heq
    obtain ⟨-, rfl⟩ := Prod.mk.inj (Option.some.inj heq)
    rfl
  case registered => exact h.registered
  case told =>
    intro hidle evt hevt hlt hsel
    rcases List.mem_append.mp hevt with hold | hnew'
    · rcases h.told hidle evt hold hlt hsel with ⟨keys', r, heq, -⟩ | halert
      · cases heq
      · exact .inr halert
    · exact .inl ⟨keys, s'.dbMeta.rev, rfl, hfresh evt hnew'⟩

/-- A step that neither scans nor changes where the next scan begins. -/
theorem move {p' : Option (List Bytes × Nat)} {w' : Watch} (h : Delivers s p w hist)
    (hreq : w'.req = w.req) (hrev : w'.rev = w.rev) (hfirst : w'.first = w.first)
    (hevents : w'.events = w.events)
    (hnext : w'.phase ≠ .done → w.phase ≠ .done ∧ w'.next = w.next)
    (hbegun : w'.phase = .created ∨ w'.phase = .scan → w.phase = .created ∨ w.phase = .scan)
    (hpending : ∀ keys r, p' = some (keys, r) → r = s.dbMeta.rev)
    (hregistered : w'.phase = .rescan ∨ w'.phase = .idle ∨ w'.phase = .due → w'.registered = true)
    (htold : w'.phase = .idle → ∀ evt ∈ hist, w.rev < evt.rev.upper.toNat →
      w.req.selects evt.key = true → (∃ keys r, p' = some (keys, r) ∧ evt.key ∈ keys) ∨
        ∃ a ∈ w'.alerts.getLast?, evt.rev.upper.toNat ≤ a) :
    Delivers s p' w' hist := by
  have hlower : w'.lower = w.lower := by
    rw [Watch.lower, Watch.start, hreq, hfirst]
    rfl
  have hcovers : w'.covers = w.covers := by
    funext evt
    rw [Watch.covers, hlower, hrev, hreq]
    rfl
  constructor
  case sorted => exact h.sorted
  case le => exact h.le
  case rev_le => rw [hrev]; exact h.rev_le
  case first_le => rw [hfirst, hrev]; exact h.first_le
  case sent => rw [hcovers, hevents]; exact h.sent
  case table =>
    intro hdone hne
    obtain ⟨hdone', heq⟩ := hnext hdone
    rw [heq] at hne ⊢
    exact h.table hdone' hne
  case begun =>
    intro hphase
    rw [hrev, hevents]
    exact h.begun (hbegun hphase)
  case pending => exact hpending
  case registered => exact hregistered
  case told =>
    rw [hrev, hreq]
    exact htold

/-- The alerts of a batch. -/
theorem tell {keys : List Bytes} {r : Nat} (h : Delivers s (some (keys, r)) w hist)
    (hfind : ∀ k, w.req.selects k = true → find w.req k = true) :
    Delivers s none (w.alert find keys r) hist := by
  have hr := h.pending keys r rfl
  have hfields : (w.alert find keys r).req = w.req ∧ (w.alert find keys r).rev = w.rev ∧
      (w.alert find keys r).first = w.first ∧ (w.alert find keys r).sent = w.sent ∧
      (w.alert find keys r).phase = w.phase ∧
      (w.alert find keys r).registered = w.registered := by
    rw [Watch.alert]
    split <;> exact ⟨rfl, rfl, rfl, rfl, rfl, rfl⟩
  obtain ⟨hreq, hrev, hfirst, hsent, hphase, hregistered⟩ := hfields
  refine h.move hreq hrev hfirst (by rw [Watch.events, hsent, Watch.events])
    (fun hdone => ⟨by rwa [hphase] at hdone, by simp only [Watch.next, hphase, hreq, hrev]⟩)
    (by rw [hphase]; exact id) (fun _ _ heq => by cases heq)
    (by rw [hphase, hregistered]; exact h.registered) (fun hidle evt hevt hlt hsel => .inr ?_)
  -- a watch that selects an affected key is told
  rw [hphase] at hidle
  rw [Watch.alert]
  split
  · refine ⟨r, by simp, ?_⟩
    rw [hr]
    exact h.le evt hevt
  · rename_i hnot
    rcases h.told hidle evt hevt hlt hsel with ⟨keys', r', heq, hk⟩ | halert
    · obtain ⟨rfl, rfl⟩ := Prod.mk.inj (Option.some.inj heq)
      refine absurd ?_ hnot
      rw [h.registered (.inr (.inl hidle)), Bool.true_and, List.any_eq_true]
      exact ⟨evt.key, hk, hfind _ hsel⟩
    · exact halert

/-- A scan that has sent what the watch wants of the events from `n` on. -/
theorem scan {w' : Watch} (n : Nat) (ms : List WatchEvent) (h : Delivers s p w hist)
    (hs : Scannable E s) (hrev : w'.rev = s.dbMeta.rev)
    (hfirst : w'.first ≤ s.dbMeta.rev) (hevents : w'.events = w.events ++ ms)
    (hms : List.Forall₂ Shows
      ((hist.filter (fun evt => n ≤ evt.rev.upper.toNat)).filter w.req.wants) ms)
    (hcovers : hist.filter w'.covers = hist.filter w.covers ++
      (hist.filter (fun evt => n ≤ evt.rev.upper.toNat)).filter w.req.wants)
    (hphase : w'.phase = .insert ∨ w'.phase = .idle)
    (hregistered : w'.phase = .idle → w'.registered = true) : Delivers s p w' hist := by
  have hnext : w'.next = s.dbMeta.rev + 1 := by
    rcases hphase with hphase | hphase <;> simp only [Watch.next, hphase, hrev]
  constructor
  case sorted => exact h.sorted
  case le => exact h.le
  case rev_le => exact hrev.le
  case first_le => rw [hrev]; exact hfirst
  case sent =>
    rw [hcovers, hevents]
    exact List.rel_append h.sent hms
  case table =>
    intro _ _
    rw [hnext, hs.eventsFrom_succ]
    refine List.filter_eq_nil_iff.mpr (fun evt hevt => ?_)
    have := h.le evt hevt
    simp only [decide_eq_true_eq]
    omega
  case begun =>
    intro hbegun
    rcases hphase with hphase | hphase <;> simp [hphase] at hbegun
  case pending => exact h.pending
  case registered =>
    intro hreg
    rcases hphase with hphase | hphase
    · simp [hphase] at hreg
    · exact hregistered hphase
  case told =>
    intro _ evt hevt hlt
    have := h.le evt hevt
    omega

/-- What a scan from where the last one ended adds. -/
theorem covers_split {w' : Watch} (h : Delivers s p w hist) (hreq : w'.req = w.req)
    (hfirst : w'.first = w.first) (hrev : w'.rev = s.dbMeta.rev) :
    hist.filter w'.covers = hist.filter w.covers ++
      (hist.filter (fun evt => w.rev + 1 ≤ evt.rev.upper.toNat)).filter w.req.wants := by
  have hsorted : hist.Pairwise (fun a b => a.rev.upper.toNat ≤ b.rev.upper.toNat) := by
    refine h.sorted.imp (fun {a b} hab => ?_)
    rw [Keyrev.upper_toNat, Keyrev.upper_toNat]
    exact Nat.div_le_div_right hab
  obtain ⟨low, high, hsplit, hlow, hhigh⟩ := split_of_sorted hsorted (w.rev + 1)
  have hlower : w'.lower = w.lower := by
    rw [Watch.lower, Watch.start, hreq, hfirst]
    rfl
  have hle : w.lower ≤ w.rev + 1 := by
    have := h.first_le
    rw [Watch.lower]
    omega
  have hbound := h.le
  have hrevle := h.rev_le
  rw [hsplit] at hbound ⊢
  have hlow₁ : low.filter w'.covers = low.filter w.covers := by
    refine List.filter_congr (fun evt hevt => ?_)
    have := hlow evt hevt
    simp only [Watch.covers, hlower, hreq, hrev]
    refine congrArg (· && _) (congrArg (_ && ·) (decide_eq_decide.mpr ?_))
    omega
  have hlow₂ : low.filter (fun evt => w.rev + 1 ≤ evt.rev.upper.toNat) = [] := by
    refine List.filter_eq_nil_iff.mpr (fun evt hevt => ?_)
    have := hlow evt hevt
    simp only [decide_eq_true_eq]
    omega
  have hhigh₁ : high.filter w.covers = [] := by
    refine List.filter_eq_nil_iff.mpr (fun evt hevt => ?_)
    have := hhigh evt hevt
    simp only [Watch.covers, Bool.and_eq_true, decide_eq_true_eq]
    omega
  have hhigh₂ : high.filter (fun evt => w.rev + 1 ≤ evt.rev.upper.toNat) = high :=
    List.filter_eq_self.mpr (fun evt hevt => decide_eq_true (hhigh evt hevt))
  have hhigh₃ : high.filter w'.covers = high.filter w.req.wants := by
    refine List.filter_congr (fun evt hevt => ?_)
    have := hhigh evt hevt
    have := hbound evt (List.mem_append_right _ hevt)
    rw [Watch.covers, hlower, hreq, hrev, decide_eq_true (by omega), decide_eq_true (by omega)]
    rfl
  simp only [List.filter_append, hlow₁, hlow₂, hhigh₁, hhigh₂, hhigh₃, List.append_nil,
    List.nil_append]

theorem filterMap_scanMessages (rev : Nat) (ms : List WatchEvent) :
    (scanMessages E rev ms).filterMap WatchMessage.event? = ms := by
  rw [scanMessages]
  split
  · rename_i hnil
    rw [hnil]
    rfl
  · rw [List.filterMap_append, List.filterMap_map]
    have hsome : WatchMessage.event? ∘ WatchMessage.event rev = some := rfl
    rw [hsome, List.filterMap_some]
    exact List.append_nil _

theorem events_append (w : Watch) (msgs : List WatchMessage) :
    ({ w with sent := w.sent ++ msgs } : Watch).events =
      w.events ++ msgs.filterMap WatchMessage.event? := by
  rw [Watch.events, List.filterMap_append]
  rfl

/-- The first scan. -/
theorem first_scan (h : Delivers s p w hist) (hs : Scannable E s) (hphase : w.phase = .scan)
    (hread : w.Readable E True s) (hsince : w.req.since < 2 ^ 52) :
    Delivers s p (w.step E s) hist := by
  obtain ⟨-, hnone⟩ := h.begun (.inr hphase)
  have hnil : hist.filter w.covers = [] := by
    have hsent := h.sent
    rw [hnone] at hsent
    exact List.forall₂_nil_right_iff.mp hsent
  by_cases hzero : w.req.since = 0
  · -- nothing is sent, and the watch starts above the revision of the store
    have hstep : w.step E s =
        { w with rev := s.dbMeta.rev, phase := .insert, first := s.dbMeta.rev } := by
      simp [Watch.step, hphase, Watch.scanned, watchScan, hzero]
    have hempty : hist.filter (fun evt => s.dbMeta.rev + 1 ≤ evt.rev.upper.toNat) = [] := by
      refine List.filter_eq_nil_iff.mpr (fun evt hevt => ?_)
      have := h.le evt hevt
      simp only [decide_eq_true_eq]
      omega
    rw [hstep]
    refine h.scan (s.dbMeta.rev + 1) [] hs rfl le_rfl (List.append_nil _).symm ?_ ?_
      (.inl rfl) (fun hidle => by cases hidle)
    · rw [hempty]
      exact .nil
    · rw [hnil, hempty]
      refine List.filter_eq_nil_iff.mpr (fun evt hevt => ?_)
      have := h.le evt hevt
      simp only [Watch.covers, Watch.lower, Watch.start, hzero, if_true, Bool.and_eq_true,
        decide_eq_true_eq]
      omega
  · obtain ⟨ms, hscan, hms⟩ := hs.first_scan hread hphase hzero hsince
    have hnext : w.next = w.req.since := by simp only [Watch.next, hphase]
    have htable := h.table (by simp [hphase]) (by rw [hnext]; exact hzero)
    rw [hnext] at htable
    have hstep : w.step E s = { w with
        rev := s.dbMeta.rev
        sent := w.sent ++ scanMessages E s.dbMeta.rev ms
        phase := .insert
        first := s.dbMeta.rev } := by
      simp [Watch.step, hphase, Watch.scanned, hscan]
    rw [hstep]
    refine h.scan w.req.since ms hs rfl le_rfl ?_ ?_ ?_ (.inl rfl)
      (fun hidle => by cases hidle)
    · rw [Watch.events, List.filterMap_append, filterMap_scanMessages]
      rfl
    · rw [htable]
      exact hms
    · rw [hnil, List.nil_append, List.filter_filter]
      refine List.filter_congr (fun evt hevt => ?_)
      have := h.le evt hevt
      simp only [Watch.covers, Watch.lower, Watch.start, hzero, if_false]
      rw [Bool.and_comm (w.req.wants evt)]
      refine congrArg (· && _) ?_
      simp only [Bool.and_eq_decide, decide_eq_true_eq, decide_eq_decide]
      omega

/-- A scan from where the last one ended.  `extra` are messages that are no events. -/
theorem next_scan {w' : Watch} {ms : List WatchEvent} (extra : List WatchMessage)
    (h : Delivers s p w hist) (hs : Scannable E s)
    (hphase : w.phase = .rescan ∨ w.phase = .due)
    (hms : List.Forall₂ Shows ((s.tables.kv.eventsFrom (w.rev + 1)).filter w.req.wants) ms)
    (hextra : extra.filterMap WatchMessage.event? = [])
    (hw' : w' = { w with
      rev := s.dbMeta.rev
      sent := w.sent ++ scanMessages E s.dbMeta.rev ms ++ extra
      phase := .idle }) : Delivers s p w' hist := by
  have hnext : w.next = w.rev + 1 := by
    rcases hphase with hphase | hphase <;> simp only [Watch.next, hphase]
  have htable := h.table (by rcases hphase with hphase | hphase <;> simp [hphase])
    (by rw [hnext]; exact Nat.succ_ne_zero _)
  rw [hnext] at htable
  subst hw'
  refine h.scan (w.rev + 1) ms hs rfl (h.first_le.trans h.rev_le) ?_ ?_
    (h.covers_split rfl rfl rfl) (.inr rfl) (fun _ => h.registered ?_)
  · simp only [Watch.events, List.filterMap_append, filterMap_scanMessages, hextra, List.append_nil]
  · rw [htable]
    exact hms
  · rcases hphase with hphase | hphase
    · exact .inl hphase
    · exact .inr (.inr hphase)

/-- Alerts of revisions that have been scanned are dropped. -/
theorem drain (h : Delivers s p w hist) (hphase : w.phase = .idle) :
    Delivers s p w.drain hist := by
  have hreg := h.registered (.inr (.inl hphase))
  have hold : w.next = w.rev + 1 := by simp only [Watch.next, hphase]
  rw [Watch.drain]
  split
  · exact h
  · rename_i a ha
    refine h.move rfl rfl rfl rfl (fun _ => ⟨by simp [hphase], ?_⟩) (fun hbegun => ?_) h.pending
      (fun _ => hreg) (fun hidle evt hevt hlt hsel => ?_)
    · rw [hold]
      by_cases hle : a ≤ w.rev <;> simp [Watch.next, hle]
    · by_cases hle : a ≤ w.rev <;> simp [hle] at hbegun
    · refine .inl ((h.told hphase evt hevt hlt hsel).resolve_right ?_)
      rintro ⟨a', ha', hle⟩
      obtain rfl := Option.some.inj (ha.symm.trans ha')
      by_cases hle' : a ≤ w.rev
      · omega
      · simp [hle'] at hidle

theorem step (h : Delivers s p w hist) (hs : Scannable E s) (hread : w.Readable E True s)
    (hsince : w.req.since < 2 ^ 52) : Delivers s p (w.step E s) hist := by
  cases hphase : w.phase with
  | created =>
      have hold : w.next = w.req.since := by simp only [Watch.next, hphase]
      have hstep : w.step E s = w.check E s := by simp only [Watch.step, hphase]
      rw [hstep, Watch.check]
      split
      · exact h.move rfl rfl rfl ((events_append _ _).trans (List.append_nil _))
          (fun hdone => absurd rfl hdone) (by simp) h.pending (by simp)
          (fun hidle => by cases hidle)
      · exact h.move rfl rfl rfl ((events_append _ _).trans (List.append_nil _))
          (fun _ => ⟨by simp [hphase], by rw [hold]; rfl⟩) (fun _ => .inl hphase) h.pending
          (by simp) (fun hidle => by cases hidle)
  | scan => exact h.first_scan hs hphase hread hsince
  | insert =>
      have hold : w.next = w.rev + 1 := by simp only [Watch.next, hphase]
      have hstep : w.step E s = { w with registered := true, phase := .rescan } := by
        simp only [Watch.step, hphase]
      rw [hstep]
      exact h.move rfl rfl rfl rfl (fun _ => ⟨by simp [hphase], by rw [hold]; rfl⟩) (by simp)
        h.pending (fun _ => rfl) (fun hidle => by cases hidle)
  | rescan =>
      obtain ⟨ms, hscan, hms⟩ := hs.next_scan hread (.inl hphase) h.rev_le
      refine h.next_scan [] hs (.inl hphase) hms rfl ?_
      simp [Watch.step, hphase, Watch.scanned, hscan]
  | idle =>
      have hstep : w.step E s = w.drain := by simp only [Watch.step, hphase]
      rw [hstep]
      exact h.drain hphase
  | due =>
      obtain ⟨ms, hscan, hms⟩ := hs.next_scan hread (.inr hphase) h.rev_le
      have hstep : w.step E s = w.sync E s := by simp only [Watch.step, hphase]
      rw [hstep, Watch.sync, hscan]
      simp only [Option.isSome_none, Bool.false_eq_true, if_false]
      split
      · exact h.next_scan [.notify (responseHeader E s.dbMeta.rev)] hs (.inr hphase) hms rfl rfl
      · refine h.next_scan [] hs (.inr hphase) hms rfl ?_
        simp [Watch.scanned]
  | done =>
      have hstep : w.step E s = w := by simp only [Watch.step, hphase]
      rw [hstep]
      exact h

theorem cancel (h : Delivers s p w hist) : Delivers s p w.cancel hist := by
  rw [Watch.cancel]
  split
  · exact h.move rfl rfl rfl rfl (fun hdone => absurd rfl hdone) (by simp) h.pending (by simp)
      (fun hidle => by cases hidle)
  · exact h

end Delivers

end Turbokube
