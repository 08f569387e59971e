import Turbokube.Model.ServiceWatch
import Turbokube.Watch.Compacted

/-!
# A watch of a stream

The service takes the messages of a watch and packs the events into responses.  Every event
comes out once, and a watch ends each scan with a message that makes the service send what it
has packed, so a watch whose messages have been taken has no event left in the service.

`ConnOk` is what holds of a watch of a stream whatever the others do.
-/

namespace Turbokube

open Encoding Lmdb DbKv

/-- The events since the last end of a scan. -/
def unsyncedStep (acc : List WatchEvent) : WatchMessage → List WatchEvent
  | .event _ evt => acc ++ [evt]
  | .sync _ => []
  | _ => acc

def unsynced (msgs : List WatchMessage) : List WatchEvent := msgs.foldl unsyncedStep []

theorem unsynced_append_one (msgs : List WatchMessage) (m : WatchMessage) :
    unsynced (msgs ++ [m]) = unsyncedStep (unsynced msgs) m := by
  rw [unsynced, List.foldl_append]
  rfl

/-- A scan leaves nothing behind. -/
theorem unsynced_scanMessages {E : Env} {msgs : List WatchMessage} (rev : Nat)
    (ms : List WatchEvent) (h : unsynced msgs = []) :
    unsynced (msgs ++ scanMessages E rev ms) = [] := by
  rw [scanMessages]
  split
  · rw [List.append_nil]
    exact h
  · rw [← List.append_assoc, unsynced_append_one]
    rfl

/-- Every event comes out once, and none stays packed after the end of a scan. -/
theorem Packer.take_spec {max : Nat} {id : Int64} {p p' : Packer} {msg : WatchMessage}
    {out : List WatchResponse} (h : p.take max id msg = some (p', out)) :
    out.flatMap WatchResponse.events ++ p'.resp.events =
        p.resp.events ++ msg.event?.toList ∧
      ∀ acc, p.resp.events <:+ acc → p'.resp.events <:+ unsyncedStep acc msg := by
  cases msg with
  | init header =>
      obtain ⟨rfl, rfl⟩ := Prod.mk.inj (Option.some.inj h)
      exact ⟨by simp [WatchMessage.event?], fun acc hacc => hacc⟩
  | event rev evt =>
      simp only [take] at h
      split at h
      · cases h
      · split at h
        · obtain ⟨rfl, rfl⟩ := Prod.mk.inj (Option.some.inj h)
          refine ⟨by simp [WatchMessage.event?], fun acc ⟨t, ht⟩ => ⟨t, ?_⟩⟩
          rw [← ht]
          exact (List.append_assoc _ _ _).symm
        · obtain ⟨rfl, rfl⟩ := Prod.mk.inj (Option.some.inj h)
          exact ⟨by simp [WatchMessage.event?], fun acc _ => ⟨acc, rfl⟩⟩
  | sync header =>
      simp only [take] at h
      split at h
      · rename_i hnil
        obtain ⟨rfl, rfl⟩ := Prod.mk.inj (Option.some.inj h)
        refine ⟨by simp [WatchMessage.event?], fun acc _ => ?_⟩
        rw [hnil]
        exact List.nil_suffix
      · obtain ⟨rfl, rfl⟩ := Prod.mk.inj (Option.some.inj h)
        exact ⟨by simp [WatchMessage.event?], fun acc _ => List.nil_suffix⟩
  | notify header =>
      obtain ⟨rfl, rfl⟩ := Prod.mk.inj (Option.some.inj h)
      exact ⟨by simp [WatchMessage.event?], fun acc hacc => hacc⟩
  | errCompacted header =>
      obtain ⟨rfl, rfl⟩ := Prod.mk.inj (Option.some.inj h)
      exact ⟨by simp [WatchMessage.event?], fun acc hacc => hacc⟩

namespace Watch

variable {E : Env} {s : Store} {w : Watch}

theorem step_sent (E : Env) (s : Store) (w : Watch) :
    ∃ new, (w.step E s).sent = w.sent ++ new := by
  unfold step
  split
  · rw [check]
    split <;> exact ⟨_, rfl⟩
  · exact ⟨_, rfl⟩
  · exact ⟨[], (List.append_nil _).symm⟩
  · exact ⟨_, rfl⟩
  · rw [drain]
    split <;> exact ⟨[], (List.append_nil _).symm⟩
  · unfold sync
    simp only
    split
    · exact ⟨_, rfl⟩
    · split
      · exact ⟨_, List.append_assoc _ _ _⟩
      · exact ⟨_, rfl⟩
  · exact ⟨[], (List.append_nil _).symm⟩

/-- A watch does not go back to its first scan. -/
theorem step_begun (h : w.phase ≠ .created ∧ w.phase ≠ .scan) :
    (w.step E s).phase ≠ .created ∧ (w.step E s).phase ≠ .scan := by
  unfold step
  split
  · exact absurd ‹_› h.1
  · exact absurd ‹_› h.2
  · simp
  · simp only [scanned]
    split <;> simp
  · rw [drain]
    split
    · exact h
    · simp only
      split <;> simp
  · unfold sync
    simp only [scanned]
    split
    · simp
    · split <;> simp
  · exact h

/-- A watch whose scans do not fail ends them all. -/
theorem step_unsynced (hs : Scannable E s) (hrev : w.rev ≤ s.dbMeta.rev)
    (hsince : w.req.since < 2 ^ 52)
    (hread : w.Readable E True s)
    (h : unsynced w.sent = []) : unsynced (w.step E s).sent = [] := by
  cases hphase : w.phase with
  | created =>
      simp only [step, hphase, check]
      split <;> simp only [unsynced_append_one, h, unsyncedStep]
  | scan =>
      simp only [step, hphase, scanned]
      by_cases hzero : w.req.since = 0
      · simp only [watchScan, hzero, if_true, List.append_nil]
        exact h
      · obtain ⟨ms, hscan, -⟩ := hs.first_scan hread hphase hzero hsince
        rw [hscan]
        exact unsynced_scanMessages _ ms h
  | insert => simpa only [step, hphase] using h
  | rescan =>
      obtain ⟨ms, hscan, -⟩ := hs.next_scan hread (.inl hphase) hrev
      simp only [step, hphase, scanned, hscan]
      exact unsynced_scanMessages _ ms h
  | idle =>
      simp only [step, hphase, drain]
      split <;> exact h
  | due =>
      obtain ⟨ms, hscan, -⟩ := hs.next_scan hread (.inr hphase) hrev
      have hnext := unsynced_scanMessages (E := E) s.dbMeta.rev ms h
      simp only [step, hphase, sync, hscan, Option.isSome_none, Bool.false_eq_true, if_false,
        scanned]
      split
      · simp only [unsynced_append_one, hnext, unsyncedStep]
      · exact hnext
  | done => simpa only [step, hphase] using h

end Watch

/-- What holds of a watch of a stream: it follows a history, and what was taken of its messages
is sent or packed. -/
structure ConnOk (E : Env) (find : WatchCreateRequest → Bytes → Bool) (s : Store)
    (p : Option (List Bytes × Nat)) (c : Conn) : Prop where
  find : ∀ k, c.watch.req.selects k = true → find c.watch.req k = true
  follows : c.watch.req.since < 2 ^ 52 → unsynced c.watch.sent = [] ∧
    ∃ R hist, Follows E R ⟨s, p, c.watch⟩ hist
  taken : c.taken ≤ c.watch.sent.length
  packed : c.out.flatMap WatchResponse.events ++ c.packer.resp.events =
    (c.watch.sent.take c.taken).filterMap WatchMessage.event?
  buffer : c.packer.resp.events <:+ unsynced (c.watch.sent.take c.taken)

namespace ConnOk

variable {E : Env} {find : WatchCreateRequest → Bytes → Bool} {P : Batch → Cmd → Prop}
  {s : Store} {p : Option (List Bytes × Nat)} {c : Conn}

theorem create {req : WatchCreateRequest} (watchId : Int64)
    (hmulti : E.flags.txnMultiWriteEnabled = false)
    (hfind : ∀ k, req.selects k = true → find req k = true)
    (hreach : Reached E (fun b cmd => cmd.Watchable ∧ cmd.KeepsMark b) (.start s))
    (hlt : s.dbMeta.rev + 1 < 2 ^ 52)
    (hp : ∀ keys r, p = some (keys, r) → r = s.dbMeta.rev) :
    ConnOk E find s p { watch := { req := req }, id := watchId } := by
  have hs := hreach.scannable hmulti (fun _ _ hq => hq.1) hlt
  exact ⟨hfind, fun _ => ⟨rfl, _, _, .opened req hreach (fun _ _ hq => hq) hs hp⟩, le_rfl, rfl,
    List.nil_suffix⟩

theorem commit {ents : List Entry} {u : Updated} (h : ConnOk E find s none c)
    (hmulti : E.flags.txnMultiWriteEnabled = false)
    (hreach : Reached E (fun b cmd => cmd.Watchable ∧ cmd.KeepsMark b) (.start s))
    (hP : ∀ b cmd, P b cmd → cmd.Watchable ∧ cmd.KeepsMark b ∧ cmd.Spares c.watch)
    (hmeet : AllMeet E P ents (.start s)) (hu : update E s ents = .ok u)
    (hlt : u.store.dbMeta.rev + 1 < 2 ^ 52) :
    ConnOk E find u.store (some (u.keys, u.newRev)) c := by
  refine ⟨h.find, fun hsince => ?_, h.taken, h.packed, h.buffer⟩
  obtain ⟨hsynced, R, hist, hfollows⟩ := h.follows hsince
  refine ⟨hsynced, R, _, hfollows.commit hmulti (hreach.mono (fun _ _ hq => hq.1))
    (fun b cmd hq => (hP b cmd hq).1) (fun b revision hq hdone hne => ?_)
    (.inr (fun b cmd hq => (hP b cmd hq).2.1)) hmeet rfl hu hlt⟩
  exact ((hP b _ hq).2.2.resolve_left hdone).resolve_left hne

theorem tell {keys : List Bytes} {r : Nat} (h : ConnOk E find s (some (keys, r)) c) :
    ConnOk E find s none { c with watch := c.watch.alert find keys r } := by
  obtain ⟨alerts, halert⟩ := c.watch.alert_eq find keys r
  refine ⟨by rw [halert]; exact h.find, fun hsince => ?_, by rw [halert]; exact h.taken,
    by rw [halert]; exact h.packed, by rw [halert]; exact h.buffer⟩
  rw [halert] at hsince
  obtain ⟨hsynced, R, hist, hfollows⟩ := h.follows hsince
  exact ⟨by rw [halert]; exact hsynced, R, hist, hfollows.tell rfl h.find⟩

/-- A step of the watch. -/
theorem step (h : ConnOk E find s p c) (hmulti : E.flags.txnMultiWriteEnabled = false)
    (hreach : Reached E (fun b cmd => cmd.Watchable ∧ cmd.KeepsMark b) (.start s))
    (hlt : s.dbMeta.rev + 1 < 2 ^ 52) :
    ConnOk E find s p { c with watch := c.watch.step E s } := by
  obtain ⟨new, hsent⟩ := c.watch.step_sent E s
  have htake : (c.watch.step E s).sent.take c.taken = c.watch.sent.take c.taken := by
    rw [hsent, List.take_append_of_le_length h.taken]
  have hs := hreach.scannable hmulti (fun _ _ hq => hq.1) hlt
  refine ⟨by rw [Watch.step_req]; exact h.find, fun hsince => ?_, ?_, ?_, ?_⟩
  · rw [Watch.step_req] at hsince
    obtain ⟨hsynced, R, hist, hfollows⟩ := h.follows hsince
    have hver := (hreach.mono (fun _ _ hq => hq.1)).versioned_watchable (by omega)
    exact ⟨Watch.step_unsynced hs hfollows.delivers.rev_le hsince hfollows.readable hsynced, R,
      hist, hfollows.step hs hver hsince⟩
  · rw [hsent, List.length_append]
    exact h.taken.trans (Nat.le_add_right _ _)
  · rw [htake]
    exact h.packed
  · rw [htake]
    exact h.buffer

theorem cancel (h : ConnOk E find s p c) :
    ConnOk E find s p { c with watch := c.watch.cancel } := by
  rcases c.watch.cancel_eq with hcancel | ⟨-, hcancel⟩
  · rw [hcancel]
    exact h
  · refine ⟨by rw [hcancel]; exact h.find, fun hsince => ?_, by rw [hcancel]; exact h.taken,
      by rw [hcancel]; exact h.packed, by rw [hcancel]; exact h.buffer⟩
    rw [hcancel] at hsince
    obtain ⟨hsynced, R, hist, hfollows⟩ := h.follows hsince
    exact ⟨by rw [hcancel]; exact hsynced, R, hist, hfollows.cancel⟩

theorem take {max : Nat} {id : Int64} {msg : WatchMessage} {packer : Packer}
    {out : List WatchResponse} (h : ConnOk E find s p c) (hmsg : c.watch.sent[c.taken]? = some msg)
    (htake : c.packer.take max id msg = some (packer, out)) :
    ConnOk E find s p { c with
      id := id
      taken := c.taken + 1
      packer := packer
      out := c.out ++ out } := by
  obtain ⟨hevents, hbuffer⟩ := Packer.take_spec htake
  have hnext : c.watch.sent.take (c.taken + 1) = c.watch.sent.take c.taken ++ [msg] := by
    rw [List.take_add_one, hmsg]
    rfl
  refine ⟨h.find, h.follows, ?_, ?_, ?_⟩
  · exact (List.getElem?_eq_some_iff.mp hmsg).1
  · rw [hnext, List.filterMap_append, ← h.packed, List.flatMap_append, List.append_assoc, hevents,
      List.append_assoc]
    cases msg <;> rfl
  · rw [hnext, unsynced_append_one]
    exact hbuffer _ h.buffer

/-- A watch that waits without an alert, and whose messages have been taken, has sent every
write it is asked for. -/
theorem shown (h : ConnOk E find s none c)
    (hlog : ∀ wr ∈ s.tables.kv.log, wr.kr.upper.toNat = wr.rev ∧ wr.rev < 2 ^ 52)
    (hidle : c.watch.phase = .idle) (halerts : c.watch.alerts = [])
    (htaken : c.taken = c.watch.sent.length) {wr : Write} (hwr : wr ∈ s.tables.kv.log)
    (hstart : c.watch.start ≤ wr.rev) (hwants : c.watch.req.wants wr.event = true) :
    ∃ resp ∈ c.out, ∃ m ∈ resp.events, Shows wr.event m := by
  obtain ⟨hupper, hbound⟩ := hlog wr hwr
  have hsince : c.watch.req.since < 2 ^ 52 := by
    rw [Watch.start] at hstart
    split at hstart <;> omega
  obtain ⟨hsynced, R, hist, hfollows⟩ := h.follows hsince
  have hr : R := by
    refine hfollows.refused.resolve_right ?_
    rintro (⟨hcreated, -⟩ | hdone)
    · rw [hidle] at hcreated
      cases hcreated
    · rw [hidle] at hdone
      cases hdone
  obtain ⟨evt, hevt, hkey, hrev⟩ := hfollows.complete hr (by simp [Watch.next, hidle]) wr hwr
    hstart (.inl (by simp [hidle]))
  have hsame := Write.eq_event hkey hrev
  have hwants' : c.watch.req.wants evt = true := by
    rw [hsame]
    exact hwants
  have hle : evt.rev.upper.toNat ≤ c.watch.rev := by
    by_contra hgt
    have hselects : c.watch.req.selects evt.key = true := by
      rw [WatchCreateRequest.wants, Bool.and_eq_true] at hwants'
      exact hwants'.1
    rcases hfollows.delivers.told hidle evt hevt (Nat.lt_of_not_le hgt) hselects with
      ⟨_, _, hnone, -⟩ | ⟨a, ha, -⟩
    · cases hnone
    · rw [halerts] at ha
      cases ha
  have hcov : c.watch.covers evt = true :=
    Watch.covers_of_le hwants' (by rw [hrev, hupper]; exact hstart) hle
  obtain ⟨m, hm, hshows⟩ :=
    exists_of_forall₂ hfollows.delivers.sent (List.mem_filter.mpr ⟨hevt, hcov⟩)
  -- nothing is left in the packer
  have hpacked := h.packed
  have hbuffer := h.buffer
  rw [htaken, List.take_length] at hpacked hbuffer
  rw [hsynced, List.suffix_nil] at hbuffer
  rw [hbuffer, List.append_nil] at hpacked
  have hm' : m ∈ c.out.flatMap WatchResponse.events := by
    rw [hpacked]
    exact hm
  obtain ⟨resp, hresp, hmem⟩ := List.mem_flatMap.mp hm'
  rw [hsame] at hshows
  exact ⟨resp, hresp, m, hmem, hshows⟩

end ConnOk

end Turbokube
