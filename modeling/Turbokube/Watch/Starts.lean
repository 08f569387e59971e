import Turbokube.Machine.CompactMarks
import Turbokube.Store.Ranges
import Turbokube.Transition
import Turbokube.Watch.Compacted

/-!
# Where a watch starts

The first scan of a watch is from the revision it was asked for, and every later one from the
revision after the one the scan before it saw.  A watch that is asked for a revision above the
next one forgets it with the first scan: the second scan and the alerts go through what is
committed from then on, which has smaller revisions.

The event of a put is looked up by its revision.  The record found there has that revision
even when it does not decode to what was written, so the bound is not only about runs whose
records can be read back.  A compaction can leave an event whose record it has removed; the message
for it has no revision at all.  So compactions must not go further than the watch has scanned.
-/

namespace Turbokube

open Encoding Lmdb DbKv Transition

/-- The event shows a write at this revision or later. -/
def WatchEvent.NotBefore (s : Int64) (m : WatchEvent) : Prop :=
  ∃ kv ∈ m.kv, s ≤ kv.modRevision

instance (s : Int64) (m : WatchEvent) : Decidable (m.NotBefore s) := by
  unfold WatchEvent.NotBefore
  infer_instance

section Lookup

variable {E : Env} {S : Prop} {db : DbKv} {ch : Bytes → List Version} {lo hi : Nat}

/-- Records that are all there stop a read only by not decoding. -/
theorem readRevs_isDecoding {keysOnly : Bool} {rs : List Keyrev} {recv item : Kv}
    {next : Option Bytes} {e : Err} (hstored : ∀ r ∈ rs, ∃ v, db.val.get r.key = some v)
    (h : readRevs E db keysOnly rs recv next = (item, some e)) : e.isDecoding = true := by
  induction rs generalizing recv next with
  | nil => cases (Prod.mk.inj h).2
  | cons r rs ih =>
      obtain ⟨v, hv⟩ := hstored r List.mem_cons_self
      have hfetch : db.val.fetch r.key = .ok v := by
        rw [Table.fetch, hv]
      rw [readRevs, hfetch] at h
      simp only at h
      split at h
      · next item' e' hdecode =>
          obtain rfl := Option.some.inj (Prod.mk.inj h).2
          exact Kv.fromBytes_err (congrArg Prod.snd hdecode)
      · exact ih (fun x hx => hstored x (List.mem_cons_of_mem _ hx)) h

theorem isSome_of_mem_liveStep {l acc : List Version} (hacc : ∀ x ∈ acc, x.item.isSome = true)
    {x : Version} (hx : x ∈ l.foldl liveStep acc) : x.item.isSome = true := by
  induction l generalizing acc with
  | nil => exact hacc x hx
  | cons v l ih =>
      refine ih (fun y hy => ?_) hx
      rw [liveStep] at hy
      split at hy
      · rcases List.mem_append.mp hy with hy | hy
        · exact hacc y hy
        · rw [List.mem_singleton.mp hy]
          assumption
      · cases hy

/-- What a read decodes is stored. -/
theorem DbKv.Rep.get_of_decodedAbove (h : db.Rep E S ch) {k : Bytes} {r : UInt64} {x : Version}
    (hx : x ∈ decodedAbove r (ch k)) : ∃ v, db.val.get x.rev.key = some v := by
  obtain ⟨e, he⟩ := Option.isSome_iff_exists.mp (isSome_of_mem_liveStep (by simp) hx)
  have hmem : x ∈ ch k := by
    rcases mem_foldl_liveStep hx with hx | hx
    · cases hx
    · exact (List.takeWhile_sublist _).mem hx
  obtain ⟨base, hget⟩ := (h.stored k).get hmem he
  exact ⟨_, hget⟩

/-- The lookup for the event of a put finds its revision if it finds anything. -/
theorem DbKv.Rep.getRev_rev (h : db.Rep E S ch) (hlog : LogOk db.log lo hi)
    (hsp : Spaced False db.log) {k : Bytes} {x : Version} (hx : x ∈ ch k)
    (hlive : x.rev.isdel = false) {withPrev : Bool} {item prev : Kv}
    (hget : db.getRev E k x.rev.upper withPrev = (item, prev, none)) : item.rev = x.rev := by
  obtain ⟨pre, post, hch⟩ := List.append_of_mem hx
  have hat := h.versionsAt_eq hlog hsp hch (fun hdel => by simp [hlive] at hdel)
  obtain ⟨hne, hlen⟩ := hlog.key_of_mem (h.mem_versions hx)
  obtain ⟨e, he⟩ := Option.isSome_iff_exists.mp
    ((hlog.item_isSome (h.mem_versions hx)).mpr hlive)
  have hstored : ∀ r ∈ (decodedAbove x.rev.upper (ch k)).map Version.rev ++ [x.rev],
      ∃ v, db.val.get r.key = some v := by
    intro r hr
    rcases List.mem_append.mp hr with hr | hr
    · obtain ⟨y, hy, rfl⟩ := List.mem_map.mp hr
      exact h.get_of_decodedAbove hy
    · rw [List.mem_singleton.mp hr]
      obtain ⟨base, hv⟩ := (h.stored k).get hx he
      exact ⟨_, hv⟩
  have hdups : db.rev.dups k ≠ [] := by
    rw [h.dups, hch]
    simp
  obtain ⟨rest, hs, -⟩ := setRange_of_dups_ne_nil hne hdups
  rw [DbKv.getRev, hs] at hget
  simp only [ne_eq, not_true_eq_false, if_false] at hget
  rw [h.descend hlog, hat] at hget
  simp only [List.head?_cons, Option.map_some, hlive, Bool.false_eq_true, if_false, if_true]
    at hget
  split at hget
  · next item' e' hread =>
      -- an error that is hidden would be that of an absent record
      have hdec := readRevs_isDecoding hstored hread
      have hnone : absentOk (some e') = none := (Prod.mk.inj (Prod.mk.inj hget).2).2
      cases e' with
      | lmdb le => cases hdec
      | _ => cases hnone
  · next item' hread =>
      obtain ⟨recv, next, v, -, hdecode⟩ := readRevs_concat hread
      have hrev := Kv.fromBytes_rev hdecode
      rw [Keyrev.mk_uint64_key] at hrev
      split at hget
      · rw [← (Prod.mk.inj hget).1]
        exact hrev
      · rw [← (Prod.mk.inj hget).1]
        exact hrev

/-- The message for an event has its revision. -/
theorem DbKv.Rep.watchEvent_rev (h : db.Rep E S ch) (hlog : LogOk db.log lo hi)
    (hsp : Spaced False db.log) {evt : KvEvent} {x : Version} (hx : x ∈ ch evt.key)
    (hrev : x.rev = evt.rev) {prevKv : Bool} {m : WatchEvent}
    (hm : watchEvent E db prevKv evt = .ok m) :
    ∃ kv ∈ m.kv, kv.modRevision = evt.rev.upper.toInt64 := by
  obtain ⟨w, hw, -, cur, hxw⟩ := write_of_mem_versions (h.mem_versions hx)
  have hupper : 0 < evt.rev.upper := by
    rw [UInt64.lt_iff_toNat_lt, UInt64.toNat_zero, ← hrev, hxw, Write.version, hlog.upper w hw]
    exact hlog.pos w hw
  rw [watchEvent] at hm
  split at hm
  · obtain rfl := Except.ok.inj hm
    exact ⟨_, if_pos hupper, rfl⟩
  · next hdel =>
      have hlive : x.rev.isdel = false := by
        rw [hrev]
        simpa using hdel
      split at hm
      · cases hm
      · next item prev hget =>
          obtain rfl := Except.ok.inj hm
          rw [← hrev] at hget
          have hitem := (h.getRev_rev hlog hsp hx hlive hget).trans hrev
          refine ⟨item.toProto, if_pos (by rw [hitem]; exact hupper), ?_⟩
          rw [Kv.toProto, hitem]

end Lookup

section Scan

variable {E : Env} {s : Store} {req : WatchCreateRequest}

/-- What a scan sends, it sends for events it goes through, also when it fails. -/
theorem event_of_mem_watchLoop {db : DbKv} {rev : Nat} {evts : List KvEvent} {m : WatchEvent}
    (hm : m ∈ (watchLoop E db req rev evts).1.filterMap WatchMessage.event?) :
    ∃ evt ∈ evts, watchEvent E db req.prevKv evt = .ok m := by
  induction evts with
  | nil => cases hm
  | cons evt evts ih =>
      rw [watchLoop] at hm
      have hrest : m ∈ (watchLoop E db req rev evts).1.filterMap WatchMessage.event? →
          ∃ e ∈ evt :: evts, watchEvent E db req.prevKv e = .ok m := fun hm => by
        obtain ⟨e, he, hok⟩ := ih hm
        exact ⟨e, List.mem_cons_of_mem _ he, hok⟩
      split at hm
      · split at hm
        · cases hm
        · next m' hok =>
            rcases List.mem_cons.mp hm with rfl | hm
            · exact ⟨evt, List.mem_cons_self, hok⟩
            · exact hrest hm
      · exact hrest hm

theorem event_of_mem_watchScan {since : Nat} {m : WatchEvent}
    (hm : m ∈ (watchScan E s req since).sent.filterMap WatchMessage.event?) :
    since ≠ 0 ∧ ∃ evts, s.tables.kv.scan (UInt64.ofNat since) = .ok evts ∧
      ∃ evt ∈ evts, watchEvent E s.tables.kv req.prevKv evt = .ok m := by
  rw [watchScan] at hm
  split at hm
  · cases hm
  · next hne =>
      refine ⟨hne, ?_⟩
      split at hm
      · cases hm
      · next evts hscan =>
          refine ⟨evts, hscan, @event_of_mem_watchLoop E req _ s.dbMeta.rev evts m ?_⟩
          split at hm
          · next msgs e hloop =>
              rw [hloop]
              exact hm
          · next msgs hloop =>
              rw [hloop]
              simp only at hm ⊢
              split at hm
              · cases hm
              · rw [List.filterMap_append] at hm
                exact (List.mem_append.mp hm).resolve_right (fun hm => by cases hm)

/-- A scan from a revision sends no event from before it. -/
theorem watchScan_notBefore {S : Prop} {bound : Nat} (hsp : Spaced False s.tables.kv.log)
    {start : Int64} {since : Nat}
    (hkept : since ≠ 0 → s.tables.kv.KeptFrom E S since bound)
    (hstart : start.toUInt64.toNat ≤ since) (hsince : since < 2 ^ 52) {m : WatchEvent}
    (hm : m ∈ (watchScan E s req since).sent.filterMap WatchMessage.event?) :
    m.NotBefore start := by
  obtain ⟨hne, evts, hscan, evt, hevt, hok⟩ := event_of_mem_watchScan hm
  obtain ⟨ch, hrep, hlog, hversion⟩ := (hkept hne).version_of_event
  rw [hrep.scan_eq hsince] at hscan
  obtain rfl := Except.ok.inj hscan
  obtain ⟨x, hx, hrev⟩ := hversion evt hevt
  obtain ⟨kv, hkv, hmod⟩ := hrep.watchEvent_rev hlog hsp hx hrev hok
  refine ⟨kv, hkv, ?_⟩
  have hle : start.toUInt64 ≤ evt.rev.upper := by
    rw [UInt64.le_iff_toNat_le]
    exact hstart.trans (of_decide_eq_true (List.mem_filter.mp hevt).2)
  have hbound : evt.rev.upper.toNat < 2 ^ 52 := by
    have := evt.rev.word.toNat_lt
    rw [Keyrev.upper_toNat]
    omega
  have hround : start = start.toUInt64.toInt64 := by simp
  rw [hmod, hround]
  exact toInt64_le_of_le hle hbound

end Scan

section Run

variable {E : Env} {find : WatchCreateRequest → Bytes → Bool} {Q : Batch → Cmd → Prop}
  {req : WatchCreateRequest} {σ₀ σ : Watching}

/-- When the watch makes its first scan, the revision it was asked for has been committed or is
the next one. -/
def WatchAction.Ready (σ : Watching) : WatchAction → Prop
  | .step => σ.watch.phase = .scan → σ.watch.req.since ≤ σ.store.dbMeta.rev + 1
  | _ => True

/-- Besides that, no transaction is too long, and compactions neither go back nor further than the
watch has scanned. -/
def WatchAction.Starts (E : Env) (σ : Watching) (a : WatchAction) : Prop :=
  a.Meets E (fun w b cmd => cmd.OpsAtMost 1024 ∧ cmd.KeepsMark b ∧ cmd.Spares w) σ ∧ a.Ready σ

theorem Watching.watchRun_of_run (h : Run (Watching.act E find) (fun σ a => a.Starts E σ) σ₀ σ) :
    WatchRun E find (fun w b cmd => cmd.OpsAtMost 1024 ∧ cmd.KeepsMark b ∧ cmd.Spares w) σ₀ σ := by
  induction h with
  | refl => exact .refl
  | act _ hok hact ih => exact ih.act hok.1 hact

theorem Watching.reached_of_run
    (hopen : Opened E (fun b cmd => cmd.OpsAtMost 1024 ∧ cmd.KeepsMark b) req σ₀)
    (h : Run (Watching.act E find) (fun σ a => a.Starts E σ) σ₀ σ) :
    Reached E (fun b cmd => cmd.OpsAtMost 1024 ∧ cmd.KeepsMark b) (.start σ.store) := by
  refine h.invariant (I := fun σ =>
    Reached E (fun b cmd => cmd.OpsAtMost 1024 ∧ cmd.KeepsMark b) (.start σ.store))
    hopen.reached (fun σ σ' a hreach hok hact => ?_)
  rcases Watching.act_cases hact with ⟨ents, u, rfl, -, hu, rfl⟩ | ⟨_, _, -, rfl⟩ | rfl | rfl
  · exact hreach.update (AllMeet.imp (fun _ _ hq => ⟨hq.1, hq.2.1⟩) hok.1) hu
  · exact hreach
  · exact hreach
  · exact hreach

/-- A watch that has scanned goes on from where it was asked to start or later. -/
structure Watch.Started (s : Store) (w : Watch) : Prop where
  rev_le : w.rev ≤ s.dbMeta.rev
  since_le : w.phase ≠ .done → w.req.since ≤ w.next
  events : ∀ m ∈ w.events, m.NotBefore w.req.startRevision

namespace Watch

variable {s : Store} {w : Watch}

/-- A watch that has passed its check, or scanned, has its next scan above the mark. -/
theorem Readable.step {S U : Prop} (h : w.Readable E S s)
    (hver : s.tables.kv.Versioned E S U ((s.dbMeta.rev + 1) * 4096))
    (hmark : s.tables.kv.KeptFrom E S s.dbMeta.revMin.toNat ((s.dbMeta.rev + 1) * 4096)) :
    (w.step E s).Readable E S s := by
  intro _ hdone hne
  rcases w.step_next hdone with hsame | hnext
  · rw [hsame] at hne ⊢
    by_cases hphase : w.phase = .created
    · have hnext : w.next = w.req.since := by simp only [next, hphase]
      have hpassed : ¬ (0 < w.req.since ∧ w.req.since < s.dbMeta.revMin.toNat) := by
        intro hbelow
        exact hdone (Refused.step (.inl ⟨hphase, hbelow⟩))
      rw [hnext] at hne ⊢
      exact hmark.mono_cut (by omega)
    · refine h hphase (fun hd => hdone ?_) hne
      exact Refused.step (.inr hd)
  · rw [hnext]
    exact hver.keptFrom

/-- A step, from a store whose scans send nothing from before where they start. -/
theorem Started.step (h : w.Started s) (hread : w.Readable E False s)
    (hlt : s.dbMeta.rev + 1 < 2 ^ 52)
    (hready : w.phase = .scan → w.req.since ≤ s.dbMeta.rev + 1)
    (hsp : Spaced False s.tables.kv.log) : (w.step E s).Started s := by
  have hle := h.rev_le
  rcases w.step_cases E s with ⟨hrev, hevents, hcase⟩ | ⟨⟨hcreated, hdone⟩, hrev, hnext, hevents⟩
  · refine ⟨hrev.le.trans hle, fun hdone' => ?_, fun m hm => ?_⟩
    · rcases hcase with ⟨-, -, hrefused⟩ | ⟨hdone, hnext⟩
      · exact absurd hrefused hdone'
      · rw [step_req, hnext]
        exact h.since_le (hdone hdone')
    · rw [hevents] at hm
      rw [step_req]
      exact h.events m hm
  · have hsince := h.since_le hdone
    have hbound : w.next ≤ s.dbMeta.rev + 1 := by
      by_cases hscan : w.phase = .scan
      · have := hready hscan
        simp only [next, hscan]
        exact this
      · rw [next_eq hcreated hscan]
        omega
    refine ⟨hrev.le, fun _ => ?_, fun m hm => ?_⟩
    · rw [step_req, hnext]
      omega
    · rw [hevents, List.mem_append] at hm
      rw [step_req]
      rcases hm with hm | hm
      · exact h.events m hm
      · exact watchScan_notBefore hsp (hread hcreated hdone) hsince (by omega) hm

theorem Started.alert (h : w.Started s) (find : WatchCreateRequest → Bytes → Bool)
    (keys : List Bytes) (r : Nat) : (w.alert find keys r).Started s := by
  obtain ⟨alerts, halert⟩ := w.alert_eq find keys r
  rw [halert]
  exact ⟨h.rev_le, h.since_le, h.events⟩

theorem Started.cancel (h : w.Started s) : w.cancel.Started s := by
  rcases w.cancel_eq with hcancel | ⟨-, hcancel⟩
  · rw [hcancel]
    exact h
  · rw [hcancel]
    exact ⟨h.rev_le, fun hdone => absurd rfl hdone, h.events⟩

end Watch

theorem Watching.started_of_run (hmulti : E.flags.txnMultiWriteEnabled = false)
    (hopen : Opened E (fun b cmd => cmd.OpsAtMost 1024 ∧ cmd.KeepsMark b) req σ₀)
    (h : Run (Watching.act E find) (fun σ a => a.Starts E σ) σ₀ σ)
    (hlt : σ.store.dbMeta.rev + 1 < 2 ^ 52) :
    σ.watch.Started σ.store ∧ σ.watch.Readable E False σ.store := by
  have hputs : ∀ cmd : Cmd, cmd.PutsMeet (fun req => False → req.SendsNoKept) :=
    fun cmd => Cmd.PutsMeet.imp (fun _ _ hfalse => hfalse.elim) (putsMeet_true cmd)
  induction h with
  | refl =>
      rw [hopen.watch]
      exact ⟨⟨Nat.zero_le _, fun _ => le_rfl, fun m hm => by cases hm⟩,
        fun hcreated => absurd rfl hcreated⟩
  | @act σ σ' a hrun hok hact ih =>
      have hreach := reached_of_run hopen hrun
      cases a with
      | commit ents =>
          simp only [Watching.act] at hact
          split at hact
          · next u hpending hu =>
              obtain rfl := Option.some.inj hact
              have hle := rev_le_of_update hu
              obtain ⟨b, rs, -, -, hrev, -, hnew, -⟩ := update_inv hu
              obtain ⟨hstarted, hread⟩ := ih (by simp only at hlt; omega)
              refine ⟨⟨hstarted.rev_le.trans hle, hstarted.since_le, hstarted.events⟩,
                fun hcreated hdone hne => ?_⟩
              exact versions_of_update (fun _ _ hq => hq.1) hok.1 hu (by simp only at hlt; omega)
                (fun _ cmd _ => hputs cmd)
                (fun b revision hq => (hq.2.2.resolve_left hdone).resolve_left hne)
                (hread hcreated hdone hne)
          · cases hact
      | tell =>
          simp only [Watching.act] at hact
          split at hact
          · next keys r hpending =>
              obtain rfl := Option.some.inj hact
              obtain ⟨hstarted, hread⟩ := ih hlt
              obtain ⟨alerts, halert⟩ := σ.watch.alert_eq find keys r
              refine ⟨hstarted.alert find keys r, ?_⟩
              simp only [halert]
              exact hread
          · cases hact
      | step =>
          obtain rfl := Option.some.inj hact
          obtain ⟨hstarted, hread⟩ := ih hlt
          have hrev : (Batch.start σ.store).newRev < 2 ^ 52 := (Nat.lt_succ_self _).trans hlt
          have hmark : σ.store.tables.kv.KeptFrom E False σ.store.dbMeta.revMin.toNat
              ((σ.store.dbMeta.rev + 1) * 4096) :=
            hreach.keptFrom_mark (fun _ cmd hq => ⟨hq.1, hputs cmd, hq.2⟩) hrev
          exact ⟨hstarted.step hread hlt hok.2
              (hreach.spaced hmulti (fun _ _ hq => hq.1) False.elim hrev),
            hread.step (hreach.versioned_of_opsAtMost (fun _ _ hq => hq.1) hrev) hmark⟩
      | cancel =>
          obtain rfl := Option.some.inj hact
          obtain ⟨hstarted, hread⟩ := ih hlt
          refine ⟨hstarted.cancel, ?_⟩
          rcases σ.watch.cancel_eq with hcancel | ⟨-, hcancel⟩
          · simp only [hcancel]
            exact hread
          · simp only [hcancel]
            exact fun _ hdone => absurd rfl hdone

end Run

/-- A watch that makes its first scan when the revision it was asked for has been committed or
is the next one sends no event from before it, whatever is committed before, during and after
its scans, as long as compactions do not go back and go no further than it has scanned. -/
theorem watch_sends_from_start {E : Env} {find : WatchCreateRequest → Bytes → Bool}
    {req : WatchCreateRequest} {σ₀ σ : Watching} (hmulti : E.flags.txnMultiWriteEnabled = false)
    (hopen : Opened E (fun b cmd => cmd.OpsAtMost 1024 ∧ cmd.KeepsMark b) req σ₀)
    (h : Run (Watching.act E find) (fun σ a => a.Starts E σ) σ₀ σ)
    (hlt : σ.store.dbMeta.rev + 1 < 2 ^ 52) :
    ∀ m ∈ σ.watch.events, m.NotBefore req.startRevision := by
  rw [← (Watching.watchRun_of_run h).req_eq hopen]
  exact (Watching.started_of_run hmulti hopen h hlt).1.events

instance (σ : Watching) (a : WatchAction) : Decidable (a.Ready σ) :=
  match a with
  | .step =>
      inferInstanceAs (Decidable
        (σ.watch.phase = .scan → σ.watch.req.since ≤ σ.store.dbMeta.rev + 1))
  | .commit _ | .tell | .cancel => .isTrue trivial

instance (E : Env) (σ : Watching) (a : WatchAction) : Decidable (a.Starts E σ) := by
  unfold WatchAction.Starts
  infer_instance

/-- A watch for the next revision gets the puts from it on, and they are compacted when it has
scanned them. -/
theorem watch_sends_from_start_next :
    ∃ σ ∈ acts (Watching.act .plain WatchCreateRequest.selects)
        (settle ++ threePuts ++ [.step, .step] ++ commitTell (.compact 4))
        (.init { key := [97], startRevision := 2 }),
      σ.watch.events.length = 3 ∧ ∀ m ∈ σ.watch.events, m.NotBefore 2 := by
  obtain ⟨σ, hσ, hlen, hrev⟩ : ∃ σ ∈ acts (Watching.act .plain WatchCreateRequest.selects)
        (settle ++ threePuts ++ [.step, .step] ++ commitTell (.compact 4))
        (.init { key := [97], startRevision := 2 }),
      σ.watch.events.length = 3 ∧ σ.store.dbMeta.rev = 4 := by
    decide +kernel
  have hrun : Run (Watching.act .plain WatchCreateRequest.selects) (fun σ a => a.Starts .plain σ)
      (.init { key := [97], startRevision := 2 }) σ :=
    Run.refl.of_acts (by decide +kernel) hσ
  have hopen : Opened .plain (fun b cmd => cmd.OpsAtMost 1024 ∧ cmd.KeepsMark b)
      { key := [97], startRevision := 2 } (.init { key := [97], startRevision := 2 }) := .init _
  have hsends := watch_sends_from_start rfl hopen hrun (by rw [hrev]; decide)
  exact ⟨σ, hσ, hlen, hsends⟩

/-- A watch for revision 5 on an empty store.  The put of `a` is committed as revision 2 after
the watch has settled, and the watch sends it.

The other watch is for revision 2 and waits while five puts are committed and compacted.  The
compaction steps over the event of the first put of `a` and removes its record.  The watch sends
the event without a key and a revision. -/
theorem watch_sends_before_start :
    (∃ σ ∈ acts (Watching.act .plain WatchCreateRequest.selects)
        (settle ++ commitTell (.put { key := [97], value := [1] }) ++ [.step, .step])
        (.init { key := [97], startRevision := 5 }),
      ∃ m ∈ σ.watch.events, m.kv.map KeyValue.modRevision = some 2 ∧ ¬ m.NotBefore 5) ∧
    ∃ σ ∈ acts (Watching.act .plain WatchCreateRequest.selects)
        (settle ++ commitTell (.put { key := [120], value := [1] }) ++
          commitTell (.put { key := [97], value := [1] }) ++
          commitTell (.put { key := [97], value := [2] }) ++
          commitTell (.put { key := [121], value := [1] }) ++
          commitTell (.put { key := [119], value := [1] }) ++ commitTell (.compact 6) ++
          [.step, .step])
        (.init { key := [97], rangeEnd := [122], startRevision := 2 }),
      ∃ m ∈ σ.watch.events, m.kv = none ∧ ¬ m.NotBefore 2 := by
  decide +kernel

end Turbokube
