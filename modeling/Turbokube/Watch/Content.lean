import Turbokube.Machine.Snapshots
import Turbokube.Machine.Spacing
import Turbokube.Model.Watch

/-!
# What watch events say

The message for an event is made after the fact: the record is looked up by the revision of
the event, and the previous one is the next older version.  Both are right when the key has
one version of that revision.  A transaction that deletes a key and puts it again makes two,
and the lookup for the deletion finds the put.
-/

namespace Turbokube

open Encoding Lmdb DbKv

section Log

/-- The map the writes of a log leave. -/
def contents (log : List Write) : Bytes → Option Kv := log.foldl snapshotStep (fun _ => none)

/-- What an event of this write shows of it.  Of a deletion there is the key and the
revision. -/
def Write.shown (cur : Option Kv) (w : Write) : KeyValue :=
  match entryAfter cur w with
  | some e => e.toProto
  | none => Kv.toProto { key := w.key, rev := w.kr }

/-- The message shows the write of the event, and what the key held before it. -/
def Depicts (log : List Write) (evt : KvEvent) (m : WatchEvent) : Prop :=
  ∃ before w after, log = before ++ w :: after ∧ w.key = evt.key ∧ w.kr = evt.rev ∧
    (∀ w' ∈ before ++ after, w'.key = evt.key → w'.kr ≠ evt.rev) ∧
    m.type = evt.etype ∧ m.kv = some (w.shown (contents before evt.key)) ∧
    m.prevKv = (contents before evt.key).map Kv.toProto

/-- The writes up to a version of a key. -/
theorem split_of_versions {log : List Write} {k : Bytes} {pre post : List Version} {x : Version}
    (h : versions log k = pre ++ x :: post) :
    ∃ before w after, log = before ++ w :: after ∧ w.key = k ∧
      x = w.version (current (versions before k)) ∧ post = versions before k := by
  induction log using List.reverseRecOn generalizing pre with
  | nil => simp at h
  | append_singleton log w ih =>
      rw [versions_append_one] at h
      split at h
      · rename_i hk
        cases pre with
        | nil =>
            obtain ⟨rfl, rfl⟩ := List.cons.inj h
            exact ⟨log, w, [], rfl, hk, rfl, rfl⟩
        | cons y pre =>
            obtain ⟨-, h⟩ := List.cons.inj h
            obtain ⟨before, w', after, rfl, hrest⟩ := ih h
            exact ⟨before, w', after ++ [w], by simp, hrest⟩
      · obtain ⟨before, w', after, rfl, hrest⟩ := ih h
        exact ⟨before, w', after ++ [w], by simp, hrest⟩

/-- Later writes put their versions in front. -/
theorem versions_append (log log' : List Write) (k : Bytes) :
    ∃ pre, versions (log ++ log') k = pre ++ versions log k ∧
      ∀ w ∈ log', w.key = k → ∃ cur, w.version cur ∈ pre := by
  induction log' using List.reverseRecOn with
  | nil => exact ⟨[], by simp, by simp⟩
  | append_singleton log' w ih =>
      obtain ⟨pre, hpre, hmem⟩ := ih
      rw [← List.append_assoc, versions_append_one, hpre]
      split
      · refine ⟨w.version (current (pre ++ versions log k)) :: pre, rfl, fun w' hw' hk => ?_⟩
        rcases List.mem_append.mp hw' with hw' | hw'
        · obtain ⟨cur, hcur⟩ := hmem w' hw' hk
          exact ⟨cur, List.mem_cons_of_mem _ hcur⟩
        · rw [List.mem_singleton.mp hw']
          exact ⟨_, List.mem_cons_self⟩
      · rename_i hne
        refine ⟨pre, rfl, fun w' hw' hk => ?_⟩
        rcases List.mem_append.mp hw' with hw' | hw'
        · exact hmem w' hw' hk
        · rw [List.mem_singleton.mp hw'] at hk
          exact absurd hk hne

end Log

section Lookup

variable {E : Env} {S T : Prop} {db : DbKv} {ch : Bytes → List Version} {lo hi : Nat}

/-- A read at the revision of a version stops there if it is the last one of its revision. -/
theorem DbKv.Rep.versionsAt_eq (h : db.Rep E S ch) (hlog : LogOk db.log lo hi)
    (hsp : Spaced T db.log)
    {k : Bytes} {x : Version} {pre post : List Version} (hch : ch k = pre ++ x :: post)
    (hT : x.rev.isdel = true → T) : versionsAt x.rev.upper (ch k) = x :: post := by
  have hpair := (hsp k).sublist (h.kept k).sublist
  rw [hch] at hpair ⊢
  have hnew : ∀ v ∈ pre, Version.tooNew x.rev.upper v = true := by
    intro v hv
    have hlt := (List.pairwise_append.mp hpair).2.2 v hv x List.mem_cons_self hT
    obtain ⟨w, hw, -, cur, rfl⟩ := write_of_mem_versions
      (h.mem_versions (k := k) (x := x) (by rw [hch]; simp))
    have hpos := hlog.pos w hw
    have hupper := hlog.upper w hw
    simp only [Version.tooNew, decide_eq_true_eq, UInt64.lt_iff_toNat_lt, UInt64.toNat_zero]
    exact ⟨by simp only [Write.version]; omega, hlt⟩
  have hstop : Version.tooNew x.rev.upper x = false := by
    simp [Version.tooNew]
  rw [versionsAt, List.dropWhile_append_of_pos hnew, List.dropWhile_cons_of_neg (by simp [hstop])]

/-- What a version holds has a revision to show. -/
theorem DbKv.Rep.shownIfAny_current (h : db.Rep E S ch) (hlog : LogOk db.log lo hi) {k : Bytes}
    {vs : List Version} (hvs : ∀ v ∈ vs, v ∈ ch k) :
    ((current vs).getD {}).shownIfAny = (current vs).map Kv.toProto := by
  cases hcur : current vs with
  | none => rfl
  | some e =>
      obtain ⟨v, hv, he⟩ := Option.bind_eq_some_iff.mp hcur
      have hmem := h.mem_versions (hvs v (List.mem_of_head? hv))
      obtain ⟨w, hw, -, cur, rfl⟩ := write_of_mem_versions hmem
      have hpos := hlog.pos w hw
      have hupper := hlog.upper w hw
      have hrev := (item_of_mem_versions hmem he).1
      rw [Option.getD_some, Kv.shownIfAny, if_pos]
      · rfl
      · rw [hrev, UInt64.lt_iff_toNat_lt, UInt64.toNat_zero]
        simp only [Write.version]
        omega

/-- The lookup for an event of a version that is the last one of its revision. -/
theorem DbKv.Rep.getRev_event (h : db.Rep E True ch) (hlog : LogOk db.log lo hi)
    (hsp : Spaced T db.log) (hshort : NoShort db.log) {k : Bytes} {x : Version}
    {pre post : List Version} (hch : ch k = pre ++ x :: post) (hT : x.rev.isdel = true → T)
    (withPrev : Bool) :
    db.getRev E k x.rev.upper withPrev =
      (x.item.getD {}, if withPrev then (current post).getD {} else {}, none) := by
  have hx : x ∈ ch k := by
    rw [hch]
    simp
  obtain ⟨hne, hlen⟩ := hlog.key_of_mem (h.mem_versions hx)
  have hkey : ValidKey k := hne
  rw [h.getRev hlog hkey (h.readable hshort _ k), h.versionsAt_eq hlog hsp hch hT]
  · rfl
  · intro _ v hv
    rw [h.versionsAt_eq hlog hsp hch hT, List.tail_cons] at hv
    refine hshort k v (h.mem_versions ?_)
    rw [hch]
    exact List.mem_append_right _ (List.mem_cons_of_mem _ (List.mem_of_head? hv))

end Lookup

section Message

variable {E : Env} {T : Prop} {db : DbKv} {ch : Bytes → List Version} {lo hi : Nat}

/-- The message for an event whose version is the last one of its revision. -/
theorem DbKv.Rep.watchEvent_eq (h : db.Rep E True ch) (hlog : LogOk db.log lo hi)
    (hsp : Spaced T db.log) (hshort : NoShort db.log) {evt : KvEvent} {x : Version}
    {pre post : List Version} (hch : ch evt.key = pre ++ x :: post) (hrev : x.rev = evt.rev)
    (hT : x.rev.isdel = true → T) (prevKv : Bool) :
    watchEvent E db prevKv evt =
      .ok ⟨evt.etype, some (x.item.elim (Kv.toProto { key := evt.key, rev := evt.rev }) Kv.toProto),
        if prevKv then (current post).map Kv.toProto else none⟩ := by
  have hx : x ∈ ch evt.key := by
    rw [hch]
    simp
  have hlook := fun withPrev => h.getRev_event hlog hsp hshort hch hT withPrev
  rw [hrev] at hlook
  have hprev : ((if prevKv then (current post).getD {} else {}) : Kv).shownIfAny =
      if prevKv then (current post).map Kv.toProto else none := by
    cases prevKv with
    | false =>
        simp only [Bool.false_eq_true, if_false]
        rfl
    | true =>
        refine h.shownIfAny_current hlog (k := evt.key) (fun v hv => ?_)
        rw [hch]
        exact List.mem_append_right _ (List.mem_cons_of_mem _ hv)
  have hitem := hlog.item_isSome (h.mem_versions hx)
  have hshown := @DbKv.Rep.shownIfAny_current E True db ch lo hi h hlog evt.key [x]
    (by simpa using hx)
  rw [watchEvent, ← hprev]
  rw [hrev] at hitem
  cases hdel : evt.rev.isdel with
  | true =>
      have hnone : x.item = none := by
        rw [hdel] at hitem
        simpa using hitem
      obtain ⟨w, hw, -, cur, hxw⟩ := write_of_mem_versions (h.mem_versions hx)
      have hupper : 0 < evt.rev.upper := by
        rw [UInt64.lt_iff_toNat_lt, UInt64.toNat_zero, ← hrev, hxw, Write.version, hlog.upper w hw]
        exact hlog.pos w hw
      have hkv : Kv.shownIfAny { key := evt.key, rev := evt.rev } =
          some (Kv.toProto { key := evt.key, rev := evt.rev }) := if_pos hupper
      rw [if_pos rfl, hkv, hnone]
      cases prevKv with
      | false => rfl
      | true =>
          simp only [if_true, hlook true]
          rfl
  | false =>
      obtain ⟨e, he⟩ := Option.isSome_iff_exists.mp (hitem.mpr hdel)
      rw [if_neg (by simp), hlook]
      rw [current_cons, he] at hshown
      simp only [he, hshown]
      rfl

/-- The message for an event of the log. -/
theorem DbKv.Rep.watchEvent_depicts (h : db.Rep E True (versions db.log))
    (hlog : LogOk db.log lo hi) (hsp : Spaced True db.log) (hshort : NoShort db.log)
    {evt : KvEvent} (hevt : evt ∈ db.events) :
    ∃ m, watchEvent E db true evt = .ok m ∧ Depicts db.log evt m := by
  obtain ⟨x, hx, hrev⟩ := h.version_of_event hevt
  obtain ⟨pre, post, hsplit⟩ := List.append_of_mem hx
  obtain ⟨before, w, after, hdb, hkey, hxw, hpost⟩ := split_of_versions hsplit
  refine ⟨_, h.watchEvent_eq hlog hsp hshort hsplit hrev (fun _ => trivial) true,
    before, w, after, hdb, hkey, ?_, fun w' hw' hk' hkr => ?_, rfl, ?_, ?_⟩
  · rw [← hrev, hxw]
    rfl
  · -- another write of the key under the same word would break the order of the versions
    have hdesc := hlog.desc evt.key
    obtain ⟨mid, hmid, hafter⟩ := versions_append (before ++ [w]) after evt.key
    have hbefore := versions_append_self before w
    rw [hkey] at hbefore
    have hword : ∀ cur, (w'.version cur).rev.word.toNat = x.rev.word.toNat := by
      intro cur
      rw [hrev, ← hkr]
      rfl
    rw [hdb, List.append_cons, hmid, hbefore, ← hxw] at hdesc
    obtain ⟨-, htail, hlt⟩ := List.pairwise_append.mp hdesc
    rcases List.mem_append.mp hw' with hw' | hw'
    · obtain ⟨pre', hpre', hmem⟩ := versions_append [] before evt.key
      obtain ⟨cur, hcur⟩ := hmem w' hw' hk'
      rw [List.nil_append] at hpre'
      have hlt := List.rel_of_pairwise_cons htail
        (show w'.version cur ∈ versions before evt.key by rw [hpre']; simp [hcur])
      rw [hword] at hlt
      exact lt_irrefl _ hlt
    · obtain ⟨cur, hcur⟩ := hafter w' hw' hk'
      have hlt := hlt _ hcur x List.mem_cons_self
      rw [hword] at hlt
      exact lt_irrefl _ hlt
  · rw [contents, foldl_snapshotStep, Write.shown, hxw]
    have hkr : evt.rev = w.kr := by
      rw [← hrev, hxw]
      rfl
    simp only [Write.version, hkr, ← hkey]
    cases entryAfter (current (versions before w.key)) w <;> rfl
  · rw [contents, foldl_snapshotStep, ← hpost]
    rfl

end Message

section Scan

variable {E : Env} {S : Prop} {db : DbKv} {ch : Bytes → List Version} {req : WatchCreateRequest}
  {R : KvEvent → WatchEvent → Prop}

/-- A scan goes through the events from a revision on. -/
theorem DbKv.Rep.scan_eq (h : db.Rep E S ch) {since : Nat} (hsince : since < 2 ^ 52) :
    db.scan (UInt64.ofNat since) = .ok (db.eventsFrom since) := by
  have hnat : (UInt64.ofNat since).toNat = since := by
    rw [UInt64.toNat_ofNat', Nat.mod_eq_of_lt (by omega)]
  rw [DbKv.scan_eq h.evtOk (by rwa [hnat]), hnat]

/-- The loop sends a message for each event that is wanted. -/
theorem watchLoop_eq {rev : Nat} {evts : List KvEvent}
    (hevts : ∀ evt ∈ evts, ∃ m, watchEvent E db req.prevKv evt = .ok m ∧ R evt m) :
    ∃ ms : List WatchEvent, watchLoop E db req rev evts = (ms.map (.event rev), none) ∧
      List.Forall₂ R (evts.filter req.wants) ms := by
  induction evts with
  | nil => exact ⟨[], rfl, .nil⟩
  | cons evt evts ih =>
      obtain ⟨ms, hloop, hms⟩ := ih (fun e he => hevts e (List.mem_cons_of_mem _ he))
      cases hwant : req.wants evt with
      | false =>
          refine ⟨ms, ?_, ?_⟩
          · rw [watchLoop, hwant]
            exact hloop
          · rw [List.filter_cons_of_neg (by simp [hwant])]
            exact hms
      | true =>
          obtain ⟨m, hm, hR⟩ := hevts evt List.mem_cons_self
          refine ⟨m :: ms, ?_, ?_⟩
          · rw [watchLoop, if_pos hwant, hm, hloop]
            rfl
          · rw [List.filter_cons_of_pos hwant]
            exact .cons hR hms

/-- What a scan that sends these events sends. -/
def scanMessages (E : Env) (rev : Nat) (ms : List WatchEvent) : List WatchMessage :=
  if ms = [] then [] else ms.map (.event rev) ++ [.sync (responseHeader E rev)]

theorem watchScan_eq {s : Store} (h : s.tables.kv.Rep E S ch)
    {since : Nat} (hevts : ∀ evt ∈ s.tables.kv.eventsFrom since, ∃ m,
      watchEvent E s.tables.kv req.prevKv evt = .ok m ∧ R evt m)
    (hpos : since ≠ 0) (hsince : since < 2 ^ 52) :
    ∃ ms, watchScan E s req since = ⟨s.dbMeta.rev, scanMessages E s.dbMeta.rev ms, none⟩ ∧
      List.Forall₂ R ((s.tables.kv.eventsFrom since).filter req.wants) ms := by
  obtain ⟨ms, hloop, hms⟩ := @watchLoop_eq E s.tables.kv req R s.dbMeta.rev
    (s.tables.kv.eventsFrom since) hevts
  refine ⟨ms, ?_, hms⟩
  rw [watchScan, if_neg hpos, h.scan_eq hsince]
  simp only [hloop]
  cases ms with
  | nil => rfl
  | cons m ms => rfl

end Scan

/-- The commands of a run whose events can all be told from the tables. -/
def Cmd.EventsReadable (cmd : Cmd) : Prop :=
  cmd.KeepsHistory ∧ cmd.PutsMeet PutRequest.LongEnough ∧ cmd.NoRewrite

instance (cmd : Cmd) : Decidable cmd.EventsReadable := by
  unfold Cmd.EventsReadable
  infer_instance

/-- In a run without compaction, without transactions that are too long or put a key they
have deleted, and whose puts make no short records and send no value when they keep the
present one, a scan shows for every event the write it records and what was there before. -/
theorem watchScan_depicts {E : Env} {b : Batch}
    (h : Reached E (fun _ cmd => cmd.EventsReadable) b)
    (hmulti : E.flags.txnMultiWriteEnabled = false) (hrev : b.newRev < 2 ^ 52)
    {req : WatchCreateRequest} (hprev : req.prevKv = true) {since : Nat} (hpos : since ≠ 0)
    (hsince : since < 2 ^ 52) :
    ∃ ms, watchScan E b.store req since =
        ⟨b.store.dbMeta.rev, scanMessages E b.store.dbMeta.rev ms, none⟩ ∧
      List.Forall₂ (Depicts b.store.tables.kv.log)
        ((b.store.tables.kv.eventsFrom since).filter req.wants) ms := by
  obtain ⟨hrep, hlog⟩ := h.history (fun _ _ hq => hq.1) hrev
  have hsp := h.spaced (T := True) hmulti (fun _ _ hq => hq.1.1) (fun _ _ _ hq => hq.2.2) hrev
  have hshort := h.noShort (fun _ _ hq => hq.2.1)
  refine watchScan_eq hrep (fun evt hevt => ?_) hpos hsince
  rw [hprev]
  exact hrep.watchEvent_depicts hlog hsp hshort (List.mem_of_mem_filter hevt)

theorem watchScan_depicts_overwrite :
    ∃ s ∈ storeAfter [[.put { key := [97], value := [1] }], [.put { key := [97], value := [2] }]],
      ∃ ms, watchScan .plain s { key := [97], prevKv := true } 3 =
          ⟨s.dbMeta.rev, scanMessages .plain s.dbMeta.rev ms, none⟩ ∧
        List.Forall₂ (Depicts s.tables.kv.log)
          ((s.tables.kv.eventsFrom 3).filter
            (WatchCreateRequest.wants { key := [97], prevKv := true })) ms := by
  refine exists_mem_imp (D := fun s => s.dbMeta.rev < 2 ^ 52) (by decide +kernel)
    (fun s hs hrev => ?_)
  exact watchScan_depicts (reached_of_storeAfter (by decide +kernel) hs) rfl hrev rfl (by decide)
    (by decide)

/-- The lookup for the deletion of `a` finds the put that follows it in the same
transaction, and below that a tombstone.  The message does not have what `a` held. -/
theorem watchScan_loses_prevKv :
    ∃ s ∈ storeAfter [[.put { key := [97], value := [1] }],
        [.txn { success := [.deleteRange { key := [97] }, .put { key := [97], value := [2] }] }]],
      s.dbMeta.rev = 3 ∧
      ((s.tables.kv.log.filter (fun w => w.rev < 3)).foldl snapshotStep (fun _ => none)
        [97]).isSome = true ∧
      ∃ rest, (watchScan .plain s { key := [97], prevKv := true } 3).sent =
        .event 3 ⟨.delete, some (Kv.toProto { key := [97], rev := revAt 3 0 true }), none⟩ ::
          rest :=
  ⟨_, Option.get_mem (by decide +kernel), by decide +kernel, by decide +kernel,
    List.head?_eq_some_iff.mp (by decide +kernel)⟩

end Turbokube
