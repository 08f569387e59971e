import Turbokube.Machine.PastReads
import Turbokube.Watch.Intervals

/-!
# Lists and watches

A client that follows a range lists it once, watches it from the revision after the one of the
list, and applies what the events show to its copy.  Whenever the watch has scanned, the copy
is the list at the revision the watch has come to.  Commits, alerts and the steps of the watch
come in any order, and a compaction may take what the watch has scanned.
-/

namespace Turbokube

open Encoding Lmdb DbKv

/-- A list by its keys. -/
def cacheOf (kvs : List KeyValue) : Table Bytes KeyValue :=
  kvs.foldl (fun t kv => t.put kv.key kv) .empty

/-- What the key of an event holds after it. -/
def WatchEvent.value (m : WatchEvent) : Option KeyValue :=
  match m.type with
  | .put => m.kv
  | .delete => none

/-- The copy of a client that is told of an event. -/
def see (t : Table Bytes KeyValue) (m : WatchEvent) : Table Bytes KeyValue :=
  match m.kv, m.type with
  | none, _ => t
  | some kv, .put => t.put kv.key kv
  | some kv, .delete => t.del kv.key

/-- The list of the keys of a watch. -/
def WatchCreateRequest.listAt (req : WatchCreateRequest) (r : Int64) : RangeRequest :=
  { key := req.key, rangeEnd := req.rangeEnd, revision := r }

/-- The copy has what the selected keys held at a revision. -/
def Mirrors (req : WatchCreateRequest) (log : List Write) (n : Nat) (t : Table Bytes KeyValue) :
    Prop :=
  ∀ k, t.get k = if req.selects k then (snapshotAt log n k).map Kv.toProto else none

/-- The message shows the version of the event. -/
def Tells (log : List Write) (evt : KvEvent) (m : WatchEvent) : Prop :=
  (∃ kv ∈ m.kv, kv.key = evt.key) ∧
    ∃ x ∈ versions log evt.key, x.rev = evt.rev ∧ m.value = x.item.map Kv.toProto

section Copy

theorem get_cacheOf {kvs : List KeyValue} (h : kvs.Pairwise (fun a b => a.key < b.key)) (k : Bytes)
    (kv : KeyValue) : (cacheOf kvs).get k = some kv ↔ kv ∈ kvs ∧ kv.key = k := by
  induction kvs using List.reverseRecOn with
  | nil => simp [cacheOf]
  | append_singleton kvs a ih =>
      obtain ⟨hkvs, -, hlast⟩ := List.pairwise_append.mp h
      have hput : cacheOf (kvs ++ [a]) = (cacheOf kvs).put a.key a := by
        rw [cacheOf, List.foldl_append]
        rfl
      rw [hput, Table.get_put, List.mem_append, List.mem_singleton]
      split
      · rename_i hk
        constructor
        · intro heq
          obtain rfl := Option.some.inj heq
          exact ⟨.inr rfl, hk.symm⟩
        · rintro ⟨hmem | rfl, hkey⟩
          · exact absurd (hkey.trans hk) (hlast kv hmem a List.mem_cons_self).ne
          · rfl
      · rename_i hk
        rw [ih hkvs]
        constructor
        · exact fun hkv => ⟨.inl hkv.1, hkv.2⟩
        · rintro ⟨hmem | rfl, hkey⟩
          · exact ⟨hmem, hkey⟩
          · exact absurd hkey.symm hk

theorem get_see {m : WatchEvent} {kv : KeyValue} (hkv : kv ∈ m.kv) (t : Table Bytes KeyValue)
    (k : Bytes) : (see t m).get k = if k = kv.key then m.value else t.get k := by
  obtain ⟨type, _, prev⟩ := m
  obtain rfl := hkv
  cases type with
  | put =>
      show (t.put kv.key kv).get k = if k = kv.key then some kv else t.get k
      by_cases hk : k = kv.key <;> simp [Table.get_put, hk]
  | delete =>
      show (t.del kv.key).get k = if k = kv.key then none else t.get k
      by_cases hk : k = kv.key <;> simp [Table.get_del, hk]

/-- After a series of events a key holds what the last event about it shows. -/
theorem get_foldl_see {log : List Write} {es : List KvEvent} {ms : List WatchEvent}
    (h : List.Forall₂ (Tells log) es ms)
    (hsorted : es.Pairwise (fun a b => a.rev.word.toNat ≤ b.rev.word.toNat))
    (t : Table Bytes KeyValue) (k : Bytes) :
    ((∀ e ∈ es, e.key ≠ k) ∧ (ms.foldl see t).get k = t.get k) ∨
      ∃ e ∈ es, e.key = k ∧ (∀ e' ∈ es, e'.key = k → e'.rev.word.toNat ≤ e.rev.word.toNat) ∧
        ∃ x ∈ versions log k, x.rev = e.rev ∧
          (ms.foldl see t).get k = x.item.map Kv.toProto := by
  induction h generalizing t with
  | nil => exact .inl ⟨List.forall_mem_nil _, rfl⟩
  | @cons e m es ms htells _ ih =>
      obtain ⟨hle, hrest⟩ := List.pairwise_cons.mp hsorted
      obtain ⟨⟨kv, hkv, hkey⟩, x, hx, hrev, hvalue⟩ := htells
      have hsee := get_see hkv t k
      rw [hkey] at hsee
      rw [List.foldl_cons]
      rcases ih hrest (see t m) with ⟨hnone, hget⟩ | ⟨e₂, he₂, hkey₂, hlast, hshown⟩
      · rw [hget, hsee]
        by_cases hk : e.key = k
        · right
          subst hk
          refine ⟨e, List.mem_cons_self, rfl, fun e' he' hkey' => ?_, x, hx, hrev, ?_⟩
          · rcases List.mem_cons.mp he' with rfl | he'
            · exact le_rfl
            · exact absurd hkey' (hnone e' he')
          · rw [if_pos rfl]
            exact hvalue
        · left
          rw [if_neg (Ne.symm hk)]
          exact ⟨List.forall_mem_cons.mpr ⟨hk, hnone⟩, rfl⟩
      · right
        refine ⟨e₂, List.mem_cons_of_mem _ he₂, hkey₂, fun e' he' hkey' => ?_, hshown⟩
        rcases List.mem_cons.mp he' with rfl | he'
        · exact hle e₂ he₂
        · exact hlast e' he' hkey'

end Copy

section Scan

variable {E : Env} {db : DbKv} {ch : Bytes → List Version} {lo hi n R : Nat}
  {req : WatchCreateRequest}

theorem DbKv.Rep.watchEvent_tells (h : db.Rep E True ch) (hlog : LogOk db.log lo hi)
    (hsp : Spaced False db.log) (hshort : NoShort db.log) {evt : KvEvent} {x : Version}
    (hx : x ∈ ch evt.key) (hrev : x.rev = evt.rev) (prevKv : Bool) :
    ∃ m, watchEvent E db prevKv evt = .ok m ∧ Tells db.log evt m := by
  obtain ⟨m, hm, htype, kv, hkv, hkey, -⟩ := h.watchEvent_shows hlog hsp hshort hx hrev prevKv
  have hmem := h.mem_versions hx
  have hitem := hlog.item_isSome hmem
  rw [hrev] at hitem
  refine ⟨m, hm, ⟨kv, hkv, hkey⟩, x, hmem, hrev, ?_⟩
  rw [WatchEvent.value, htype, KvEvent.etype]
  cases hdel : evt.rev.isdel with
  | true =>
      have hnone : x.item = none := by
        rw [hdel] at hitem
        simpa using hitem
      rw [hnone]
      rfl
  | false =>
      obtain ⟨e, he⟩ := Option.isSome_iff_exists.mp (hitem.mpr hdel)
      obtain ⟨pre, post, hsplit⟩ := List.append_of_mem hx
      have heq := h.watchEvent_eq hlog hsp hshort hsplit hrev
        (fun hfalse => by rw [hrev, hdel] at hfalse; cases hfalse) prevKv
      rw [hm] at heq
      obtain rfl := Except.ok.inj heq
      rw [he]
      rfl

/-- From the newest version on a key holds what it holds now. -/
theorem LogOk.snapshotAt_of_le {log : List Write} (h : LogOk log lo hi) {k : Bytes}
    (hle : ∀ v ∈ versions log k, v.rev.upper.toNat ≤ n) :
    snapshotAt log n k = current (versions log k) := by
  rw [snapshotAt_eq h.upper h.order]
  revert hle
  cases versions log k with
  | nil => exact fun _ => rfl
  | cons v vs =>
      intro hle
      have := hle v List.mem_cons_self
      rw [List.dropWhile_cons_of_neg (by simpa using this)]

/-- A scan brings the copy from the revision before it to the revision of the store. -/
theorem Mirrors.scan {t : Table Bytes KeyValue} (h : Mirrors req db.log n t)
    (hrep : db.Rep E True ch) (hlog : LogOk db.log ((R + 1) * 4096) ((R + 1) * 4096))
    (hrec : Recorded db (n + 1)) (hfilters : req.filters = []) {ms : List WatchEvent}
    (hms : List.Forall₂ (Tells db.log) ((db.eventsFrom (n + 1)).filter req.wants) ms) :
    Mirrors req db.log R (ms.foldl see t) := by
  intro k
  have hwants : ∀ evt, req.wants evt = req.selects evt.key := by
    intro evt
    rw [WatchCreateRequest.wants, WatchCreateRequest.filtered, hfilters]
    simp
  have hnow := hlog.snapshotAt_of_le (k := k) (fun v hv => hlog.upper_le le_rfl le_rfl hv)
  -- the versions above `n` have been scanned
  have hscanned : ∀ v ∈ versions db.log k, req.selects k = true → n < v.rev.upper.toNat →
      ∃ evt ∈ (db.eventsFrom (n + 1)).filter req.wants, evt.key = k ∧ evt.rev = v.rev := by
    intro v hv hsel hlt
    obtain ⟨w, hw, hwk, cur, rfl⟩ := write_of_mem_versions hv
    obtain ⟨evt, hevt, hkey, hrev⟩ := hrec w hw hlt
    rw [hwk] at hkey
    refine ⟨evt, List.mem_filter.mpr ⟨List.mem_filter.mpr ⟨hevt, ?_⟩, ?_⟩, hkey, hrev⟩
    · rw [hrev]
      exact decide_eq_true hlt
    · rw [hwants, hkey]
      exact hsel
  rcases get_foldl_see hms ((hrep.events_sorted.filter _).filter _) t k with
    ⟨hnone, hget⟩ | ⟨e, he, hkey, hlast, x, hx, hrev, hget⟩
  · rw [hget, h k]
    by_cases hsel : req.selects k = true
    · have hle : ∀ v ∈ versions db.log k, v.rev.upper.toNat ≤ n := by
        intro v hv
        by_contra hlt
        obtain ⟨evt, hevt, hkey, -⟩ := hscanned v hv hsel (by omega)
        exact hnone evt hevt hkey
      rw [hnow, hlog.snapshotAt_of_le hle]
    · rw [if_neg hsel, if_neg hsel]
  · obtain ⟨hfrom, hwant⟩ := List.mem_filter.mp he
    have hsel : req.selects k = true := by
      rw [← hkey, ← hwants]
      exact hwant
    have hge : n + 1 ≤ e.rev.upper.toNat := of_decide_eq_true (List.mem_filter.mp hfrom).2
    rw [hget, if_pos hsel, hnow]
    -- no version is newer than that of the last event
    have hdesc := hlog.desc k
    revert hx hdesc hscanned
    cases versions db.log k with
    | nil => exact fun _ hx => by cases hx
    | cons y ys =>
        intro hscanned hx hdesc
        rcases List.mem_cons.mp hx with rfl | hx
        · rfl
        · have hlt := (List.pairwise_cons.mp hdesc).1 x hx
          rw [hrev] at hlt
          have hupper : n < y.rev.upper.toNat := by
            rw [Keyrev.upper_toNat] at hge ⊢
            omega
          obtain ⟨evt, hevt, hkey', hrev'⟩ := hscanned y List.mem_cons_self hsel hupper
          have hle := hlast evt hevt hkey'
          rw [hrev'] at hle
          omega

end Scan

/-- What a watch keeps for the client that began with `c`. -/
structure Caches (c : Table Bytes KeyValue) (s : Store) (w : Watch) : Prop where
  since_le : w.req.since ≤ w.next
  next_le : w.next ≤ s.dbMeta.rev + 1
  mark_le : w.phase ≠ .done → s.dbMeta.revMin.toNat ≤ w.next
  mirrors : Mirrors w.req s.tables.kv.log (w.next - 1) (w.events.foldl see c)

namespace Caches

variable {E : Env} {c : Table Bytes KeyValue} {s : Store} {w w' : Watch}

theorem move (h : Caches c s w) (hreq : w'.req = w.req) (hnext : w'.next = w.next)
    (hevents : w'.events = w.events) (hdone : w'.phase ≠ .done → w.phase ≠ .done) :
    Caches c s w' := by
  refine ⟨?_, ?_, fun hphase => ?_, ?_⟩
  · rw [hreq, hnext]
    exact h.since_le
  · rw [hnext]
    exact h.next_le
  · rw [hnext]
    exact h.mark_le (hdone hphase)
  · rw [hreq, hnext, hevents]
    exact h.mirrors

theorem step (h : Caches c s w) (hmulti : E.flags.txnMultiWriteEnabled = false)
    (hreach : Reached E (fun b cmd => cmd.KeepsRevisions b) (.start s))
    (hlt : s.dbMeta.rev + 1 < 2 ^ 52) (hfilters : w.req.filters = []) (hpos : 0 < w.req.since) :
    Caches c s (w.step E s) := by
  rcases w.step_cases E s with ⟨hrev, hevents, hcase⟩ | ⟨⟨-, hdone⟩, -, hnext, hevents⟩
  · rcases hcase with ⟨hphase, hbelow, -⟩ | ⟨hdone, hnext⟩
    · -- what the watch is asked for is not compacted
      have hmark := h.mark_le (by simp [hphase])
      simp only [Watch.next, hphase] at hmark
      omega
    · exact h.move w.step_req hnext hevents hdone
  · have hrev : (Batch.start s).newRev < 2 ^ 52 := (Nat.lt_succ_self _).trans hlt
    have hsince := h.since_le
    have hle := h.next_le
    have hmark := h.mark_le hdone
    have hkept : s.tables.kv.KeptFrom E True w.next ((s.dbMeta.rev + 1) * 4096) :=
      (hreach.keptFrom (fun _ _ hq => hq) hrev).mono_cut hmark
    obtain ⟨ch, hrep, hlog, hversion⟩ := hkept.version_of_event
    have hsp := hreach.spaced (T := False) hmulti (fun _ _ hq => hq.1) False.elim hrev
    have hshort := hreach.noShort (fun _ _ hq => hq.2.2.1)
    have hmarked := hreach.recorded_mark (fun _ _ hq => ⟨hq.1, hq.2.2.2⟩) hrev
    have htells : ∀ evt ∈ s.tables.kv.eventsFrom w.next, ∃ m,
        watchEvent E s.tables.kv w.req.prevKv evt = .ok m ∧ Tells s.tables.kv.log evt m := by
      intro evt hevt
      obtain ⟨x, hx, hxrev⟩ := hversion evt hevt
      exact hrep.watchEvent_tells hlog hsp hshort hx hxrev w.req.prevKv
    obtain ⟨ms, hscan, hms⟩ := watchScan_eq hrep htells (show w.next ≠ 0 by omega) (by omega)
    rw [hscan, Delivers.filterMap_scanMessages] at hevents
    have hsucc : w.next - 1 + 1 = w.next := by omega
    refine ⟨?_, hnext.le, fun _ => ?_, ?_⟩
    · rw [w.step_req, hnext]
      omega
    · rw [hnext]
      omega
    · rw [w.step_req, hnext, hevents, List.foldl_append]
      refine h.mirrors.scan hrep hlog (hmarked.mono (by rw [hsucc]; exact hmark)) hfilters ?_
      rw [hsucc]
      exact hms

end Caches

section Run

variable {E : Env} {find : WatchCreateRequest → Bytes → Bool} {Q : Batch → Cmd → Prop}
  {c : Table Bytes KeyValue} {req : WatchCreateRequest} {σ₀ σ : Watching}

theorem Leads.update {s : Store} {ents : List Entry} {u : Updated}
    (hQ : AllMeet E Q ents (.start s)) (h : update E s ents = .ok u) :
    Leads E Q (.start s) (.start u.store) := by
  unfold Turbokube.update at h
  split at h
  · cases h
  · rename_i b' rs happly
    split at h
    · cases h
    · rename_i ent _
      obtain rfl := Except.ok.inj h
      have hleads : Leads E Q (.start s) b' := applyEntries_rec (I := Leads E Q (.start s))
        (fun hb hq hent => hb.entry hq hent) .refl hQ happly
      have hcommit := hleads.commit ent.index
      rw [(synced_applyEntries (synced_start s) happly).stored] at hcommit
      exact hcommit

theorem Caches.commit {s : Store} {w : Watch} {ents : List Entry} {u : Updated}
    (h : Caches c s w) (hpos : 0 < w.req.since)
    (hreach : Reached E (fun b cmd => cmd.KeepsRevisions b) (.start s))
    (hmeet : AllMeet E (fun b cmd => cmd.KeepsRevisions b ∧ cmd.Spares w) ents (.start s))
    (hu : Turbokube.update E s ents = .ok u) : Caches c u.store w := by
  have hle := rev_le_of_update hu
  have hsince := h.since_le
  have hnext := h.next_le
  obtain ⟨new, hlog, hnew⟩ :=
    (Leads.update (AllMeet.imp (fun _ _ hq => hq.1) hmeet) hu).log_append hreach
  refine ⟨hsince, by omega, fun hphase => ?_, fun k => ?_⟩
  · refine (Leads.update hmeet hu).revMin_rec (I := fun m => m.toNat ≤ w.next)
      (fun _ revision _ hq => ?_) (h.mark_le hphase)
    rcases hq.2 with hdone | hzero | hspared
    · exact absurd hdone hphase
    · omega
    · exact hspared
  · rw [h.mirrors k, show u.store.tables.kv.log = s.tables.kv.log ++ new from hlog,
      snapshotAt_append (fun wr hwr => ?_)]
    have : s.dbMeta.rev < wr.rev := hnew wr hwr
    omega

theorem WatchRun.caches (hmulti : E.flags.txnMultiWriteEnabled = false)
    (hfilters : req.filters = []) (hpos : 0 < req.since)
    (hopen : Opened E (fun b cmd => cmd.KeepsRevisions b) req σ₀)
    (hc : Caches c σ₀.store { req := req })
    (h : WatchRun E find (fun w b cmd => cmd.KeepsRevisions b ∧ cmd.Spares w) σ₀ σ)
    (hlt : σ.store.dbMeta.rev + 1 < 2 ^ 52) :
    Reached E (fun b cmd => cmd.KeepsRevisions b) (.start σ.store) ∧
      Caches c σ.store σ.watch := by
  induction h with
  | refl =>
      rw [hopen.watch]
      exact ⟨hopen.reached, hc⟩
  | @act σ σ' a hrun hmeet hact ih =>
      have hreq := hrun.req_eq hopen
      rcases Watching.act_cases hact with
        ⟨ents, u, rfl, -, hu, rfl⟩ | ⟨keys, r, -, rfl⟩ | rfl | rfl
      · have hle := rev_le_of_update hu
        have hrev : u.store.dbMeta.rev + 1 < 2 ^ 52 := hlt
        obtain ⟨hreach, hcaches⟩ := ih (by omega)
        exact ⟨hreach.update (AllMeet.imp (fun _ _ hq => hq.1) hmeet) hu,
          hcaches.commit (by rw [hreq]; exact hpos) hreach hmeet hu⟩
      · obtain ⟨hreach, hcaches⟩ := ih hlt
        obtain ⟨alerts, halert⟩ := σ.watch.alert_eq find keys r
        refine ⟨hreach, ?_⟩
        rw [halert]
        exact hcaches.move rfl rfl rfl (fun hphase => hphase)
      · obtain ⟨hreach, hcaches⟩ := ih hlt
        exact ⟨hreach, hcaches.step hmulti hreach hlt (by rw [hreq]; exact hfilters)
          (by rw [hreq]; exact hpos)⟩
      · obtain ⟨hreach, hcaches⟩ := ih hlt
        refine ⟨hreach, ?_⟩
        rcases σ.watch.cancel_eq with hcancel | ⟨hidle, hcancel⟩
        · rw [hcancel]
          exact hcaches
        · rw [hcancel]
          exact hcaches.move rfl (by simp only [Watch.next, hidle]) rfl
            (fun hphase => absurd rfl hphase)

end Run

section Lists

variable {E : Env} {s : Store} {req : WatchCreateRequest}

/-- A scan selects the keys a range covers, unless the range is empty or open. -/
theorem WatchCreateRequest.selects_iff_inRange
    (hrange : req.rangeEnd = [] ∨ req.key < req.rangeEnd) (k : Bytes) :
    req.selects k = true ↔ InRange req.key req.rangeEnd k := by
  rw [selects_iff, InRange]
  rcases hrange with hnil | hlt
  · simp [hnil, List.not_lt_nil]
  · have hfull : DbKv.isFullScan req.key req.rangeEnd = false := by
      rw [Bool.eq_false_iff, ne_eq, DbKv.isFullScan, Bool.and_eq_true]
      simp only [decide_eq_true_eq]
      rintro ⟨hkey, hend⟩
      exact absurd (hkey.trans hend.symm) hlt.ne
    have hne : req.rangeEnd ≠ [] := by
      intro hnil
      rw [hnil] at hlt
      exact List.not_lt_nil _ hlt
    rw [if_neg hne, hfull, le_iff_lt_or_eq]
    simp only [Bool.false_eq_true, or_false]
    constructor
    · rintro (rfl | hk)
      · exact ⟨.inr rfl, hlt⟩
      · exact ⟨.inl hk.1, hk.2⟩
    · rintro ⟨hk | rfl, hend⟩
      · exact .inr ⟨hk, hend⟩
      · exact .inl rfl

/-- A range lists what the watch of the same keys has to keep. -/
theorem Reached.range_mirrors (h : Reached E (fun b cmd => cmd.KeepsRevisions b) (.start s))
    (hrev : s.dbMeta.rev < 2 ^ 52) (hkey : ValidKey req.key)
    (hrange : req.rangeEnd = [] ∨ req.key < req.rangeEnd) {r : Int64} {n : Nat}
    (hr : r = 0 ∧ n = s.dbMeta.rev ∨
      r.toInt = n ∧ 0 < n ∧ s.dbMeta.revMin.toNat ≤ n ∧ n ≤ s.dbMeta.rev) :
    ∃ res, query E s (.kvRange (req.listAt r)) = ⟨1, .kvRange res⟩ ∧
      res.header = responseHeader E s.dbMeta.rev ∧
      Mirrors req s.tables.kv.log n (cacheOf res.kvs) := by
  have hkept : s.tables.kv.KeptFrom E True s.dbMeta.revMin.toNat ((s.dbMeta.rev + 1) * 4096) :=
    h.keptFrom (fun _ _ hq => hq) hrev
  obtain ⟨-, -, hlog, -⟩ := id hkept
  obtain ⟨havail, hat, hn⟩ : (req.listAt r).Available (.start s) ∧
      (r.toUInt64 = 0 ∨ s.dbMeta.revMin.toNat ≤ r.toUInt64.toNat) ∧
      ∀ k, seenAt s.tables.kv.log r.toUInt64 k = snapshotAt s.tables.kv.log n k := by
    rcases hr with ⟨rfl, rfl⟩ | ⟨hr, hpos, hmin, hle⟩
    · refine ⟨.inl (Int64.le_refl 0), .inl rfl, fun k => ?_⟩
      rw [seenAt, show (0 : Int64).toUInt64 = 0 from rfl, versionsAt_zero]
      exact (hlog.snapshotAt_of_le (fun v hv => hlog.upper_le le_rfl le_rfl hv)).symm
    · have hnat := toNat_of_toInt hr hpos
      refine ⟨RangeRequest.available_of_le hr hrev hmin hle, .inr (hmin.trans hnat.ge),
        fun k => ?_⟩
      have hseen := seenAt_eq_snapshotAt hlog (r := r.toUInt64)
        (by rw [UInt64.lt_iff_toNat_lt, hnat]; exact hpos) k
      rw [hnat] at hseen
      exact hseen
  obtain ⟨more, hok, -⟩ := h.range_eq (fun _ _ hq => hq) hrev hkey havail
  refine ⟨_, query_of_range hok, rfl, fun k => ?_⟩
  obtain ⟨hsorted, hmem⟩ := hkept.entriesAt_spec hat req.key req.rangeEnd
  have hkvs : ∀ es : List Kv,
      (rangeAnswer E (Batch.start s).newRev (req.listAt r) es more).kvs = es.map Kv.toProto := by
    intro es
    have hshown : Kv.toProto ∘ Kv.shown false = Kv.toProto := rfl
    simp [rangeAnswer, listing, rangeArgs, passesMod, passesCreated, WatchCreateRequest.listAt,
      show (0 : Int64).toUInt64 = 0 from rfl, hshown]
  rw [hkvs]
  apply Option.ext
  intro kv
  rw [get_cacheOf (List.pairwise_map.mpr hsorted)]
  constructor
  · rintro ⟨hkv, rfl⟩
    obtain ⟨e, he, rfl⟩ := List.mem_map.mp hkv
    obtain ⟨hin, hseen⟩ := (hmem e).mp he
    have hsel := (WatchCreateRequest.selects_iff_inRange hrange e.key).mpr hin
    show (if req.selects e.key then (snapshotAt s.tables.kv.log n e.key).map Kv.toProto
      else none) = some e.toProto
    rw [if_pos hsel, ← hn, hseen]
    rfl
  · intro hsome
    by_cases hsel : req.selects k = true
    · rw [if_pos hsel, ← hn] at hsome
      obtain ⟨e, hseen, rfl⟩ := Option.map_eq_some_iff.mp hsome
      obtain ⟨v, hv, hitem⟩ := Option.bind_eq_some_iff.mp hseen
      obtain rfl := (item_of_mem_versions
        ((List.dropWhile_sublist _).mem (List.mem_of_head? hv)) hitem).2
      exact ⟨List.mem_map_of_mem
        ((hmem e).mpr ⟨(WatchCreateRequest.selects_iff_inRange hrange e.key).mp hsel, hseen⟩), rfl⟩
    · rw [if_neg hsel] at hsome
      cases hsome

end Lists

/-- A client that lists a range and then watches it from the next revision has, once the watch has
scanned, the list at the revision of the watch, unless that revision is compacted by now. -/
theorem watch_keeps_list {E : Env} {find : WatchCreateRequest → Bytes → Bool}
    {req : WatchCreateRequest} {σ₀ σ : Watching} {res : RangeResponse}
    (hmulti : E.flags.txnMultiWriteEnabled = false) (hkey : ValidKey req.key)
    (hrange : req.rangeEnd = [] ∨ req.key < req.rangeEnd) (hfilters : req.filters = [])
    (hopen : Opened E (fun b cmd => cmd.KeepsRevisions b) req σ₀)
    (hlist : query E σ₀.store (.kvRange (req.listAt 0)) = ⟨1, .kvRange res⟩)
    (hstart : req.startRevision = res.header.revision + 1)
    (h : WatchRun E find (fun w b cmd => cmd.KeepsRevisions b ∧ cmd.Spares w) σ₀ σ)
    (hscanned : σ.watch.phase ≠ .created ∧ σ.watch.phase ≠ .scan)
    (hlt : σ.store.dbMeta.rev + 1 < 2 ^ 52) :
    query E σ.store (.kvRange (req.listAt (UInt64.ofNat σ.watch.rev).toInt64)) =
        { data := .text Err.grpcCompacted.error } ∨
      ∃ res', query E σ.store (.kvRange (req.listAt (UInt64.ofNat σ.watch.rev).toInt64)) =
          ⟨1, .kvRange res'⟩ ∧
        σ.watch.events.foldl see (cacheOf res.kvs) = cacheOf res'.kvs := by
  have hle := h.rev_le
  obtain ⟨res₀, hok, hheader, hmirrors⟩ := hopen.reached.range_mirrors (by omega) hkey hrange
    (r := 0) (.inl ⟨rfl, rfl⟩)
  obtain rfl : res₀ = res := by
    rw [hok] at hlist
    cases hlist
    rfl
  have hone : 1 ≤ σ₀.store.dbMeta.rev :=
    hopen.reached.inv (I := fun _ n _ => 1 ≤ n) le_rfl (fun hle _ heff => hle.trans heff.newRev_le)
  have hsince : req.since = σ₀.store.dbMeta.rev + 1 := by
    rw [WatchCreateRequest.since, hstart, hheader]
    show ((UInt64.ofNat σ₀.store.dbMeta.rev).toInt64.toUInt64 + 1).toNat = _
    rw [UInt64.toUInt64_toInt64, UInt64.toNat_add, UInt64.toNat_ofNat', UInt64.toNat_one]
    omega
  have hmin : σ₀.store.dbMeta.revMin.toNat ≤ σ₀.store.dbMeta.rev :=
    hopen.reached.revMin_le (fun _ _ hq => hq) (show σ₀.store.dbMeta.rev < 2 ^ 52 by omega)
  obtain ⟨hreach, hcaches⟩ := h.caches hmulti hfilters (by omega) hopen
    ⟨le_rfl, hsince.le, fun _ => (hmin.trans (Nat.le_succ _)).trans hsince.ge, by
      show Mirrors req _ (req.since - 1) _
      rw [hsince]
      exact hmirrors⟩ hlt
  -- the watch has scanned, so it has come to a revision of its own
  have hnext : σ.watch.next = σ.watch.rev + 1 := by
    rw [Watch.next]
    split
    · rename_i hphase
      exact absurd hphase hscanned.1
    · rename_i hphase
      exact absurd hphase hscanned.2
    · rfl
  obtain ⟨hsince', hnext', -, hkept⟩ := hcaches
  rw [hnext, h.req_eq hopen] at hsince' hkept
  rw [hnext] at hnext'
  have hr : (UInt64.ofNat σ.watch.rev).toInt64.toInt = σ.watch.rev := by
    have hof : (UInt64.ofNat σ.watch.rev).toNat = σ.watch.rev := by
      rw [UInt64.toNat_ofNat', Nat.mod_eq_of_lt (by omega)]
    rw [toInt_toInt64_of_lt (by omega), hof]
  have hmin' : σ.store.dbMeta.revMin.toNat ≤ σ.store.dbMeta.rev :=
    hreach.revMin_le (fun _ _ hq => hq) (show σ.store.dbMeta.rev < 2 ^ 52 by omega)
  by_cases hmark : σ.store.dbMeta.revMin.toNat ≤ σ.watch.rev
  · right
    obtain ⟨res', hok', -, hmirrors'⟩ := hreach.range_mirrors (by omega) hkey hrange
      (.inr ⟨hr, by omega, hmark, by omega⟩)
    exact ⟨res', hok', Table.ext_get (fun k => (hkept k).trans (hmirrors' k).symm)⟩
  · exact .inl (query_compacted hr (by omega) (by omega) hmark)

section Concrete

/-- A watch of a client that has listed `a`. -/
def listedA : Option Watching :=
  (storeAfter [[.put { key := [97], value := [1] }]]).map (fun s =>
    { store := s, watch := { req := { key := [97], rangeEnd := [99], startRevision := 3 } } })

/-- While the range is watched `a` is put again, `b` is put and `a` is deleted, and there is a
compaction up to the put of `b`. -/
def whileWatched : List WatchAction :=
  settle ++ commitTell (.put { key := [97], value := [2] }) ++ [.step, .step] ++
    commitTell (.put { key := [98], value := [3] }) ++
    commitTell (.deleteRange { key := [97] }) ++ [.step, .step] ++ commitTell (.compact 4)

end Concrete

theorem watch_keeps_list_after_delete :
    ∃ σ₀ ∈ listedA, ∃ σ ∈ Watching.acts .plain WatchCreateRequest.selects whileWatched σ₀,
      ∃ res res' : RangeResponse, res.kvs.length = 1 ∧ σ.watch.events.length = 3 ∧
        query .plain σ₀.store (.kvRange { key := [97], rangeEnd := [99] }) = ⟨1, .kvRange res⟩ ∧
        query .plain σ.store (.kvRange { key := [97], rangeEnd := [99], revision := 5 }) =
          ⟨1, .kvRange res'⟩ ∧
        σ.watch.events.foldl see (cacheOf res.kvs) = cacheOf res'.kvs := by
  obtain ⟨σ₀, hσ₀, σ, hσ, hmeet, hlen, res, hres, hkvs, hstart, hphase, hrev, hrevW, hquery⟩ :
      ∃ σ₀ ∈ listedA, ∃ σ ∈ Watching.acts .plain WatchCreateRequest.selects whileWatched σ₀,
        ActsMeet .plain WatchCreateRequest.selects
          (fun w b cmd => cmd.KeepsRevisions b ∧ cmd.Spares w) whileWatched σ₀ ∧
        σ.watch.events.length = 3 ∧
        ∃ res ∈ ((Batch.start σ₀.store).range .plain { key := [97], rangeEnd := [99] }).toOption,
          res.kvs.length = 1 ∧ res.header.revision = 2 ∧
          (σ.watch.phase ≠ .created ∧ σ.watch.phase ≠ .scan) ∧ σ.store.dbMeta.rev = 5 ∧
          σ.watch.rev = 5 ∧
          query .plain σ.store (.kvRange { key := [97], rangeEnd := [99], revision := 5 }) ≠
            { data := .text Err.grpcCompacted.error } := by
    decide +kernel
  have hlist := query_of_range (eq_ok_of_mem_toOption hres)
  obtain ⟨s, hs, rfl⟩ := Option.map_eq_some_iff.mp hσ₀
  have hopen : Opened .plain (fun b cmd => cmd.KeepsRevisions b)
      { key := [97], rangeEnd := [99], startRevision := 3 }
      { store := s, watch := { req := { key := [97], rangeEnd := [99], startRevision := 3 } } } :=
    ⟨reached_of_storeAfter (by decide +kernel) hs, rfl, fun _ _ h => by cases h⟩
  have hkeeps := watch_keeps_list rfl (by decide) (.inr (by decide)) rfl hopen hlist
    (by rw [hstart]; rfl) (WatchRun.refl.of_acts hmeet hσ) hphase (by rw [hrev]; decide)
  rw [hrevW] at hkeeps
  obtain ⟨res', hlist', hcache⟩ := hkeeps.resolve_left hquery
  exact ⟨_, hσ₀, σ, hσ, res, res', hkvs, hlen, hlist, hlist', hcache⟩

end Turbokube
