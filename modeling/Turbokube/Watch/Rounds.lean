import Turbokube.Store.RevScan
import Turbokube.Watch.Selection

/-!
# What a round of notices sends

The two builds of `rangeWatchRecv` go through the same events in the same way.  What they send
differs in the tag of an event only, and they fail for different reasons.  `RoundOk` says of some
notices that neither build fails, in terms of the cache, the tables and the notices.
-/

namespace Turbokube

open Encoding Lmdb

namespace DbKv

/-- The operation a scan for a revision stops at. -/
def opFrom (db : DbKv) (rev : UInt64) : Option (Bytes × List Bytes) :=
  (db.evt.seek (putUint64 (rev <<< 12))).head?

/-- There is an operation at the revision or after it, and its events can be read. -/
def OpReads (db : DbKv) (rev : UInt64) : Prop :=
  ∃ op ∈ db.opFrom rev, ∀ v ∈ op.2, (Build.zigEvtFromBytes op.1 v).isOk = true

def opEvents (db : DbKv) (rev : UInt64) : List KvEvent :=
  match db.opFrom rev with
  | none => []
  | some op => op.2.filterMap (fun v => (Build.zigEvtFromBytes op.1 v).toOption)

end DbKv

namespace StorageKv

/-- The content of an event, and the error of its lookup. -/
def eventRead (E : Env) (db : DbKv) (withPrev : Bool) (evt : KvEvent) : WatchEvent × Option Err :=
  if evt.rev.isdel then
    if withPrev then
      (evt.message { key := evt.key, rev := evt.rev } (db.getRev E evt.key evt.rev.upper true).2.1,
        (db.getRev E evt.key evt.rev.upper true).2.2)
    else (evt.message { key := evt.key, rev := evt.rev } {}, none)
  else
    (evt.message (db.getRev E evt.key evt.rev.upper withPrev).1
        (db.getRev E evt.key evt.rev.upper withPrev).2.1,
      (db.getRev E evt.key evt.rev.upper withPrev).2.2)

/-- The events of some notices, each with the notice it is matched with. -/
def matched (db : DbKv) (notices : List Notice) : List (Notice × KvEvent) :=
  (indexed 0 0 (notices.flatMap (fun notice => db.opEvents notice.val))).filterMap
    (fun p => notices[p.1]?.map (fun notice => (notice, p.2)))

variable {E : Env} {wire : Wire} {db : DbKv} {w : WatchMaps}

section Content

variable {withPrev : Bool} {evt : KvEvent} {err : Option Err}

theorem zigContent_eq_ok {r : WatchEvent × Option Err} :
    Build.zigContent E db withPrev evt err = .ok r ↔
      (eventRead E db withPrev evt).2 = none ∧ r = ((eventRead E db withPrev evt).1, err) := by
  rw [Build.zigContent, eventRead]
  by_cases hdel : evt.rev.isdel = true
  · rw [if_pos hdel, if_pos hdel]
    cases withPrev with
    | true =>
        obtain ⟨current, previous, e⟩ := db.getRev E evt.key evt.rev.upper true
        cases e with
        | none => simp [eq_comm]
        | some e => simp
    | false => simp [eq_comm]
  · rw [if_neg hdel, if_neg hdel]
    obtain ⟨current, previous, e⟩ := db.getRev E evt.key evt.rev.upper withPrev
    cases e with
    | none => simp [eq_comm]
    | some e => simp

theorem goContent_eq (h : (eventRead E db withPrev evt).2 = none) :
    Build.goContent E db withPrev evt none = .ok ((eventRead E db withPrev evt).1, none) := by
  rw [eventRead] at h ⊢
  rw [Build.goContent]
  by_cases hdel : evt.rev.isdel = true
  · rw [if_pos hdel] at h ⊢
    rw [if_pos hdel]
    cases withPrev with
    | true =>
        revert h
        obtain ⟨current, previous, e⟩ := db.getRev E evt.key evt.rev.upper true
        intro h
        simp only [if_true] at h ⊢
        rw [h]
    | false => rfl
  · rw [if_neg hdel] at h ⊢
    rw [if_neg hdel]
    revert h
    obtain ⟨current, previous, e⟩ := db.getRev E evt.key evt.rev.upper withPrev
    intro h
    simp only at h ⊢
    rw [h]

theorem goContent_fst {m : WatchEvent} {err' : Option Err}
    (h : Build.goContent E db withPrev evt err = .ok (m, err')) :
    m = (eventRead E db withPrev evt).1 := by
  rw [Build.goContent] at h
  rw [eventRead]
  by_cases hdel : evt.rev.isdel = true
  · rw [if_pos hdel] at h ⊢
    cases withPrev with
    | true =>
        revert h
        obtain ⟨current, previous, e⟩ := db.getRev E evt.key evt.rev.upper true
        simp only [if_true]
        intro h
        split at h
        · cases h
        · rename_i hr
          obtain ⟨-, rfl, -⟩ := hr
          exact (Prod.mk.inj (Except.ok.inj h)).1.symm
    | false => exact (Prod.mk.inj (Except.ok.inj h)).1.symm
  · rw [if_neg hdel] at h ⊢
    revert h
    obtain ⟨current, previous, e⟩ := db.getRev E evt.key evt.rev.upper withPrev
    intro h
    cases e with
    | some e => cases h
    | none => exact (Prod.mk.inj (Except.ok.inj h)).1.symm

end Content

section Scan

variable {revs : List UInt64}

theorem zigEvtFromBytes_ok {k v : Bytes} {evt : KvEvent} (h : Build.zigEvtFromBytes k v = .ok evt) :
    DbKv.evtFromBytes k v = .ok evt ∧ evt.rev = ⟨uint64 k⟩ := by
  rw [Build.zigEvtFromBytes] at h
  rw [DbKv.evtFromBytes]
  cases hrev : Keyrev.fromKey k v with
  | error e =>
      simp only [hrev] at h
      cases h
  | ok rev =>
      simp only [hrev] at h ⊢
      cases htrim : trimChecksum k v with
      | error e =>
          simp only [htrim] at h
          cases h
      | ok body =>
          simp only [htrim] at h ⊢
          cases hnum : uvarint body with
          | error e =>
              simp only [hnum] at h
              cases h
          | ok r =>
              simp only [hnum] at h
              rw [skipUvarint, hnum]
              refine ⟨h, ?_⟩
              rw [← Except.ok.inj h]
              rw [Keyrev.fromKey] at hrev
              split at hrev
              · cases hrev
              · split at hrev
                · cases hrev
                · exact (Except.ok.inj hrev).symm

theorem mapM_zig_eq {k : Bytes} {dups : List Bytes}
    (h : ∀ v ∈ dups, (Build.zigEvtFromBytes k v).isOk = true) :
    dups.mapM (Build.zigEvtFromBytes k) =
        .ok (dups.filterMap (fun v => (Build.zigEvtFromBytes k v).toOption)) ∧
      dups.mapM (DbKv.evtFromBytes k) =
        .ok (dups.filterMap (fun v => (Build.zigEvtFromBytes k v).toOption)) := by
  induction dups with
  | nil => exact ⟨rfl, rfl⟩
  | cons v dups ih =>
      obtain ⟨hv, hrest⟩ := List.forall_mem_cons.mp h
      obtain ⟨hzig, hgo⟩ := ih hrest
      cases hevt : Build.zigEvtFromBytes k v with
      | error e =>
          rw [hevt] at hv
          cases hv
      | ok evt =>
          have hcons : (v :: dups).filterMap (fun v => (Build.zigEvtFromBytes k v).toOption) =
              evt :: dups.filterMap (fun v => (Build.zigEvtFromBytes k v).toOption) :=
            List.filterMap_cons_some (by rw [hevt]; rfl)
          rw [hcons, List.mapM_cons, List.mapM_cons, hevt, hzig,
            (zigEvtFromBytes_ok hevt).1, hgo]
          exact ⟨rfl, rfl⟩

theorem isOk_of_mapM {k : Bytes} {dups : List Bytes} {evts : List KvEvent}
    (h : dups.mapM (Build.zigEvtFromBytes k) = .ok evts) :
    ∀ v ∈ dups, (Build.zigEvtFromBytes k v).isOk = true := by
  induction dups generalizing evts with
  | nil => exact fun v hv => absurd hv List.not_mem_nil
  | cons v dups ih =>
      rw [List.mapM_cons] at h
      cases hevt : Build.zigEvtFromBytes k v with
      | error e =>
          rw [hevt] at h
          cases h
      | ok evt =>
          rw [hevt] at h
          cases hrest : dups.mapM (Build.zigEvtFromBytes k) with
          | error e =>
              rw [hrest] at h
              cases h
          | ok rest =>
              refine List.forall_mem_cons.mpr ⟨?_, ih hrest⟩
              rw [hevt]
              rfl

/-- Both builds read the same events. -/
theorem revScans_eq (h : ∀ rev ∈ revs, db.OpReads rev) :
    revScan db revs = .ok (revs.flatMap db.opEvents) ∧
      Build.zigRevScan db revs = .ok (revs.flatMap db.opEvents) := by
  induction revs with
  | nil => exact ⟨rfl, rfl⟩
  | cons rev revs ih =>
      obtain ⟨⟨op, hop, hreads⟩, hrest⟩ := List.forall_mem_cons.mp h
      obtain ⟨hgo, hzig⟩ := ih hrest
      obtain ⟨hzigOp, hgoOp⟩ := mapM_zig_eq hreads
      have hevents : db.opEvents rev =
          op.2.filterMap (fun v => (Build.zigEvtFromBytes op.1 v).toOption) := by
        rw [DbKv.opEvents, Option.mem_def.mp hop]
      rw [Option.mem_def, DbKv.opFrom, List.head?_eq_some_iff] at hop
      obtain ⟨rest, hseek⟩ := hop
      rw [List.flatMap_cons, hevents]
      constructor
      · rw [revScan, hseek]
        simp only [hgoOp, hgo]
      · rw [Build.zigRevScan, hseek]
        simp only [hzigOp, hzig]

theorem opReads_of_revScans {evts evts' : List KvEvent} (hgo : revScan db revs = .ok evts)
    (hzig : Build.zigRevScan db revs = .ok evts') : ∀ rev ∈ revs, db.OpReads rev := by
  induction revs generalizing evts evts' with
  | nil => exact fun rev hrev => absurd hrev List.not_mem_nil
  | cons rev revs ih =>
      rw [revScan] at hgo
      rw [Build.zigRevScan] at hzig
      cases hseek : db.evt.seek (putUint64 (rev <<< 12)) with
      | nil =>
          simp only [hseek] at hgo
          cases hgo
      | cons op rest =>
          obtain ⟨k, dups⟩ := op
          simp only [hseek] at hgo hzig
          cases hgoOp : dups.mapM (DbKv.evtFromBytes k) with
          | error e =>
              simp only [hgoOp] at hgo
              cases hgo
          | ok es =>
              simp only [hgoOp] at hgo
              cases hzigOp : dups.mapM (Build.zigEvtFromBytes k) with
              | error e =>
                  simp only [hzigOp] at hzig
                  cases hzig
              | ok es' =>
                  simp only [hzigOp] at hzig
                  cases hgoRest : revScan db revs with
                  | error e =>
                      simp only [hgoRest] at hgo
                      cases hgo
                  | ok rs =>
                      cases hzigRest : Build.zigRevScan db revs with
                      | error e =>
                          simp only [hzigRest] at hzig
                          cases hzig
                      | ok rs' =>
                          refine List.forall_mem_cons.mpr
                            ⟨⟨(k, dups), ?_, isOk_of_mapM hzigOp⟩, ih hgoRest hzigRest⟩
                          rw [DbKv.opFrom, hseek]
                          rfl

end Scan

section Index

/-- The events of one operation have one revision. -/
theorem upper_of_mem_opEvents (db : DbKv) (rev : UInt64) :
    ∃ r, ∀ evt ∈ db.opEvents rev, evt.rev.upper = r := by
  rw [DbKv.opEvents]
  cases db.opFrom rev with
  | none => exact ⟨0, fun evt hevt => absurd hevt List.not_mem_nil⟩
  | some op =>
      refine ⟨(⟨uint64 op.1⟩ : Keyrev).upper, fun evt hevt => ?_⟩
      obtain ⟨v, -, hv⟩ := List.mem_filterMap.mp hevt
      cases hok : Build.zigEvtFromBytes op.1 v with
      | error e =>
          rw [hok] at hv
          cases hv
      | ok evt' =>
          rw [hok] at hv
          obtain rfl : evt' = evt := Option.some.inj hv
          rw [(zigEvtFromBytes_ok hok).2]

/-- The index moves on at most once for a group of events of one revision, and not at the first. -/
theorem indexed_lt {β : Type} {group : β → List KvEvent} {l : List β}
    (h : ∀ b ∈ l, ∃ r, ∀ evt ∈ group b, evt.rev.upper = r) (n : UInt64) (i : Nat) :
    ∀ p ∈ indexed n i (l.flatMap group), p.1 < i + l.length + (if 0 < n then 1 else 0) := by
  induction l generalizing n i with
  | nil => exact fun p hp => absurd hp List.not_mem_nil
  | cons b l ih =>
      obtain ⟨⟨r, hr⟩, hrest⟩ := List.forall_mem_cons.mp h
      rw [List.flatMap_cons, List.length_cons]
      cases hgroup : group b with
      | nil =>
          intro p hp
          have hlt := ih hrest n i p hp
          omega
      | cons evt evts =>
          rw [hgroup] at hr
          obtain ⟨hevt, hevts⟩ := List.forall_mem_cons.mp hr
          have hmove : (if n ≠ r ∧ 0 < n then i + 1 else i) ≤ i + (if 0 < n then 1 else 0) := by
            by_cases hn : 0 < n
            · rw [if_pos hn]
              split <;> omega
            · rw [if_neg hn, if_neg (fun hboth => hn hboth.2)]
              exact Nat.le_refl _
          rw [List.cons_append, indexed, hevt, indexed_append hevts]
          intro p hp
          rcases List.mem_cons.mp hp with rfl | hp
          · simp only
            omega
          · rcases List.mem_append.mp hp with hp | hp
            · obtain ⟨e, -, rfl⟩ := List.mem_map.mp hp
              simp only
              omega
            · have hlt := ih hrest r _ p hp
              have hone : (if 0 < r then 1 else 0) ≤ 1 := by split <;> omega
              omega

end Index

section Events

/-- The revision of the record of an event. -/
def tagOf (m : WatchEvent) : UInt64 := (m.kv.map (fun kv => kv.modRevision.toUInt64)).getD 0

/-- The content of an event for the watches of its notice. -/
def shown (E : Env) (db : DbKv) (w : WatchMaps) (p : Notice × KvEvent) : WatchEvent :=
  (eventRead E db (p.1.withPrev w) p.2).1

/-- The message for an event, if a watch gets it. -/
def batch (τ : WatchEvent → UInt64) (E : Env) (db : DbKv) (w : WatchMaps) (p : Notice × KvEvent) :
    List StreamMessage :=
  if (selected w p.2 p.1.ids).1 = [] ∧ (selected w p.2 p.1.ids).2 = [] then []
  else
    [.eventBatch (τ (shown E db w p)) (shown E db w p) (selected w p.2 p.1.ids).1
      (selected w p.2 p.1.ids).2]

/-- Neither build fails at the event. -/
structure EventOk (E : Env) (wire : Wire) (db : DbKv) (w : WatchMaps) (last : UInt64)
    (p : Notice × KvEvent) : Prop where
  read : (eventRead E db (p.1.withPrev w) p.2).2 = none
  kv : (shown E db w p).kv.isSome = true
  casts : ∀ id ∈ p.1.ids, w.casts p.2 id = true
  fits : ∀ msg ∈ batch (fun _ => last) E db w p, Build.zig.messageFits (wire.message msg) = true

variable {B : Build} {reqs : Requests} {last : UInt64} {p : Notice × KvEvent} {err : Option Err}

/-- What `recvEvent` has done when it returns. -/
theorem recvEvent_inv {prev : Nat} {r : List StreamMessage × Option Err}
    (h : recvEvent B E wire db w reqs last p.2 p.1 prev err = .ok r) :
    ∃ m err' revision ids, B.content E db (0 < prev) p.2 err = .ok (m, err') ∧
      B.tag last m = .ok revision ∧ selectIds B w reqs p.2 p.1.ids = .ok ids ∧
      (¬ (ids.1 = [] ∧ ids.2 = []) →
        B.messageFits (wire.message (.eventBatch revision m ids.1 ids.2)) = true) := by
  rw [recvEvent] at h
  cases hcontent : B.content E db (0 < prev) p.2 err with
  | error e =>
      simp only [hcontent] at h
      cases h
  | ok c =>
      obtain ⟨m, err'⟩ := c
      simp only [hcontent] at h
      cases htag : B.tag last m with
      | error e =>
          simp only [htag] at h
          cases h
      | ok revision =>
          simp only [htag] at h
          cases hids : selectIds B w reqs p.2 p.1.ids with
          | error e =>
              simp only [hids] at h
              cases h
          | ok ids =>
              refine ⟨m, err', revision, ids, rfl, htag, rfl, fun hne => ?_⟩
              simp only [hids, if_neg hne, sendMessage] at h
              by_cases hfits :
                  B.messageFits (wire.message (.eventBatch revision m ids.1 ids.2)) = true
              · exact hfits
              · simp only [hfits] at h
                cases h

theorem recvEvent_eq (hcontent : B.content E db (p.1.withPrev w) p.2 none =
      .ok (shown E db w p, none)) {τ : WatchEvent → UInt64}
    (htag : B.tag last (shown E db w p) = .ok (τ (shown E db w p)))
    (hids : selectIds B w reqs p.2 p.1.ids = .ok (selected w p.2 p.1.ids))
    (hfits : ∀ msg ∈ batch τ E db w p, B.messageFits (wire.message msg) = true) :
    recvEvent B E wire db w reqs last p.2 p.1 (p.1.ids.countP w.wantsPrev) none =
      .ok (batch τ E db w p, none) := by
  have hprev : (0 < p.1.ids.countP w.wantsPrev) = (p.1.withPrev w = true) := by
    rw [Notice.withPrev, decide_eq_true_eq]
  rw [recvEvent]
  simp only [hprev, Bool.decide_eq_true, hcontent, htag, hids]
  rw [batch] at hfits ⊢
  split
  · rfl
  · rename_i hne
    rw [if_neg hne] at hfits
    rw [sendMessage, if_pos (hfits _ List.mem_cons_self)]

end Events

section Round

variable {B : Build} {reqs : Requests} {notices : List Notice} {last : UInt64}
  {evts : List (Nat × KvEvent)}

/-- How many watches of each notice want the previous record. -/
def prevCounts (w : WatchMaps) (notices : List Notice) : List Nat :=
  notices.map (fun notice => notice.ids.countP w.wantsPrev)

theorem getElem?_prevCounts {i : Nat} {notice : Notice} (h : notices[i]? = some notice) :
    (prevCounts w notices)[i]? = some (notice.ids.countP w.wantsPrev) := by
  rw [prevCounts, List.getElem?_map, h]
  rfl

theorem recvEvents_eq {f : Notice × KvEvent → List StreamMessage}
    (hlt : ∀ p ∈ evts, p.1 < notices.length)
    (h : ∀ p ∈ evts.filterMap (fun p => notices[p.1]?.map (fun notice => (notice, p.2))),
      recvEvent B E wire db w reqs last p.2 p.1 (p.1.ids.countP w.wantsPrev) none =
        .ok (f p, none)) :
    recvEvents B E wire db w reqs notices (prevCounts w notices) last evts none =
      .ok ((evts.filterMap (fun p => notices[p.1]?.map (fun notice => (notice, p.2)))).flatMap
        f) := by
  induction evts with
  | nil => rfl
  | cons q evts ih =>
      obtain ⟨i, evt⟩ := q
      obtain ⟨hi, hrest⟩ := List.forall_mem_cons.mp hlt
      have hnotice : notices[i]? = some notices[i] := List.getElem?_eq_getElem hi
      have hcons : ((i, evt) :: evts).filterMap
          (fun p => notices[p.1]?.map (fun notice => (notice, p.2))) =
            (notices[i], evt) ::
              evts.filterMap (fun p => notices[p.1]?.map (fun notice => (notice, p.2))) :=
        List.filterMap_cons_some (by rw [hnotice]; rfl)
      rw [hcons] at h ⊢
      obtain ⟨hfirst, htail⟩ := List.forall_mem_cons.mp h
      simp only at hfirst
      rw [recvEvents, hnotice, getElem?_prevCounts hnotice]
      simp only [hfirst, ih hrest htail, List.flatMap_cons]

theorem recvEvents_inv {prev : List Nat} {err : Option Err} {msgs : List StreamMessage}
    (h : recvEvents B E wire db w reqs notices prev last evts err = .ok msgs) :
    ∀ p ∈ evts, ∃ notice n err' r, notices[p.1]? = some notice ∧ prev[p.1]? = some n ∧
      recvEvent B E wire db w reqs last p.2 notice n err' = .ok r := by
  induction evts generalizing err msgs with
  | nil => exact fun p hp => absurd hp List.not_mem_nil
  | cons q evts ih =>
      obtain ⟨i, evt⟩ := q
      rw [recvEvents] at h
      split at h
      · rename_i notice n hnotice hn
        cases hone : recvEvent B E wire db w reqs last evt notice n err with
        | error e =>
            simp only [hone] at h
            cases h
        | ok r =>
            simp only [hone] at h
            cases hrest : recvEvents B E wire db w reqs notices prev last evts r.2 with
            | error e =>
                simp only [hrest] at h
                cases h
            | ok rest =>
                exact List.forall_mem_cons.mpr ⟨⟨notice, n, err, r, hnotice, hn, hone⟩, ih hrest⟩
      · cases h

/-- The revision of the last notice. -/
def lastRev (notices : List Notice) : UInt64 := (notices.getLast?.map Notice.val).getD 0

/-- Neither build fails in the round. -/
structure RoundOk (E : Env) (wire : Wire) (db : DbKv) (w : WatchMaps) (notices : List Notice) :
    Prop where
  ne_nil : notices ≠ []
  cached : ∀ notice ∈ notices, ∀ id ∈ notice.ids, (w.request id).isSome = true
  ops : ∀ notice ∈ notices, db.OpReads notice.val
  events : ∀ p ∈ matched db notices, EventOk E wire db w (lastRev notices) p
  sync : notices.flatMap Notice.ids ≠ [] →
    Build.zig.messageFits
      (wire.message (.eventSync (lastRev notices) (notices.flatMap Notice.ids))) = true

/-- The messages of a round in which events are tagged by `τ`. -/
def roundMessages (τ : WatchEvent → UInt64) (order : Requests → Requests) (reqs : Requests)
    (E : Env) (db : DbKv) (w : WatchMaps) (notices : List Notice) : List StreamMessage :=
  (matched db notices).flatMap (batch τ E db w) ++
    (if notices.flatMap Notice.ids = [] then []
      else [.eventSync (lastRev notices) (notices.flatMap Notice.ids)]) ++
    notifies order reqs (lastRev notices)
      (((matched db notices).flatMap (batch τ E db w)).flatMap StreamMessage.sentTo)

theorem rangeWatchRecv_eq {τ : WatchEvent → UInt64} (hne : notices ≠ [])
    (hgather : gather B w notices [] = .ok (reqs, prevCounts w notices))
    (hscan : B.revScan db (notices.map Notice.val) =
      .ok (notices.flatMap (fun notice => db.opEvents notice.val)))
    (hevents : ∀ p ∈ matched db notices,
      recvEvent B E wire db w reqs (lastRev notices) p.2 p.1 (p.1.ids.countP w.wantsPrev) none =
        .ok (batch τ E db w p, none))
    (hsync : notices.flatMap Notice.ids ≠ [] → B.messageFits
      (wire.message (.eventSync (lastRev notices) (notices.flatMap Notice.ids))) = true)
    (order : Requests → Requests) :
    rangeWatchRecv B order E wire db w notices =
      .ok (roundMessages τ order reqs E db w notices) := by
  have hlast : notices.getLast? = some (notices.getLast hne) :=
    List.getLast?_eq_some_getLast hne
  have hval : (notices.getLast hne).val = lastRev notices := by
    rw [lastRev, hlast]
    rfl
  have hlt : ∀ p ∈ indexed 0 0 (notices.flatMap (fun notice => db.opEvents notice.val)),
      p.1 < notices.length := by
    intro p hp
    have hbound := indexed_lt (fun notice _ => upper_of_mem_opEvents db notice.val) 0 0 p hp
    simpa using hbound
  have hloop := recvEvents_eq hlt hevents
  have hend : (if notices.flatMap Notice.ids = [] then (.ok [] : Except Err (List StreamMessage))
      else sendMessage B wire (.eventSync (lastRev notices) (notices.flatMap Notice.ids))) =
      .ok (if notices.flatMap Notice.ids = [] then []
        else [.eventSync (lastRev notices) (notices.flatMap Notice.ids)]) := by
    split
    · rfl
    · rename_i hids
      rw [sendMessage, if_pos (hsync hids)]
  rw [rangeWatchRecv, hlast]
  simp only [hgather, hscan, hval, hloop, hend]
  rfl

/-- What `rangeWatchRecv` has done when it returns. -/
theorem rangeWatchRecv_inv {order : Requests → Requests} {msgs : List StreamMessage}
    (h : rangeWatchRecv B order E wire db w notices = .ok msgs) :
    notices ≠ [] ∧ ∃ reqs prev evts batches, gather B w notices [] = .ok (reqs, prev) ∧
      B.revScan db (notices.map Notice.val) = .ok evts ∧
      recvEvents B E wire db w reqs notices prev (lastRev notices) (indexed 0 0 evts) none =
        .ok batches ∧
      (notices.flatMap Notice.ids ≠ [] → B.messageFits
        (wire.message (.eventSync (lastRev notices) (notices.flatMap Notice.ids))) = true) := by
  rw [rangeWatchRecv] at h
  cases hlast : notices.getLast? with
  | none =>
      simp only [hlast] at h
      cases h
  | some notice =>
      have hval : notice.val = lastRev notices := by
        rw [lastRev, hlast]
        rfl
      have hne : notices ≠ [] := by
        rintro rfl
        cases hlast
      simp only [hlast, hval] at h
      cases hgather : gather B w notices [] with
      | error e =>
          simp only [hgather] at h
          cases h
      | ok g =>
          simp only [hgather] at h
          cases hscan : B.revScan db (notices.map Notice.val) with
          | error e =>
              simp only [hscan] at h
              cases h
          | ok evts =>
              simp only [hscan] at h
              cases hevents : recvEvents B E wire db w g.1 notices g.2 (lastRev notices)
                  (indexed 0 0 evts) none with
              | error e =>
                  simp only [hevents] at h
                  cases h
              | ok batches =>
                  refine ⟨hne, g.1, g.2, evts, batches, rfl, rfl, hevents, fun hids => ?_⟩
                  simp only [hevents, if_neg hids, sendMessage] at h
                  by_cases hfits : B.messageFits (wire.message
                      (.eventSync (lastRev notices) (notices.flatMap Notice.ids))) = true
                  · exact hfits
                  · simp only [hfits] at h
                    cases h

theorem gathered_nil (w : WatchMaps) : Gathered w [] := fun _ _ h => by cases h

/-- In a round in which neither build fails they send the same messages, with other tags. -/
theorem RoundOk.messages (h : RoundOk E wire db w notices) :
    ∃ reqs, (∀ order, rangeWatchRecv .go order E wire db w notices =
        .ok (roundMessages tagOf order reqs E db w notices)) ∧
      ∀ order, rangeWatchRecv .zig order E wire db w notices =
        .ok (roundMessages (fun _ => lastRev notices) order reqs E db w notices) := by
  obtain ⟨reqs, hgather, hreqs, -, hfound⟩ := gather_eq (gathered_nil w) h.cached
  obtain ⟨hgo, hzig⟩ := @revScans_eq db (notices.map Notice.val) (by simpa using h.ops)
  rw [List.flatMap_map] at hgo hzig
  have hlookup : ∀ p ∈ matched db notices, ∀ id ∈ p.1.ids, reqs.lookup id = w.request id := by
    intro p hp id hid
    obtain ⟨q, -, hq⟩ := List.mem_filterMap.mp hp
    obtain ⟨notice, hnotice, rfl⟩ := Option.map_eq_some_iff.mp hq
    exact hreqs.lookup_eq (hfound notice (List.mem_of_getElem? hnotice) id hid)
  refine ⟨reqs, fun order => ?_, fun order => ?_⟩
  · refine rangeWatchRecv_eq h.ne_nil (hgather .go) hgo (fun p hp => ?_) (fun _ => rfl) order
    refine recvEvent_eq (goContent_eq (h.events p hp).read) ?_
      (selectIds_eq (hlookup p hp) (fun id _ req hreq => go_wants_eq hreq)) (fun _ _ => rfl)
    obtain ⟨kv, hkv⟩ := Option.isSome_iff_exists.mp (h.events p hp).kv
    rw [tagOf, hkv]
    simp only [Build.go, Build.goTag, hkv]
    rfl
  · refine rangeWatchRecv_eq h.ne_nil (hgather .zig) hzig (fun p hp => ?_) h.sync order
    exact recvEvent_eq (zigContent_eq_ok.mpr ⟨(h.events p hp).read, rfl⟩) rfl
      (selectIds_eq (hlookup p hp) (fun id hid req hreq =>
        (zig_wants_eq_ok hreq).mpr ⟨(h.events p hp).casts id hid, rfl⟩)) (h.events p hp).fits

theorem roundOk_of_rangeWatchRecv {order order' : Requests → Requests}
    {msgs msgs' : List StreamMessage}
    (hgo : rangeWatchRecv .go order E wire db w notices = .ok msgs)
    (hzig : rangeWatchRecv .zig order' E wire db w notices = .ok msgs') :
    RoundOk E wire db w notices := by
  obtain ⟨hne, reqs, prev, evts, batches, hgather, hscan, hevents, hsync⟩ := rangeWatchRecv_inv hzig
  obtain ⟨-, reqs', prev', evts', batches', hgather', hscan', hevents', -⟩ := rangeWatchRecv_inv hgo
  have hcached := cached_of_gather (gathered_nil w) hgather
  obtain ⟨reqs₀, heq, hreqs, -, hfound⟩ := gather_eq (gathered_nil w) hcached
  rw [heq .zig] at hgather
  rw [heq .go] at hgather'
  obtain ⟨rfl, rfl⟩ := Prod.mk.inj (Except.ok.inj hgather)
  obtain ⟨rfl, rfl⟩ := Prod.mk.inj (Except.ok.inj hgather')
  have hreads := opReads_of_revScans hscan' hscan
  obtain ⟨hgoScan, hzigScan⟩ := revScans_eq hreads
  obtain rfl := Except.ok.inj (hscan.symm.trans hzigScan)
  obtain rfl := Except.ok.inj (hscan'.symm.trans hgoScan)
  rw [List.flatMap_map] at hevents hevents'
  refine ⟨hne, hcached, by simpa using hreads, fun p hp => ?_, hsync⟩
  obtain ⟨⟨i, evt⟩, hq, hp⟩ := List.mem_filterMap.mp hp
  obtain ⟨notice, hnotice, rfl⟩ := Option.map_eq_some_iff.mp hp
  have hlookup : ∀ id ∈ notice.ids, reqs₀.lookup id = w.request id := fun id hid =>
    hreqs.lookup_eq (hfound notice (List.mem_of_getElem? hnotice) id hid)
  have hprev : ((prevCounts w notices)[i]?) = some (notice.ids.countP w.wantsPrev) :=
    getElem?_prevCounts hnotice
  obtain ⟨n₁, c₁, err₁, r₁, hn₁, hc₁, hone₁⟩ := recvEvents_inv hevents (i, evt) hq
  obtain ⟨n₂, c₂, err₂, r₂, hn₂, hc₂, hone₂⟩ := recvEvents_inv hevents' (i, evt) hq
  obtain rfl := Option.some.inj (hn₁.symm.trans hnotice)
  obtain rfl := Option.some.inj (hn₂.symm.trans hnotice)
  obtain rfl := Option.some.inj (hc₁.symm.trans hprev)
  obtain rfl := Option.some.inj (hc₂.symm.trans hprev)
  obtain ⟨m, e, revision, ids, hcontent, htag, hids, hfits⟩ :=
    @recvEvent_inv _ _ _ _ _ _ _ (n₂, evt) _ _ _ hone₁
  obtain ⟨m', e', revision', ids', hcontent', htag', -, -⟩ :=
    @recvEvent_inv _ _ _ _ _ _ _ (n₂, evt) _ _ _ hone₂
  obtain ⟨hread, hm⟩ := zigContent_eq_ok.mp hcontent
  obtain ⟨rfl, -⟩ := Prod.mk.inj hm
  have hm' := goContent_fst hcontent'
  have hcasts : ∀ id ∈ n₂.ids, w.casts evt id = true := by
    intro id hid
    obtain ⟨req, hreq⟩ := Option.isSome_iff_exists.mp
      (hcached n₂ (List.mem_of_getElem? hnotice) id hid)
    obtain ⟨b, hb⟩ := wants_of_selectIds hlookup hids id hid req hreq
    exact ((zig_wants_eq_ok hreq).mp hb).1
  have hselect := selectIds_eq hlookup (fun id hid req hreq =>
    (zig_wants_eq_ok hreq).mpr ⟨hcasts id hid, rfl⟩)
  obtain rfl := Except.ok.inj (hids.symm.trans hselect)
  refine ⟨hread, ?_, hcasts, fun msg hmsg => ?_⟩
  · subst hm'
    cases hkv : (shown E db w (n₂, evt)).kv with
    | some kv => rfl
    | none =>
        have htag : Build.goTag (lastRev notices) (shown E db w (n₂, evt)) = .ok revision' := htag'
        rw [Build.goTag, hkv] at htag
        cases htag
  · obtain rfl : lastRev notices = revision := Except.ok.inj htag
    rw [batch] at hmsg
    split at hmsg
    · cases hmsg
    · rename_i hany
      rw [List.mem_singleton.mp hmsg]
      exact hfits hany

end Round

end StorageKv

end Turbokube
