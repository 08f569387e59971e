import Turbokube.Machine.StorageEffect
import Turbokube.Watch.Copies

/-!
# The two builds answer watches alike

The Go build tags an event with its own revision and puts the revision that was asked for in the
header of a response.  The Zig build tags it with the revision of the last notice and puts the tag
of the last event in the header.  Both are the same at the end of a round.  When a buffer is full
before that, the responses are the same only if the last event in it and the one it has no room for
are of the last revision, and then the watches after it must still get the event.

`BuildsAgree` is this for all watches, together with what keeps both builds from failing.

Both builds read one store with one codec here, though the Zig build has its own ports of the patch
package and of snappy.  A round only reads records, and of a codec that only uses that it restores
what it has written, which each build's own packages do.  So a store that the Zig build has written
itself reads the same.  It differs at most in the blocks of snappy, since the ports make the same
patches (`Patch.generate_eq_go`).
-/

namespace Turbokube

open Encoding Lmdb Family StorageKv ServiceGrpc

/-- What the service sends in a round that starts with empty buffers. -/
def answers (B : Build) (order : Requests → Requests) (E : Env) (wire : Wire) (room : Room)
    (db : DbKv) (w : WatchMaps) (notices : List Notice) : Except Err (List WatchResponse) :=
  match rangeWatchRecv B order E wire db w notices with
  | .error e => .error e
  | .ok msgs =>
      match shardRecvs B E wire room msgs (fun _ => []) with
      | .error e => .error e
      | .ok (_, resps) => .ok resps

/-- Neither build fails, and each watch gets the same responses from both. -/
def AnswerAlike (order order' : Requests → Requests) (E : Env) (wire : Wire) (room : Room)
    (db : DbKv) (w : WatchMaps) (notices : List Notice) : Prop :=
  ∃ resps resps', answers .go order E wire room db w notices = .ok resps ∧
    answers .zig order' E wire room db w notices = .ok resps' ∧
    ∀ id : Int64, resps.filter (fun r => r.watchId = id) = resps'.filter (fun r => r.watchId = id)

/-- The events of a watch fit into the buffers of the Zig build, and where they are cut both events
are of the last revision. -/
def Packs (wire : Wire) (room : Room) (id last : UInt64) (evts : List WatchEvent) : Prop :=
  (∀ e ∈ evts, Build.zig.responseFits (wire.event e) = true) ∧
    ∃ r ∈ fill (hasRoom wire room) [] evts,
      (∀ c ∈ r.1, lastTag tagOf c.1 = last ∧ tagOf c.2 = last ∧
        Build.zig.responseFits (wire.response (reply id last true c.1)) = true) ∧
      (r.2 ≠ [] → Build.zig.responseFits (wire.response (reply id last false r.2)) = true)

structure BuildsAgree (E : Env) (wire : Wire) (room : Room) (db : DbKv) (w : WatchMaps)
    (notices : List Notice) : Prop where
  round : RoundOk E wire db w notices
  packs : ∀ notice ∈ notices, ∀ id ∈ notice.ids,
    Packs wire room id (lastRev notices) (feed (roundCopies E db w notices) id)
  intact : Intact wire room (lastRev notices) (roundCopies E db w notices) (fun _ => []) []

variable {E : Env} {wire : Wire} {room : Room} {db : DbKv} {w : WatchMaps} {notices : List Notice}

section Watch

variable {id last : UInt64} {evts : List WatchEvent} {syncs told : Nat}

theorem lastReplies_eq (load : List WatchEvent) :
    lastReplies .go tagOf id last load = lastReplies .zig (fun _ => last) id last load := by
  rw [lastReplies, lastReplies]
  split
  · rfl
  · rename_i hne
    have hzig : Build.zig.header last (lastTag (fun _ => last) load) = last := lastTag_const hne
    rw [hzig]
    rfl

theorem cutReply_eq_iff {c : List WatchEvent × WatchEvent} (h : c.1 ≠ []) :
    cutReply .go tagOf id c = cutReply .zig (fun _ => last) id c ↔
      lastTag tagOf c.1 = last ∧ tagOf c.2 = last := by
  rw [zig_cutReply_eq h, cutReply, reply, reply]
  have hheader : Build.go.header (tagOf c.2) (lastTag tagOf c.1) = tagOf c.2 := rfl
  rw [hheader]
  constructor
  · intro heq
    obtain ⟨hhead, -, -, -, -, -, hfragment, -⟩ := WatchResponse.mk.inj heq
    have hrev := congrArg Int64.toUInt64 (ResponseHeader.mk.inj hhead).2.2
    rw [UInt64.toUInt64_toInt64, UInt64.toUInt64_toInt64] at hrev
    exact ⟨(of_decide_eq_true hfragment).trans hrev, hrev⟩
  · rintro ⟨hlast, hnext⟩
    rw [hlast, hnext]
    simp

/-- The responses of one watch. -/
theorem replies_agree_iff (hsyncs : syncs = 0 → evts = []) :
    (∃ out,
      (∃ buf, run (act .go E wire room id) (roundActs tagOf last evts syncs told) [] =
        .ok (buf, out)) ∧
      ∃ buf, run (act .zig E wire room id) (roundActs (fun _ => last) last evts syncs told) [] =
        .ok (buf, out)) ↔
      Packs wire room id last evts := by
  simp only [run_round_eq_ok hsyncs]
  constructor
  · rintro ⟨out, ⟨-, cuts, load, hfill, -, -, hgo⟩, hevts, cuts', load', hfill', hcuts, hload, hzig⟩
    obtain ⟨rfl, rfl⟩ := Prod.mk.inj (Option.some.inj (hfill.symm.trans hfill'))
    have hne := fill_ne_nil hfill
    rw [hgo, lastReplies_eq] at hzig
    have hmap := List.append_cancel_right (List.append_cancel_right hzig)
    refine ⟨hevts, (cuts, load), hfill, fun c hc => ?_, fun hl => ?_⟩
    · obtain ⟨hlast, hnext⟩ := (cutReply_eq_iff (hne c hc)).mp (List.map_inj_left.mp hmap c hc)
      have hfits := hcuts c hc
      rw [zig_cutReply_eq (hne c hc)] at hfits
      exact ⟨hlast, hnext, hfits⟩
    · have hheader : Build.zig.header last (lastTag (fun _ => last) load) = last := lastTag_const hl
      have hfits := hload (reply id last false load) (by
        rw [lastReplies, if_neg hl, hheader]
        exact List.mem_singleton_self _)
      exact hfits
  · rintro ⟨hevts, ⟨cuts, load⟩, hfill, hcuts, hload⟩
    have hne := fill_ne_nil hfill
    refine ⟨cuts.map (cutReply .go tagOf id) ++ lastReplies .go tagOf id last load ++
      progress E id last told, ⟨fun _ _ => rfl, cuts, load, hfill, fun _ _ => rfl, fun _ _ => rfl,
        rfl⟩, hevts, cuts, load, hfill, fun c hc => ?_, fun r hr => ?_, ?_⟩
    · rw [zig_cutReply_eq (hne c hc)]
      exact (hcuts c hc).2.2
    · rw [lastReplies] at hr
      split at hr
      · cases hr
      · rename_i hl
        have hheader : Build.zig.header last (lastTag (fun _ => last) load) = last :=
          lastTag_const hl
        rw [hheader] at hr
        rw [List.mem_singleton.mp hr]
        exact hload hl
    · rw [lastReplies_eq, List.map_inj_left.mpr (fun c hc =>
        (cutReply_eq_iff (hne c hc)).mpr ⟨(hcuts c hc).1, (hcuts c hc).2.1⟩)]

end Watch

section Acts

variable {id : UInt64} {τ : WatchEvent → UInt64} {order : Requests → Requests} {reqs : Requests}

theorem sentTo_batch (τ τ' : WatchEvent → UInt64) (p : Notice × KvEvent) :
    (batch τ E db w p).flatMap StreamMessage.sentTo =
      (batch τ' E db w p).flatMap StreamMessage.sentTo := by
  rw [batch, batch]
  split
  · rfl
  · rfl

/-- The watches that are sent an event. -/
def sentIn (E : Env) (db : DbKv) (w : WatchMaps) (notices : List Notice) : List UInt64 :=
  ((matched db notices).flatMap (batch tagOf E db w)).flatMap StreamMessage.sentTo

/-- How often a watch is told of the revision. -/
def toldIn (reqs : Requests) (sent : List UInt64) (id : UInt64) : Nat :=
  ((reqs.filter (fun e => e.1 ∉ sent ∧ e.2.progressNotify)).map Prod.fst).count id

theorem actsOf_notifies (horder : ∀ l, (order l).Perm l) (last : UInt64) (sent : List UInt64) :
    actsOf id ((notifies order reqs last sent).flatMap StreamMessage.acts) =
      List.replicate (toldIn reqs sent id) (.notify last) := by
  have hacts : (notifies order reqs last sent).flatMap StreamMessage.acts =
      (((order reqs).filter (fun e => e.1 ∉ sent ∧ e.2.progressNotify)).map Prod.fst).map
        (fun id => (id, .notify last)) := by
    rw [notifies, List.flatMap_map, List.map_map, ← List.flatMap_pure_eq_map]
    rfl
  rw [hacts, actsOf_map, toldIn, (((horder reqs).filter _).map _).count_eq]

theorem actsOf_sync (ids : List UInt64) (last : UInt64) :
    actsOf id ((if ids = [] then [] else [StreamMessage.eventSync last ids]).flatMap
      StreamMessage.acts) = List.replicate (ids.count id) (.sync last) := by
  split
  · rename_i hnil
    rw [hnil]
    rfl
  · rw [List.flatMap_singleton, StreamMessage.acts, actsOf_map]

theorem actsOf_sends :
    actsOf id ((roundCopies E db w notices).map (fun c => (c.id, .send c.evt (τ c.evt)))) =
      (feed (roundCopies E db w notices) id).map (fun e => Act.send e (τ e)) := by
  simp only [actsOf, feed, List.filter_map, List.map_map]
  rfl

theorem actsOf_end (horder : ∀ l, (order l).Perm l) (sent : List UInt64) :
    actsOf id ((endMessages order reqs notices sent).flatMap StreamMessage.acts) =
      List.replicate ((notices.flatMap Notice.ids).count id) (.sync (lastRev notices)) ++
        List.replicate (toldIn reqs sent id) (.notify (lastRev notices)) := by
  rw [endMessages, List.flatMap_append, actsOf_append, actsOf_sync, actsOf_notifies horder]

/-- What a round does to the buffer of one watch. -/
theorem actsOf_round (horder : ∀ l, (order l).Perm l)
    (hτ : ∀ m : WatchEvent, τ { m with prevKv := none } = τ m) :
    actsOf id ((roundMessages τ order reqs E db w notices).flatMap StreamMessage.acts) =
      roundActs τ (lastRev notices) (feed (roundCopies E db w notices) id)
        ((notices.flatMap Notice.ids).count id) (toldIn reqs (sentIn E db w notices) id) := by
  have hsent : ((matched db notices).flatMap (batch τ E db w)).flatMap StreamMessage.sentTo =
      sentIn E db w notices := by
    rw [sentIn, List.flatMap_assoc, List.flatMap_assoc]
    exact List.flatMap_congr (fun p _ => sentTo_batch τ tagOf p)
  rw [roundMessages_eq, hsent, List.flatMap_append, actsOf_append, roundCopies_acts hτ,
    actsOf_sends, actsOf_end horder, roundActs, List.append_assoc]

theorem feed_eq_nil (h : (notices.flatMap Notice.ids).count id = 0) :
    feed (roundCopies E db w notices) id = [] := by
  rw [feed, List.map_eq_nil_iff, List.filter_eq_nil_iff]
  intro c hc hid
  rw [← of_decide_eq_true hid] at h
  exact List.count_eq_zero.mp h (mem_roundCopies hc)

end Acts

section Answers

variable {B : Build} {order : Requests → Requests} {resps : List WatchResponse}

theorem answers_eq_ok :
    answers B order E wire room db w notices = .ok resps ↔
      ∃ msgs bufs, rangeWatchRecv B order E wire db w notices = .ok msgs ∧
        shardRecvs B E wire room msgs (fun _ => []) = .ok (bufs, resps) := by
  rw [answers]
  constructor
  · intro h
    cases hmsgs : rangeWatchRecv B order E wire db w notices with
    | error e =>
        simp only [hmsgs] at h
        cases h
    | ok msgs =>
        simp only [hmsgs] at h
        cases hrun : shardRecvs B E wire room msgs (fun _ => []) with
        | error e =>
            simp only [hrun] at h
            cases h
        | ok r =>
            simp only [hrun] at h
            obtain rfl := Except.ok.inj h
            exact ⟨msgs, r.1, rfl, hrun⟩
  · rintro ⟨msgs, bufs, hmsgs, hrun⟩
    simp only [hmsgs, hrun]

/-- The responses of one watch come from what is done to its buffer. -/
theorem run_watch {acts : List (UInt64 × Act)} {bufs bufs' : Buffers}
    (h : run (stepAll (act B E wire room)) acts bufs = .ok (bufs', resps)) (id : UInt64) :
    run (act B E wire room id) (actsOf id acts) (bufs id) =
      .ok (bufs' id, resps.filter (fun r => r.watchId.toUInt64 = id)) :=
  run_actsOf (fun _ _ _ _ _ hact => watchId_of_act hact) h id

theorem shardRecvs_go (msgs : List StreamMessage) (bufs : Buffers) :
    shardRecvs .go E wire room msgs bufs =
      run (stepAll (act .go E wire room)) (msgs.flatMap StreamMessage.acts) bufs :=
  shardRecvs_eq (fun _ _ => .inl rfl) bufs

theorem filter_watchId (resps : List WatchResponse) (id : Int64) :
    resps.filter (fun r => r.watchId = id) =
      resps.filter (fun r => r.watchId.toUInt64 = id.toUInt64) := by
  refine List.filter_congr (fun r _ => decide_eq_decide.mpr ⟨congrArg Int64.toUInt64, fun h => ?_⟩)
  rw [← r.watchId.toInt64_toUInt64, h, id.toInt64_toUInt64]

variable {order' : Requests → Requests} {reqs : Requests} {resps' : List WatchResponse}
  {bufs bufs' : Buffers}

/-- If the Zig build sends every watch what the Go build sends it, the copies were intact. -/
theorem intact_of_answers (horder : ∀ l, (order l).Perm l) (horder' : ∀ l, (order' l).Perm l)
    (hgo : shardRecvs .go E wire room (roundMessages tagOf order reqs E db w notices)
      (fun _ => []) = .ok (bufs, resps))
    (hzig : shardRecvs .zig E wire room
      (roundMessages (fun _ => lastRev notices) order' reqs E db w notices) (fun _ => []) =
        .ok (bufs', resps'))
    (hsame : ∀ id, delivered resps id = delivered resps' id) :
    Intact wire room (lastRev notices) (roundCopies E db w notices) (fun _ => []) [] := by
  rw [roundMessages_eq, shardRecvs_append] at hzig
  obtain ⟨bufs₁, out₁, out₂, hcopies, hend, rfl⟩ := andThen_eq_ok.mp hzig
  rw [shardRecvs_eq_copies (fun _ => rfl) (matched db notices) ((fun _ => []), [])] at hcopies
  obtain ⟨d, hrun, rfl⟩ := mapState_eq_ok.mp hcopies
  refine intact_of_run hrun (fun id hid => ?_)
  obtain ⟨c, hc, rfl⟩ := List.mem_map.mp hid
  have hnamed := List.count_pos_iff.mpr (mem_roundCopies hc)
  rw [shardRecvs_go] at hgo
  have hsent := run_watch hgo c.id
  rw [actsOf_round horder (fun _ => rfl)] at hsent
  rw [shardRecvs_eq (fun msg hmsg => .inr (sentTo_endMessages msg hmsg))] at hend
  have hrest := run_watch hend c.id
  rw [actsOf_end horder'] at hrest
  calc (delivered out₁ c.id).map some ++ (d.1 c.id).map Value.evt
      = (delivered out₁ c.id).map some ++ (delivered out₂ c.id).map some := by
        rw [← events_of_run_end hnamed hrest]
        rfl
    _ = (delivered resps c.id).map some := by
        rw [hsame, delivered_append, List.map_append]
    _ = (feed (roundCopies E db w notices) c.id).map some := by
        rw [← events_of_run_round hnamed hsent]
        rfl

end Answers

section Decide

/-- A property of the watches that some notices name.  The lists are searched, not all numbers. -/
def decidableNamed (p : UInt64 → Prop) [DecidablePred p] (notices : List Notice) :
    Decidable (∀ notice ∈ notices, ∀ id ∈ notice.ids, p id) :=
  decidable_of_iff (notices.all (fun notice => notice.ids.all (fun id => decide (p id))) = true)
    (by simp only [List.all_eq_true, decide_eq_true_eq])

instance (rev : UInt64) : Decidable (db.OpReads rev) :=
  inferInstanceAs (Decidable (∃ op ∈ db.opFrom rev,
    ∀ v ∈ op.2, (Build.zigEvtFromBytes op.1 v).isOk = true))

instance (last : UInt64) (p : Notice × KvEvent) : Decidable (EventOk E wire db w last p) :=
  decidable_of_iff ((eventRead E db (p.1.withPrev w) p.2).2 = none ∧
      (shown E db w p).kv.isSome = true ∧ p.1.ids.all (w.casts p.2) = true ∧
      ∀ msg ∈ batch (fun _ => last) E db w p, Build.zig.messageFits (wire.message msg) = true)
    ⟨fun h => ⟨h.1, h.2.1, List.all_eq_true.mp h.2.2.1, h.2.2.2⟩,
      fun h => ⟨h.read, h.kv, List.all_eq_true.mpr h.casts, h.fits⟩⟩

instance : Decidable (RoundOk E wire db w notices) :=
  have := decidableNamed (fun id => (w.request id).isSome = true) notices
  decidable_of_iff (notices ≠ [] ∧
      (∀ notice ∈ notices, ∀ id ∈ notice.ids, (w.request id).isSome = true) ∧
      (∀ notice ∈ notices, db.OpReads notice.val) ∧
      (∀ p ∈ matched db notices, EventOk E wire db w (lastRev notices) p) ∧
      (notices.flatMap Notice.ids ≠ [] → Build.zig.messageFits
        (wire.message (.eventSync (lastRev notices) (notices.flatMap Notice.ids))) = true))
    ⟨fun h => ⟨h.1, h.2.1, h.2.2.1, h.2.2.2.1, h.2.2.2.2⟩,
      fun h => ⟨h.ne_nil, h.cached, h.ops, h.events, h.sync⟩⟩

instance (id last : UInt64) (evts : List WatchEvent) : Decidable (Packs wire room id last evts) :=
  inferInstanceAs (Decidable ((∀ e ∈ evts, Build.zig.responseFits (wire.event e) = true) ∧
    ∃ r ∈ fill (hasRoom wire room) [] evts,
      (∀ c ∈ r.1, lastTag tagOf c.1 = last ∧ tagOf c.2 = last ∧
        Build.zig.responseFits (wire.response (reply id last true c.1)) = true) ∧
      (r.2 ≠ [] → Build.zig.responseFits (wire.response (reply id last false r.2)) = true)))

instance : Decidable (BuildsAgree E wire room db w notices) :=
  have := decidableNamed (fun id =>
    Packs wire room id (lastRev notices) (feed (roundCopies E db w notices) id)) notices
  decidable_of_iff (RoundOk E wire db w notices ∧
      (∀ notice ∈ notices, ∀ id ∈ notice.ids,
        Packs wire room id (lastRev notices) (feed (roundCopies E db w notices) id)) ∧
      Intact wire room (lastRev notices) (roundCopies E db w notices) (fun _ => []) [])
    ⟨fun h => ⟨h.1, h.2.1, h.2.2⟩, fun h => ⟨h.round, h.packs, h.intact⟩⟩

end Decide

/-- Events of 20 bytes, which do not decode when something was written over them. -/
def shortWire : Wire where
  message _ := 60
  event _ := 20
  response _ := 60
  torn evt written := if written = [] then some evt else none
  torn_nil _ := rfl

/-- A buffer of so many bytes. -/
def roomOf (capacity : Nat) : Room := fun sizes size => decide (sizes.sum + size ≤ capacity)

/-- Watches 7 and 8 are for the keys from `a` to `z`, and no other is in the cache. -/
def twoWatches : WatchMaps where
  cache id := if id = 7 ∨ id = 8 then .request { key := [97], rangeEnd := [122] } else .absent
  rev _ := 0

/-- The revision of each response and whether it is marked as a fragment. -/
def marks (r : Except Err (List WatchResponse)) : Option (List (Int64 × Bool)) :=
  r.toOption.map (List.map (fun resp => (resp.header.revision, resp.fragment)))

end Turbokube
