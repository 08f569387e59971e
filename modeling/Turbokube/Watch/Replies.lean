import Turbokube.Family
import Turbokube.Model.StorageStream

/-!
# The responses of one watch

The service keeps a buffer for each watch, and what it does with a message is a list of actions on
these buffers (`StreamMessage.acts`).  So the responses of a watch can be told from the events sent
to it alone.  They are cut greedily: an event that does not fit into the buffer makes the service
send what is in it (`fill`), and the message at the end of a round sends the rest.
-/

namespace Turbokube

open Family

/-- Values are added to a load while it has room.  Gives the loads that were full, each with the
value it had no room for, and the last load.  A value that does not fit into an empty load fails. -/
def fill {α : Type} (room : List α → α → Bool) :
    List α → List α → Option (List (List α × α) × List α)
  | load, [] => some ([], load)
  | load, x :: xs =>
      if room load x then fill room (load ++ [x]) xs
      else if room [] x then (fill room [x] xs).map (fun r => ((load, x) :: r.1, r.2))
      else none

namespace ServiceGrpc

/-- What is done to the buffer of a watch. -/
inductive Act where
  | send (evt : WatchEvent) (rev : UInt64)
  | sync (rev : UInt64)
  | notify (rev : UInt64)

/-- What is stored for an event whose bytes are as they were encoded. -/
def encoded (wire : Wire) (evt : WatchEvent) (rev : UInt64) : Value :=
  ⟨wire.event evt, some evt, rev⟩

def act (B : Build) (E : Env) (wire : Wire) (room : Room) (id : UInt64) :
    Act → List Value → Except Err (List Value × List WatchResponse)
  | .send evt rev, buf =>
      if B.responseFits (wire.event evt) then sendEvent B wire room id (encoded wire evt rev) buf
      else .error .panic
  | .sync rev, buf =>
      match clearEvents B wire id rev true buf with
      | .error e => .error e
      | .ok resps => .ok ([], resps)
  | .notify rev, buf =>
      if id = watchIdError then .ok (buf, [])
      else .ok (buf, [{ header := responseHeader E rev.toNat, watchId := id.toInt64 }])

end ServiceGrpc

def StreamMessage.acts : StreamMessage → List (UInt64 × ServiceGrpc.Act)
  | .eventBatch rev evt watchIds watchIdsPrev =>
      watchIdsPrev.map (fun id => (id, .send evt rev)) ++
        watchIds.map (fun id => (id, .send { evt with prevKv := none } rev))
  | .eventSync rev ids => ids.map (fun id => (id, .sync rev))
  | .notify id rev => [(id, .notify rev)]

namespace ServiceGrpc

variable {B : Build} {E : Env} {wire : Wire} {room : Room} {id : UInt64}

section Messages

theorem sendEvents_cons (hB : B.reuses = false) {rev : UInt64} {evt : WatchEvent}
    (hfits : B.responseFits (wire.event evt) = true) (id : UInt64) (ids : List UInt64)
    (bufs : Buffers) :
    sendEvents B wire room rev evt (id :: ids) [] bufs =
      andThen (stepAll (act B E wire room) (id, .send evt rev) bufs)
        (sendEvents B wire room rev evt ids []) := by
  rw [sendEvents, stepAll, act, if_pos hfits, wire.torn_nil, encoded]
  simp only [hB, Bool.false_eq_true, if_false]
  cases sendEvent B wire room id ⟨wire.event evt, some evt, rev⟩ (bufs id) with
  | error e => rfl
  | ok r =>
      cases hrest : sendEvents B wire room rev evt ids [] (Function.update bufs id r.1) with
      | error e => simp only [andThen, hrest]
      | ok q => simp only [andThen, hrest]

theorem sendBatch_eq (hB : B.reuses = false) (rev : UInt64) (evt : WatchEvent) (ids : List UInt64)
    (bufs : Buffers) :
    sendBatch B wire room rev evt ids bufs =
      run (stepAll (act B E wire room)) (ids.map (fun id => (id, .send evt rev))) bufs := by
  by_cases hfits : B.responseFits (wire.event evt) = true
  · have hids : ∀ ids bufs, sendEvents B wire room rev evt ids [] bufs =
        run (stepAll (act B E wire room)) (ids.map (fun id => (id, .send evt rev))) bufs := by
      intro ids
      induction ids with
      | nil => exact fun _ => rfl
      | cons id ids ih =>
          intro bufs
          rw [sendEvents_cons hB hfits, List.map_cons, run]
          exact congrArg _ (funext ih)
    rw [sendBatch, if_pos hfits, ← hids]
    cases ids with
    | nil => rfl
    | cons id ids => rw [if_neg (List.cons_ne_nil _ _)]
  · cases ids with
    | nil => rfl
    | cons id ids =>
        rw [sendBatch, if_neg (List.cons_ne_nil _ _), if_neg hfits, List.map_cons, run, stepAll,
          act, if_neg hfits, andThen]

theorem syncEvents_cons (rev id : UInt64) (ids : List UInt64) (bufs : Buffers) :
    syncEvents B wire rev (id :: ids) bufs =
      andThen (stepAll (act B E wire room) (id, .sync rev) bufs) (syncEvents B wire rev ids) := by
  rw [syncEvents, stepAll, act]
  cases clearEvents B wire id rev true (bufs id) with
  | error e => rfl
  | ok resps =>
      cases hrest : syncEvents B wire rev ids (Function.update bufs id []) with
      | error e => simp only [andThen, hrest]
      | ok q => simp only [andThen, hrest]

theorem syncEvents_eq (rev : UInt64) (ids : List UInt64) (bufs : Buffers) :
    syncEvents B wire rev ids bufs =
      run (stepAll (act B E wire room)) (ids.map (fun id => (id, .sync rev))) bufs := by
  induction ids generalizing bufs with
  | nil => rfl
  | cons id ids ih =>
      rw [syncEvents_cons, List.map_cons, run]
      exact congrArg _ (funext ih)

theorem shardRecv_eventBatch (rev : UInt64) (evt : WatchEvent) (watchIds watchIdsPrev : List UInt64)
    (bufs : Buffers) :
    shardRecv B E wire room bufs (.eventBatch rev evt watchIds watchIdsPrev) =
      andThen (sendBatch B wire room rev evt watchIdsPrev bufs)
        (sendBatch B wire room rev { evt with prevKv := none } watchIds) := by
  rw [shardRecv]
  cases sendBatch B wire room rev evt watchIdsPrev bufs with
  | error e => rfl
  | ok r =>
      cases hrest : sendBatch B wire room rev { evt with prevKv := none } watchIds r.1 with
      | error e => simp only [andThen, hrest]
      | ok q => simp only [andThen, hrest]

theorem shardRecv_eq {msg : StreamMessage} (h : B.reuses = false ∨ msg.sentTo = [])
    (bufs : Buffers) :
    shardRecv B E wire room bufs msg = run (stepAll (act B E wire room)) msg.acts bufs := by
  cases msg with
  | eventBatch rev evt watchIds watchIdsPrev =>
      rw [shardRecv_eventBatch, StreamMessage.acts]
      rcases h with hB | hnone
      · rw [run_append, ← sendBatch_eq hB]
        exact congrArg _ (funext (sendBatch_eq hB rev _ watchIds))
      · obtain ⟨rfl, rfl⟩ := List.append_eq_nil_iff.mp hnone
        rfl
  | eventSync rev ids => exact syncEvents_eq rev ids bufs
  | notify id rev =>
      rw [shardRecv, StreamMessage.acts, run, stepAll, act]
      split
      · simp only [andThen, run, Function.update_eq_self, List.append_nil]
      · simp only [andThen, run, Function.update_eq_self, List.append_nil]

theorem shardRecvs_cons (msg : StreamMessage) (msgs : List StreamMessage) (bufs : Buffers) :
    shardRecvs B E wire room (msg :: msgs) bufs =
      andThen (shardRecv B E wire room bufs msg) (shardRecvs B E wire room msgs) := by
  rw [shardRecvs]
  cases shardRecv B E wire room bufs msg with
  | error e => rfl
  | ok r =>
      cases hrest : shardRecvs B E wire room msgs r.1 with
      | error e => simp only [andThen, hrest]
      | ok q => simp only [andThen, hrest]

theorem shardRecvs_append (xs ys : List StreamMessage) (bufs : Buffers) :
    shardRecvs B E wire room (xs ++ ys) bufs =
      andThen (shardRecvs B E wire room xs bufs) (shardRecvs B E wire room ys) := by
  induction xs generalizing bufs with
  | nil =>
      rw [List.nil_append, shardRecvs, andThen]
      cases shardRecvs B E wire room ys bufs with
      | error e => rfl
      | ok r => rfl
  | cons msg xs ih =>
      rw [List.cons_append, shardRecvs_cons, shardRecvs_cons, andThen_assoc]
      exact congrArg _ (funext ih)

/-- Where no memory is used again, the service takes the actions of the messages one after the
other. -/
theorem shardRecvs_eq {msgs : List StreamMessage}
    (h : ∀ msg ∈ msgs, B.reuses = false ∨ msg.sentTo = []) (bufs : Buffers) :
    shardRecvs B E wire room msgs bufs =
      run (stepAll (act B E wire room)) (msgs.flatMap StreamMessage.acts) bufs := by
  induction msgs generalizing bufs with
  | nil => rfl
  | cons msg msgs ih =>
      rw [shardRecvs_cons, List.flatMap_cons, run_append, ← shardRecv_eq (h msg List.mem_cons_self)]
      exact congrArg _ (funext (ih (fun msg hmsg => h msg (List.mem_cons_of_mem _ hmsg))))

end Messages

theorem mapM_evt_eq_some {buf : List Value} {evts : List WatchEvent}
    (h : buf.mapM Value.evt = some evts) : buf.map Value.evt = evts.map some := by
  induction buf generalizing evts with
  | nil =>
      cases h
      rfl
  | cons v buf ih =>
      rw [List.mapM_cons] at h
      cases hv : v.evt with
      | none =>
          rw [hv] at h
          cases h
      | some evt =>
          cases hrest : buf.mapM Value.evt with
          | none =>
              rw [hv, hrest] at h
              cases h
          | some rest =>
              rw [hv, hrest] at h
              cases h
              rw [List.map_cons, List.map_cons, hv, ih hrest]

section Cases

variable {rev : UInt64} {sync : Bool} {v : Value} {buf buf' : List Value}
  {resps : List WatchResponse}

/-- The events of a buffer are sent in one response, and an empty buffer sends none. -/
theorem clearEvents_cases (h : clearEvents B wire id rev sync buf = .ok resps) :
    (buf = [] ∧ resps = []) ∨
      ∃ r, resps = [r] ∧ r.watchId = id.toInt64 ∧ r.events.map some = buf.map Value.evt := by
  rw [clearEvents] at h
  cases hevts : buf.mapM Value.evt with
  | none =>
      simp only [hevts] at h
      cases h
  | some evts =>
      simp only [hevts] at h
      cases hlast : buf.getLast? with
      | none =>
          simp only [hlast] at h
          exact .inl ⟨List.getLast?_eq_none_iff.mp hlast, (Except.ok.inj h).symm⟩
      | some v =>
          simp only [hlast] at h
          split at h
          · exact .inr ⟨_, (Except.ok.inj h).symm, rfl, (mapM_evt_eq_some hevts).symm⟩
          · cases h

/-- A value is added to the buffer, or is alone in it after the buffer was sent. -/
theorem sendEvent_cases (h : sendEvent B wire room id v buf = .ok (buf', resps)) :
    (buf' = buf ++ [v] ∧ resps = []) ∨
      (buf' = [v] ∧ clearEvents B wire id v.rev false buf = .ok resps) := by
  have happend : ∀ {buf buf' : List Value}, append room buf v = some buf' → buf' = buf ++ [v] := by
    intro buf buf' happ
    rw [append] at happ
    split at happ
    · exact (Option.some.inj happ).symm
    · cases happ
  rw [sendEvent] at h
  cases hfirst : append room buf v with
  | some buf₁ =>
      simp only [hfirst] at h
      obtain ⟨rfl, rfl⟩ := Prod.mk.inj (Except.ok.inj h)
      exact .inl ⟨happend hfirst, rfl⟩
  | none =>
      simp only [hfirst] at h
      cases hclear : clearEvents B wire id v.rev false buf with
      | error e =>
          simp only [hclear] at h
          cases h
      | ok out =>
          simp only [hclear] at h
          cases hagain : append room [] v with
          | none =>
              simp only [hagain] at h
              cases h
          | some buf₂ =>
              simp only [hagain] at h
              obtain ⟨rfl, rfl⟩ := Prod.mk.inj (Except.ok.inj h)
              exact .inr ⟨happend hagain, rfl⟩

theorem watchId_of_clearEvents (h : clearEvents B wire id rev sync buf = .ok resps) :
    ∀ r ∈ resps, r.watchId.toUInt64 = id := by
  intro r hr
  obtain ⟨-, rfl⟩ | ⟨r₁, rfl, hid, -⟩ := clearEvents_cases h
  · cases hr
  · rw [List.mem_singleton.mp hr, hid]
    exact id.toUInt64_toInt64

theorem watchId_of_sendEvent (h : sendEvent B wire room id v buf = .ok (buf', resps)) :
    ∀ r ∈ resps, r.watchId.toUInt64 = id := by
  obtain ⟨-, rfl⟩ | ⟨-, hclear⟩ := sendEvent_cases h
  · exact fun r hr => absurd hr List.not_mem_nil
  · exact watchId_of_clearEvents hclear

/-- The events of a buffer are those of its response. -/
theorem clearEvents_conserves (h : clearEvents B wire id rev sync buf = .ok resps) :
    (resps.flatMap WatchResponse.events).map some = buf.map Value.evt := by
  obtain ⟨rfl, rfl⟩ | ⟨r, rfl, -, hevents⟩ := clearEvents_cases h
  · rfl
  · rw [List.flatMap_singleton, hevents]

/-- What is in the buffer is sent or stays there. -/
theorem sendEvent_conserves (h : sendEvent B wire room id v buf = .ok (buf', resps)) :
    (resps.flatMap WatchResponse.events).map some ++ buf'.map Value.evt =
      buf.map Value.evt ++ [v.evt] := by
  obtain ⟨rfl, rfl⟩ | ⟨rfl, hclear⟩ := sendEvent_cases h
  · exact List.map_append
  · rw [clearEvents_conserves hclear]
    rfl

end Cases

theorem act_sync_cases {rev : UInt64} {buf buf' : List Value} {out : List WatchResponse}
    (h : act B E wire room id (.sync rev) buf = .ok (buf', out)) :
    buf' = [] ∧ clearEvents B wire id rev true buf = .ok out := by
  rw [act] at h
  cases hclear : clearEvents B wire id rev true buf with
  | error e =>
      simp only [hclear] at h
      cases h
  | ok resps =>
      simp only [hclear] at h
      obtain ⟨rfl, rfl⟩ := Prod.mk.inj (Except.ok.inj h)
      exact ⟨rfl, rfl⟩

/-- What is sent for an action names its watch. -/
theorem watchId_of_act {a : Act} {buf buf' : List Value} {out : List WatchResponse}
    (h : act B E wire room id a buf = .ok (buf', out)) : ∀ r ∈ out, r.watchId.toUInt64 = id := by
  cases a with
  | send evt rev =>
      rw [act] at h
      split at h
      · exact watchId_of_sendEvent h
      · cases h
  | sync rev => exact watchId_of_clearEvents (act_sync_cases h).2
  | notify rev =>
      rw [act] at h
      split at h
      · rw [← (Prod.mk.inj (Except.ok.inj h)).2]
        exact fun r hr => absurd hr List.not_mem_nil
      · rw [← (Prod.mk.inj (Except.ok.inj h)).2]
        intro r hr
        rw [List.mem_singleton.mp hr]
        exact id.toUInt64_toInt64

/-- The response with some events. -/
def reply (id rev : UInt64) (fragment : Bool) (evts : List WatchEvent) : WatchResponse where
  header := ⟨0, 0, rev.toInt64⟩
  watchId := id.toInt64
  fragment := fragment
  events := evts

/-- Whether a buffer with some events takes one more. -/
def hasRoom (wire : Wire) (room : Room) (load : List WatchEvent) (evt : WatchEvent) : Bool :=
  room (load.map (fun e => wire.event e + 8)) (wire.event evt + 8)

section Watch

/-- A buffer with some events, tagged by `τ`. -/
def held (wire : Wire) (τ : WatchEvent → UInt64) (evts : List WatchEvent) : List Value :=
  evts.map (fun e => encoded wire e (τ e))

def lastTag (τ : WatchEvent → UInt64) (evts : List WatchEvent) : UInt64 :=
  (evts.getLast?.map τ).getD 0

/-- The response for a load that has no room for an event. -/
def cutReply (B : Build) (τ : WatchEvent → UInt64) (id : UInt64)
    (cut : List WatchEvent × WatchEvent) : WatchResponse :=
  reply id (B.header (τ cut.2) (lastTag τ cut.1)) (lastTag τ cut.1 = τ cut.2) cut.1

/-- The responses for the last load. -/
def lastReplies (B : Build) (τ : WatchEvent → UInt64) (id rev : UInt64) (load : List WatchEvent) :
    List WatchResponse :=
  if load = [] then [] else [reply id (B.header rev (lastTag τ load)) false load]

variable {τ : WatchEvent → UInt64} {load : List WatchEvent} {evt : WatchEvent}

theorem append_held (τ : WatchEvent → UInt64) (load : List WatchEvent) (evt : WatchEvent) :
    append room (held wire τ load) (encoded wire evt (τ evt)) =
      if hasRoom wire room load evt then some (held wire τ (load ++ [evt])) else none := by
  have hsizes : (held wire τ load).map valueSize = load.map (fun e => wire.event e + 8) := by
    simp [held, valueSize, encoded]
  have hheld : held wire τ (load ++ [evt]) = held wire τ load ++ [encoded wire evt (τ evt)] := by
    simp [held]
  rw [append, hsizes, hheld]
  rfl

theorem mapM_held (τ : WatchEvent → UInt64) (load : List WatchEvent) :
    (held wire τ load).mapM Value.evt = some load := by
  induction load with
  | nil => rfl
  | cons e load ih =>
      rw [held] at ih ⊢
      rw [List.map_cons, List.mapM_cons, ih]
      rfl

theorem clearEvents_held (hne : load ≠ []) (rev : UInt64) (sync : Bool) :
    clearEvents B wire id rev sync (held wire τ load) =
      if B.responseFits (wire.response
          (reply id (B.header rev (lastTag τ load)) (!sync && lastTag τ load = rev) load)) then
        .ok [reply id (B.header rev (lastTag τ load)) (!sync && lastTag τ load = rev) load]
      else .error .panic := by
  have hlast : (held wire τ load).getLast? =
      some (encoded wire (load.getLast hne) (τ (load.getLast hne))) := by
    rw [held, List.getLast?_map, List.getLast?_eq_some_getLast hne]
    rfl
  have htag : lastTag τ load = τ (load.getLast hne) := by
    rw [lastTag, List.getLast?_eq_some_getLast hne]
    rfl
  rw [clearEvents, mapM_held, hlast, htag]
  rfl

/-- An event is added to the buffer, or the buffer is sent and holds the event. -/
theorem sendEvent_held (τ : WatchEvent → UInt64) (load : List WatchEvent) (evt : WatchEvent) :
    sendEvent B wire room id (encoded wire evt (τ evt)) (held wire τ load) =
      if hasRoom wire room load evt then .ok (held wire τ (load ++ [evt]), [])
      else if hasRoom wire room [] evt then
        if B.responseFits (wire.response (cutReply B τ id (load, evt))) then
          .ok (held wire τ [evt], [cutReply B τ id (load, evt)])
        else .error .panic
      else .error .panic := by
  have hempty : append room [] (encoded wire evt (τ evt)) = _ := append_held τ [] evt
  rw [sendEvent, append_held]
  by_cases hroom : hasRoom wire room load evt = true
  · rw [if_pos hroom, if_pos hroom]
  · rw [if_neg hroom, if_neg hroom]
    by_cases halone : hasRoom wire room [] evt = true
    · have hne : load ≠ [] := fun hnil => hroom (by rw [hnil]; exact halone)
      have hrev : (encoded wire evt (τ evt)).rev = τ evt := rfl
      rw [if_pos halone] at hempty ⊢
      simp only [hrev, clearEvents_held hne]
      rw [cutReply]
      by_cases hfits : B.responseFits (wire.response (reply id (B.header (τ evt) (lastTag τ load))
          (lastTag τ load = τ evt) load)) = true
      · simp only [Bool.not_false, Bool.true_and, hfits, if_true, hempty]
        rfl
      · simp only [Bool.not_false, Bool.true_and, hfits]
        rfl
    · rw [if_neg halone] at hempty ⊢
      cases hclear : clearEvents B wire id (encoded wire evt (τ evt)).rev false
          (held wire τ load) with
      | error e =>
          simp only
          by_cases hnil : load = []
          · subst hnil
            cases hclear
          · rw [clearEvents_held hnil] at hclear
            split at hclear
            · cases hclear
            · rw [← Except.error.inj hclear]
      | ok resps => simp only [hempty]

theorem run_sends_eq_ok {xs : List WatchEvent} {buf : List Value}
    {out : List WatchResponse} :
    run (act B E wire room id) (xs.map (fun e => .send e (τ e))) (held wire τ load) =
        .ok (buf, out) ↔
      (∀ e ∈ xs, B.responseFits (wire.event e) = true) ∧
        ∃ cuts last, fill (hasRoom wire room) load xs = some (cuts, last) ∧
          (∀ c ∈ cuts, B.responseFits (wire.response (cutReply B τ id c)) = true) ∧
          buf = held wire τ last ∧ out = cuts.map (cutReply B τ id) := by
  induction xs generalizing load out with
  | nil =>
      rw [List.map_nil, run, fill]
      constructor
      · intro h
        obtain ⟨rfl, rfl⟩ := Prod.mk.inj (Except.ok.inj h)
        exact ⟨by simp, [], load, rfl, by simp, rfl, rfl⟩
      · rintro ⟨-, cuts, last, hfill, -, rfl, rfl⟩
        obtain ⟨rfl, rfl⟩ := Prod.mk.inj (Option.some.inj hfill)
        rfl
  | cons x xs ih =>
      rw [List.map_cons, run_cons_eq_ok, fill, List.forall_mem_cons, act]
      by_cases hevt : B.responseFits (wire.event x) = true
      · rw [if_pos hevt, sendEvent_held]
        by_cases hroom : hasRoom wire room load x = true
        · rw [if_pos hroom, if_pos hroom]
          constructor
          · rintro ⟨s₁, out₁, out₂, hsend, hrun, rfl⟩
            obtain ⟨rfl, rfl⟩ := Prod.mk.inj (Except.ok.inj hsend)
            obtain ⟨hxs, hrest⟩ := ih.mp hrun
            exact ⟨⟨hevt, hxs⟩, hrest⟩
          · rintro ⟨⟨-, hxs⟩, hrest⟩
            exact ⟨_, [], out, rfl, ih.mpr ⟨hxs, hrest⟩, rfl⟩
        · rw [if_neg hroom, if_neg hroom]
          by_cases halone : hasRoom wire room [] x = true
          · rw [if_pos halone, if_pos halone]
            constructor
            · rintro ⟨s₁, out₁, out₂, hsend, hrun, rfl⟩
              split at hsend
              · rename_i hfits
                obtain ⟨rfl, rfl⟩ := Prod.mk.inj (Except.ok.inj hsend)
                obtain ⟨hxs, cuts, last, hfill, hcuts, rfl, rfl⟩ := ih.mp hrun
                exact ⟨⟨hevt, hxs⟩, (load, x) :: cuts, last, by rw [hfill]; rfl,
                  List.forall_mem_cons.mpr ⟨hfits, hcuts⟩, rfl, rfl⟩
              · cases hsend
            · rintro ⟨⟨-, hxs⟩, cuts, last, hfill, hcuts, rfl, rfl⟩
              obtain ⟨⟨cuts', last'⟩, hfill', heq⟩ := Option.map_eq_some_iff.mp hfill
              obtain ⟨rfl, rfl⟩ := Prod.mk.inj heq
              obtain ⟨hfits, hcuts'⟩ := List.forall_mem_cons.mp hcuts
              rw [if_pos hfits]
              exact ⟨_, _, _, rfl, ih.mpr ⟨hxs, cuts', last', hfill', hcuts', rfl, rfl⟩, rfl⟩
          · rw [if_neg halone, if_neg halone]
            constructor
            · rintro ⟨s₁, out₁, out₂, hsend, -⟩
              cases hsend
            · rintro ⟨-, cuts, last, hfill, -⟩
              cases hfill
      · rw [if_neg hevt]
        constructor
        · rintro ⟨s₁, out₁, out₂, hsend, -⟩
          cases hsend
        · rintro ⟨⟨hfits, -⟩, -⟩
          exact absurd hfits hevt

theorem fill_ne_nil {α : Type} {room : List α → α → Bool} {load xs : List α}
    {cuts : List (List α × α)} {last : List α} (h : fill room load xs = some (cuts, last)) :
    ∀ c ∈ cuts, c.1 ≠ [] := by
  induction xs generalizing load cuts last with
  | nil =>
      obtain ⟨rfl, -⟩ := Prod.mk.inj (Option.some.inj h)
      exact fun c hc => absurd hc List.not_mem_nil
  | cons x xs ih =>
      rw [fill] at h
      split at h
      · exact ih h
      · rename_i hroom
        split at h
        · rename_i halone
          obtain ⟨⟨cuts', last'⟩, hfill, heq⟩ := Option.map_eq_some_iff.mp h
          obtain ⟨rfl, -⟩ := Prod.mk.inj heq
          refine List.forall_mem_cons.mpr ⟨fun hnil => hroom ?_, ih hfill⟩
          rw [show load = [] from hnil]
          exact halone
        · cases h

/-- The first of the messages at the end of a round sends what is in the buffer. -/
theorem run_syncs_eq_ok {rev : UInt64} {n : Nat} {buf : List Value}
    {out : List WatchResponse} :
    run (act B E wire room id) (List.replicate (n + 1) (.sync rev)) (held wire τ load) =
        .ok (buf, out) ↔
      (∀ r ∈ lastReplies B τ id rev load, B.responseFits (wire.response r) = true) ∧
        buf = [] ∧ out = lastReplies B τ id rev load := by
  have hempty : ∀ n, run (act B E wire room id) (List.replicate n (.sync rev)) [] =
      .ok ([], []) := by
    intro n
    induction n with
    | zero => rfl
    | succ n ih => exact run_cons_eq_ok.mpr ⟨[], [], [], rfl, ih, rfl⟩
  have hsync : ∀ {buf' out'},
      act B E wire room id (.sync rev) (held wire τ load) = .ok (buf', out') ↔
      (∀ r ∈ lastReplies B τ id rev load, B.responseFits (wire.response r) = true) ∧
        buf' = [] ∧ out' = lastReplies B τ id rev load := by
    intro buf' out'
    by_cases hnil : load = []
    · subst hnil
      constructor
      · intro h
        obtain ⟨rfl, rfl⟩ := Prod.mk.inj (Except.ok.inj h)
        exact ⟨fun r hr => absurd hr List.not_mem_nil, rfl, rfl⟩
      · rintro ⟨-, rfl, rfl⟩
        rfl
    · rw [act, clearEvents_held hnil, lastReplies, if_neg hnil]
      simp only [Bool.not_true, Bool.false_and, List.mem_singleton, forall_eq]
      constructor
      · intro h
        split at h
        · cases h
        · rename_i resps hresps
          split at hresps
          · rename_i hfits
            obtain rfl := Except.ok.inj hresps
            obtain ⟨rfl, rfl⟩ := Prod.mk.inj (Except.ok.inj h)
            exact ⟨hfits, rfl, rfl⟩
          · cases hresps
      · rintro ⟨hfits, rfl, rfl⟩
        rw [if_pos hfits]
  rw [List.replicate_succ, run_cons_eq_ok]
  constructor
  · rintro ⟨s₁, out₁, out₂, hact, hrun, rfl⟩
    obtain ⟨hfits, rfl, rfl⟩ := hsync.mp hact
    rw [hempty] at hrun
    obtain ⟨rfl, rfl⟩ := Prod.mk.inj (Except.ok.inj hrun)
    exact ⟨hfits, rfl, List.append_nil _⟩
  · rintro ⟨hfits, rfl, rfl⟩
    exact ⟨[], _, [], hsync.mpr ⟨hfits, rfl, rfl⟩, hempty n, (List.append_nil _).symm⟩

/-- The responses that tell a watch of a revision. -/
def progress (E : Env) (id rev : UInt64) (n : Nat) : List WatchResponse :=
  if id = watchIdError then []
  else List.replicate n { header := responseHeader E rev.toNat, watchId := id.toInt64 }

theorem run_notifies (rev : UInt64) (n : Nat) (buf : List Value) :
    run (act B E wire room id) (List.replicate n (.notify rev)) buf =
      .ok (buf, progress E id rev n) := by
  induction n with
  | zero =>
      rw [progress, List.replicate_zero, List.replicate_zero, ite_self]
      rfl
  | succ n ih =>
      rw [List.replicate_succ]
      by_cases hid : id = watchIdError
      · rw [progress, if_pos hid] at ih ⊢
        exact run_cons_eq_ok.mpr ⟨buf, [], [], by rw [act, if_pos hid], ih, rfl⟩
      · rw [progress, if_neg hid] at ih ⊢
        exact run_cons_eq_ok.mpr ⟨buf, _, _, by rw [act, if_neg hid], ih, rfl⟩

/-- What is done to the buffer of a watch in a round. -/
def roundActs (τ : WatchEvent → UInt64) (rev : UInt64) (evts : List WatchEvent)
    (syncs notifies : Nat) : List Act :=
  evts.map (fun e => .send e (τ e)) ++ List.replicate syncs (.sync rev) ++
    List.replicate notifies (.notify rev)

section Sent

variable {a : Act} {acts : List Act} {buf buf' : List Value} {out : List WatchResponse}
  {rev : UInt64} {evts : List WatchEvent} {syncs told : Nat}

/-- The events that an action sends. -/
def Act.sent : Act → List WatchEvent
  | .send evt _ => [evt]
  | _ => []

theorem act_conserves (h : act B E wire room id a buf = .ok (buf', out)) :
    (out.flatMap WatchResponse.events).map some ++ buf'.map Value.evt =
      buf.map Value.evt ++ a.sent.map some := by
  cases a with
  | send evt rev =>
      rw [act] at h
      split at h
      · exact sendEvent_conserves h
      · cases h
  | sync rev =>
      obtain ⟨rfl, hclear⟩ := act_sync_cases h
      rw [clearEvents_conserves hclear]
      rfl
  | notify rev =>
      rw [act] at h
      split at h
      · obtain ⟨rfl, rfl⟩ := Prod.mk.inj (Except.ok.inj h)
        exact (List.append_nil _).symm
      · obtain ⟨rfl, rfl⟩ := Prod.mk.inj (Except.ok.inj h)
        exact (List.append_nil _).symm

theorem run_act_conserves (h : run (act B E wire room id) acts buf = .ok (buf', out)) :
    (out.flatMap WatchResponse.events).map some ++ buf'.map Value.evt =
      buf.map Value.evt ++ (acts.flatMap Act.sent).map some := by
  induction acts generalizing buf out with
  | nil =>
      obtain ⟨rfl, rfl⟩ := Prod.mk.inj (Except.ok.inj h)
      exact (List.append_nil _).symm
  | cons a acts ih =>
      obtain ⟨buf₁, out₁, out₂, hact, hrun, rfl⟩ := run_cons_eq_ok.mp h
      rw [List.flatMap_append, List.map_append, List.append_assoc, ih hrun, ← List.append_assoc,
        act_conserves hact, List.flatMap_cons, List.map_append, List.append_assoc]

/-- At the end of a round the buffer of a watch that was named is empty. -/
theorem buf_of_run_end (hsyncs : 0 < syncs)
    (h : run (act B E wire room id)
      (List.replicate syncs (.sync rev) ++ List.replicate told (.notify rev)) buf =
        .ok (buf', out)) : buf' = [] := by
  obtain ⟨buf₁, out₁, out₂, hsync, hnotify, -⟩ := run_append_eq_ok.mp h
  rw [run_notifies] at hnotify
  obtain ⟨rfl, -⟩ := Prod.mk.inj (Except.ok.inj hnotify)
  obtain ⟨n, rfl⟩ := Nat.exists_eq_add_of_lt hsyncs
  rw [Nat.zero_add, List.replicate_succ'] at hsync
  obtain ⟨buf₂, out₃, out₄, -, hlast, -⟩ := run_append_eq_ok.mp hsync
  obtain ⟨buf₃, out₅, out₆, hact, hnil, -⟩ := run_cons_eq_ok.mp hlast
  obtain ⟨rfl, -⟩ := Prod.mk.inj (Except.ok.inj hnil)
  exact (act_sync_cases hact).1

theorem events_of_run_end (hsyncs : 0 < syncs)
    (h : run (act B E wire room id)
      (List.replicate syncs (.sync rev) ++ List.replicate told (.notify rev)) buf =
        .ok (buf', out)) :
    (out.flatMap WatchResponse.events).map some = buf.map Value.evt := by
  have hsent := run_act_conserves h
  have hnone : (List.replicate syncs (Act.sync rev) ++
      List.replicate told (Act.notify rev)).flatMap Act.sent = [] := by
    simp [Act.sent]
  rw [buf_of_run_end hsyncs h, hnone] at hsent
  simpa using hsent

/-- A watch that was named is sent its events. -/
theorem events_of_run_round (hsyncs : 0 < syncs)
    (h : run (act B E wire room id) (roundActs τ rev evts syncs told) [] = .ok (buf', out)) :
    out.flatMap WatchResponse.events = evts := by
  have hsent := run_act_conserves h
  rw [roundActs, List.append_assoc] at h
  obtain ⟨buf₁, out₁, out₂, -, hend, -⟩ := run_append_eq_ok.mp h
  rw [buf_of_run_end hsyncs hend] at hsent
  have hevts : (roundActs τ rev evts syncs told).flatMap Act.sent = evts := by
    simp [roundActs, Act.sent, List.flatMap_map]
  rw [hevts] at hsent
  exact List.map_injective_iff.mpr (Option.some_injective _) (by simpa using hsent)

end Sent

/-- The responses of a watch in a round. -/
theorem run_round_eq_ok {rev : UInt64} {evts : List WatchEvent} {syncs notifies : Nat}
    (hsyncs : syncs = 0 → evts = []) {out : List WatchResponse} :
    (∃ buf, run (act B E wire room id) (roundActs τ rev evts syncs notifies) [] = .ok (buf, out)) ↔
      (∀ e ∈ evts, B.responseFits (wire.event e) = true) ∧
        ∃ cuts last, fill (hasRoom wire room) [] evts = some (cuts, last) ∧
          (∀ c ∈ cuts, B.responseFits (wire.response (cutReply B τ id c)) = true) ∧
          (∀ r ∈ lastReplies B τ id rev last, B.responseFits (wire.response r) = true) ∧
          out = cuts.map (cutReply B τ id) ++ lastReplies B τ id rev last ++
            progress E id rev notifies := by
  cases syncs with
  | zero =>
      obtain rfl := hsyncs rfl
      have hrun : run (act B E wire room id) (roundActs τ rev [] 0 notifies) [] =
          .ok ([], progress E id rev notifies) := run_notifies rev notifies []
      rw [hrun]
      constructor
      · rintro ⟨buf, h⟩
        obtain ⟨rfl, rfl⟩ := Prod.mk.inj (Except.ok.inj h)
        exact ⟨by simp, [], [], rfl, by simp, by simp [lastReplies], rfl⟩
      · rintro ⟨-, cuts, last, hfill, -, -, rfl⟩
        obtain ⟨rfl, rfl⟩ := Prod.mk.inj (Option.some.inj hfill)
        exact ⟨[], rfl⟩
  | succ n =>
      simp only [roundActs, run_append_eq_ok]
      constructor
      · rintro ⟨buf, s₁, out₁, out₂, ⟨s₂, out₃, out₄, hsends, hsync, rfl⟩, hnotify, rfl⟩
        obtain ⟨hevts, cuts, last, hfill, hcuts, rfl, rfl⟩ :=
          (@run_sends_eq_ok B E wire room id τ [] evts _ _).mp hsends
        obtain ⟨hlast, rfl, rfl⟩ := run_syncs_eq_ok.mp hsync
        rw [run_notifies] at hnotify
        obtain ⟨rfl, rfl⟩ := Prod.mk.inj (Except.ok.inj hnotify)
        exact ⟨hevts, cuts, last, hfill, hcuts, hlast, rfl⟩
      · rintro ⟨hevts, cuts, last, hfill, hcuts, hlast, rfl⟩
        exact ⟨[], [], _, _, ⟨held wire τ last, _, _,
          run_sends_eq_ok.mpr ⟨hevts, cuts, last, hfill, hcuts, rfl, rfl⟩,
          run_syncs_eq_ok.mpr ⟨hlast, rfl, rfl⟩, rfl⟩, run_notifies rev notifies [], rfl⟩

end Watch

end ServiceGrpc

end Turbokube
