import Turbokube.Watch.Replies
import Turbokube.Watch.Rounds

/-!
# Copies of an encoded event

The service encodes an event once and copies it into the buffers of its watches.  In the Zig build
the responses are encoded into the same memory, so a response that is sent for one watch is written
over the event before the next watch gets its copy.  `Intact` says that no copy is taken from bytes
that are not the event any more.  Then the memory does not matter.  If it does not hold, some watch
is sent another event or the service stops.
-/

namespace Turbokube

open Family StorageKv

/-- A copy of an event for a watch, the first one after the event was encoded or a later one. -/
structure Copy where
  first : Bool
  id : UInt64
  evt : WatchEvent
  deriving DecidableEq, Repr

/-- The responses written over the bytes that are copied. -/
def Copy.written (c : Copy) (written : List WatchResponse) : List WatchResponse :=
  if c.first then [] else written

def copiesOf (evt : WatchEvent) : List UInt64 → List Copy
  | [] => []
  | id :: ids => ⟨true, id, evt⟩ :: ids.map (fun id => ⟨false, id, evt⟩)

/-- The copies of an event, those with the previous record first. -/
def copies (E : Env) (db : DbKv) (w : WatchMaps) (p : Notice × KvEvent) : List Copy :=
  copiesOf (shown E db w p) (selected w p.2 p.1.ids).2 ++
    copiesOf { shown E db w p with prevKv := none } (selected w p.2 p.1.ids).1

def roundCopies (E : Env) (db : DbKv) (w : WatchMaps) (notices : List Notice) : List Copy :=
  (matched db notices).flatMap (copies E db w)

/-- The events of some copies that are for one watch. -/
def feed (cs : List Copy) (id : UInt64) : List WatchEvent :=
  (cs.filter (fun c => c.id = id)).map Copy.evt

section Copies

variable {E : Env} {db : DbKv} {w : WatchMaps} {notices : List Notice} {τ : WatchEvent → UInt64}

theorem mem_copiesOf {evt : WatchEvent} {ids : List UInt64} {c : Copy} (h : c ∈ copiesOf evt ids) :
    c.id ∈ ids := by
  cases ids with
  | nil => cases h
  | cons id ids =>
      obtain rfl | hmem := List.mem_cons.mp h
      · exact List.mem_cons_self
      · obtain ⟨i, hi, rfl⟩ := List.mem_map.mp hmem
        exact List.mem_cons_of_mem _ hi

/-- Only watches that a notice names get copies. -/
theorem mem_roundCopies {c : Copy} (h : c ∈ roundCopies E db w notices) :
    c.id ∈ notices.flatMap Notice.ids := by
  obtain ⟨p, hp, hc⟩ := List.mem_flatMap.mp h
  obtain ⟨q, -, hq⟩ := List.mem_filterMap.mp hp
  obtain ⟨notice, hnotice, rfl⟩ := Option.map_eq_some_iff.mp hq
  refine List.mem_flatMap.mpr ⟨notice, List.mem_of_getElem? hnotice, ?_⟩
  obtain hc | hc := List.mem_append.mp hc
  · exact List.mem_of_mem_filter (mem_copiesOf hc)
  · exact List.mem_of_mem_filter (mem_copiesOf hc)

theorem copiesOf_map {α : Type} (f : UInt64 → WatchEvent → α) (evt : WatchEvent)
    (ids : List UInt64) :
    (copiesOf evt ids).map (fun c => f c.id c.evt) = ids.map (fun id => f id evt) := by
  cases ids with
  | nil => rfl
  | cons id ids =>
      rw [copiesOf, List.map_cons, List.map_map, List.map_cons]
      rfl

/-- The messages of a round for its events, as what they do to the buffers. -/
theorem roundCopies_acts (hτ : ∀ m : WatchEvent, τ { m with prevKv := none } = τ m) :
    ((matched db notices).flatMap (batch τ E db w)).flatMap StreamMessage.acts =
      (roundCopies E db w notices).map (fun c => (c.id, .send c.evt (τ c.evt))) := by
  rw [roundCopies, List.flatMap_assoc, List.map_flatMap]
  refine List.flatMap_congr (fun p _ => ?_)
  rw [copies, List.map_append, copiesOf_map (fun id e => (id, ServiceGrpc.Act.send e (τ e))),
    copiesOf_map (fun id e => (id, ServiceGrpc.Act.send e (τ e))), hτ, batch]
  split
  · rename_i hnone
    rw [hnone.1, hnone.2]
    rfl
  · exact List.flatMap_singleton _ _

end Copies

namespace ServiceGrpc

/-- The buffers, and the responses written over the encoded event. -/
abbrev Desk : Type := Buffers × List WatchResponse

def copyStep (B : Build) (wire : Wire) (room : Room) (τ : WatchEvent → UInt64) (c : Copy)
    (d : Desk) : Except Err (Desk × List WatchResponse) :=
  if B.responseFits (wire.event c.evt) then
    match sendEvent B wire room c.id
        ⟨wire.event c.evt, wire.torn c.evt (c.written d.2), τ c.evt⟩ (d.1 c.id) with
    | .error e => .error e
    | .ok (buf, resps) =>
        .ok ((Function.update d.1 c.id buf,
          if B.reuses then c.written d.2 ++ resps else c.written d.2), resps)
  else .error .panic

variable {B : Build} {E : Env} {wire : Wire} {room : Room} {τ : WatchEvent → UInt64}
  {evt : WatchEvent}

section Messages

theorem sendEvents_eq_copies (hfits : B.responseFits (wire.event evt) = true) (ids : List UInt64)
    (written : List WatchResponse) (bufs : Buffers) :
    sendEvents B wire room (τ evt) evt ids written bufs =
      mapState Prod.fst
        (run (copyStep B wire room τ) (ids.map (fun id => ⟨false, id, evt⟩)) (bufs, written)) := by
  induction ids generalizing written bufs with
  | nil => rfl
  | cons id ids ih =>
      rw [List.map_cons, run, sendEvents, copyStep, if_pos hfits, Copy.written]
      simp only [Bool.false_eq_true, if_false]
      cases sendEvent B wire room id ⟨wire.event evt, wire.torn evt written, τ evt⟩ (bufs id) with
      | error e => rfl
      | ok r =>
          have hrest := ih (if B.reuses = true then written ++ r.2 else written)
            (Function.update bufs id r.1)
          cases hrun : run (copyStep B wire room τ) (ids.map (fun id => ⟨false, id, evt⟩))
              (Function.update bufs id r.1,
                if B.reuses = true then written ++ r.2 else written) with
          | error e =>
              rw [hrun] at hrest
              simp only [andThen, hrun, hrest, mapState]
          | ok q =>
              rw [hrun] at hrest
              simp only [andThen, hrun, hrest, mapState]

theorem sendBatch_eq_copies (ids : List UInt64) (d : Desk) :
    sendBatch B wire room (τ evt) evt ids d.1 =
      mapState Prod.fst (run (copyStep B wire room τ) (copiesOf evt ids) d) := by
  cases ids with
  | nil => rfl
  | cons id ids =>
      -- the first copy is taken from the event just encoded
      have hfirst : run (copyStep B wire room τ) (copiesOf evt (id :: ids)) d =
          run (copyStep B wire room τ) ((id :: ids).map (fun id => ⟨false, id, evt⟩)) (d.1, []) :=
        rfl
      rw [sendBatch, if_neg (List.cons_ne_nil _ _), hfirst]
      by_cases hfits : B.responseFits (wire.event evt) = true
      · rw [if_pos hfits, sendEvents_eq_copies hfits]
      · rw [if_neg hfits, List.map_cons, run, copyStep, if_neg hfits]
        rfl

variable {db : DbKv} {w : WatchMaps}

/-- The messages for some events make the service take the copies one after the other. -/
theorem shardRecvs_eq_copies (hτ : ∀ m : WatchEvent, τ { m with prevKv := none } = τ m)
    (ps : List (Notice × KvEvent)) (d : Desk) :
    shardRecvs B E wire room (ps.flatMap (batch τ E db w)) d.1 =
      mapState Prod.fst (run (copyStep B wire room τ) (ps.flatMap (copies E db w)) d) := by
  induction ps generalizing d with
  | nil => rfl
  | cons p ps ih =>
      have hone : ∀ d : Desk, shardRecvs B E wire room (batch τ E db w p) d.1 =
          mapState Prod.fst (run (copyStep B wire room τ) (copies E db w p) d) := by
        intro d
        rw [batch]
        split
        · rename_i hnone
          rw [copies, hnone.1, hnone.2]
          rfl
        · rw [shardRecvs_cons, shardRecv_eventBatch, copies, run_append, sendBatch_eq_copies _ d,
            ← hτ (shown E db w p)]
          rw [mapState_andThen (fun d => (sendBatch_eq_copies _ d).symm)]
          exact andThen_nil _
      rw [List.flatMap_cons, List.flatMap_cons, shardRecvs_append, run_append, hone,
        mapState_andThen (fun d => (ih d).symm)]

end Messages

/-- The load of a watch after one more event. -/
def loadAfter (wire : Wire) (room : Room) (load : List WatchEvent) (evt : WatchEvent) :
    List WatchEvent :=
  if hasRoom wire room load evt then load ++ [evt] else [evt]

/-- Every copy is taken from bytes that still are the event.  `loads` are the events in the buffers,
and `written` the responses written over the bytes. -/
def Intact (wire : Wire) (room : Room) (last : UInt64) :
    List Copy → (UInt64 → List WatchEvent) → List WatchResponse → Prop
  | [], _, _ => True
  | c :: cs, loads, written =>
      wire.torn c.evt (c.written written) = some c.evt ∧
        Intact wire room last cs
          (Function.update loads c.id (loadAfter wire room (loads c.id) c.evt))
          (c.written written ++
            if hasRoom wire room (loads c.id) c.evt then []
            else [reply c.id last true (loads c.id)])

instance Intact.decidable (wire : Wire) (room : Room) (last : UInt64) :
    (cs : List Copy) → (loads : UInt64 → List WatchEvent) → (written : List WatchResponse) →
      Decidable (Intact wire room last cs loads written)
  | [], _, _ => .isTrue trivial
  | c :: cs, loads, written =>
      have := Intact.decidable wire room last cs
        (Function.update loads c.id (loadAfter wire room (loads c.id) c.evt))
        (c.written written ++
          if hasRoom wire room (loads c.id) c.evt then []
          else [reply c.id last true (loads c.id)])
      inferInstanceAs (Decidable (_ ∧ _))

section Zig

variable {last id : UInt64} {cs : List Copy} {loads : UInt64 → List WatchEvent}
  {written : List WatchResponse} {c : Copy}

theorem lastTag_const {load : List WatchEvent} (h : load ≠ []) :
    lastTag (fun _ => last) load = last := by
  rw [lastTag, List.getLast?_eq_some_getLast h]
  rfl

theorem zig_cutReply_eq {cut : List WatchEvent × WatchEvent} (h : cut.1 ≠ []) :
    cutReply .zig (fun _ => last) id cut = reply id last true cut.1 := by
  have hheader : Build.zig.header last (lastTag (fun _ => last) cut.1) = last := lastTag_const h
  rw [cutReply, hheader, lastTag_const h]
  simp

/-- The buffers of the Zig build when they hold some events. -/
def heldAll (wire : Wire) (last : UInt64) (loads : UInt64 → List WatchEvent) : Buffers :=
  fun id => held wire (fun _ => last) (loads id)

theorem heldAll_update (loads : UInt64 → List WatchEvent) (id : UInt64) (load : List WatchEvent) :
    Function.update (heldAll wire last loads) id (held wire (fun _ => last) load) =
      heldAll wire last (Function.update loads id load) := by
  funext i
  rw [heldAll]
  by_cases hi : i = id
  · subst hi
    rw [Function.update_self, Function.update_self]
  · rw [Function.update_of_ne hi, Function.update_of_ne hi]
    rfl

/-- A copy of the event does what sending the event does. -/
theorem copyStep_cases (hintact : wire.torn c.evt (c.written written) = some c.evt) :
    (copyStep .zig wire room (fun _ => last) c (heldAll wire last loads, written) = .error .panic ∧
      stepAll (act .zig E wire room) (c.id, .send c.evt last) (heldAll wire last loads) =
        .error .panic) ∨
    ∃ resps,
      copyStep .zig wire room (fun _ => last) c (heldAll wire last loads, written) =
        .ok ((heldAll wire last
            (Function.update loads c.id (loadAfter wire room (loads c.id) c.evt)),
          c.written written ++ if hasRoom wire room (loads c.id) c.evt then []
            else [reply c.id last true (loads c.id)]), resps) ∧
      stepAll (act .zig E wire room) (c.id, .send c.evt last) (heldAll wire last loads) =
        .ok (heldAll wire last
          (Function.update loads c.id (loadAfter wire room (loads c.id) c.evt)), resps) := by
  have hsend : sendEvent .zig wire room c.id ⟨wire.event c.evt, some c.evt, last⟩
      (heldAll wire last loads c.id) = _ := sendEvent_held (fun _ => last) (loads c.id) c.evt
  have hreuses : Build.zig.reuses = true := rfl
  simp only [copyStep, stepAll, act, encoded, hintact, hreuses, if_true]
  by_cases hfits : Build.zig.responseFits (wire.event c.evt) = true
  · by_cases hroom : hasRoom wire room (loads c.id) c.evt = true
    · rw [if_pos hroom] at hsend
      refine .inr ⟨[], ?_, ?_⟩
      · simp only [hfits, hsend, loadAfter, hroom, if_true, heldAll_update]
      · simp only [hfits, hsend, loadAfter, hroom, if_true, heldAll_update]
    · rw [if_neg hroom] at hsend
      by_cases halone : hasRoom wire room [] c.evt = true
      · have hne : loads c.id ≠ [] := fun hnil => hroom (by rw [hnil]; exact halone)
        rw [if_pos halone, zig_cutReply_eq hne] at hsend
        by_cases hsize : Build.zig.responseFits
            (wire.response (reply c.id last true (loads c.id))) = true
        · rw [if_pos hsize] at hsend
          refine .inr ⟨[reply c.id last true (loads c.id)], ?_, ?_⟩
          · simp only [hfits, hsend, loadAfter, hroom, if_true, heldAll_update]
            rfl
          · simp only [hfits, hsend, loadAfter, hroom, if_true, heldAll_update]
            rfl
        · rw [if_neg hsize] at hsend
          refine .inl ⟨?_, ?_⟩
          · simp only [hfits, hsend, if_true]
          · simp only [hfits, hsend, if_true]
      · rw [if_neg halone] at hsend
        refine .inl ⟨?_, ?_⟩
        · simp only [hfits, hsend, if_true]
        · simp only [hfits, hsend, if_true]
  · rw [if_neg hfits, if_neg hfits]
    exact .inl ⟨rfl, rfl⟩

/-- If every copy is intact the memory does not matter. -/
theorem run_copies_of_intact (h : Intact wire room last cs loads written) :
    mapState Prod.fst
        (run (copyStep .zig wire room (fun _ => last)) cs (heldAll wire last loads, written)) =
      run (stepAll (act .zig E wire room)) (cs.map (fun c => (c.id, .send c.evt last)))
        (heldAll wire last loads) := by
  induction cs generalizing loads written with
  | nil => rfl
  | cons c cs ih =>
      rw [List.map_cons, run, run]
      obtain ⟨hcopy, hact⟩ | ⟨resps, hcopy, hact⟩ :=
        @copyStep_cases E wire room last loads written c h.1
      · rw [hcopy, hact]
        rfl
      · rw [hcopy, hact]
        simp only [andThen]
        rw [← ih h.2]
        cases run (copyStep .zig wire room (fun _ => last)) cs _ with
        | error e => rfl
        | ok q => rfl

end Zig

section Conservation

/-- The events that some responses have for a watch. -/
def delivered (out : List WatchResponse) (id : UInt64) : List WatchEvent :=
  (out.filter (fun r => r.watchId.toUInt64 = id)).flatMap WatchResponse.events

theorem delivered_append (xs ys : List WatchResponse) (id : UInt64) :
    delivered (xs ++ ys) id = delivered xs id ++ delivered ys id := by
  simp [delivered]

theorem delivered_of_forall {out : List WatchResponse} {id : UInt64}
    (h : ∀ r ∈ out, r.watchId.toUInt64 = id) (i : UInt64) :
    delivered out i = if i = id then out.flatMap WatchResponse.events else [] := by
  rw [delivered]
  split
  · rename_i hi
    rw [List.filter_eq_self.mpr (fun r hr => decide_eq_true ((h r hr).trans hi.symm))]
  · rename_i hi
    rw [List.filter_eq_nil_iff.mpr (fun r hr hdec =>
      hi ((of_decide_eq_true hdec).symm.trans (h r hr)))]
    rfl

variable {out : List WatchResponse} {c : Copy} {cs : List Copy} {d d' : Desk}

/-- The watch of a copy gets the bytes that are there, and no other watch gets anything. -/
theorem copyStep_conserves (h : copyStep B wire room τ c d = .ok (d', out)) (id : UInt64) :
    (delivered out id).map some ++ (d'.1 id).map Value.evt =
      (d.1 id).map Value.evt ++ if id = c.id then [wire.torn c.evt (c.written d.2)] else [] := by
  rw [copyStep] at h
  split at h
  · cases hsend : sendEvent B wire room c.id
        ⟨wire.event c.evt, wire.torn c.evt (c.written d.2), τ c.evt⟩ (d.1 c.id) with
    | error e =>
        simp only [hsend] at h
        cases h
    | ok r =>
        simp only [hsend] at h
        obtain ⟨rfl, rfl⟩ := Prod.mk.inj (Except.ok.inj h)
        rw [delivered_of_forall (watchId_of_sendEvent hsend)]
        dsimp only
        by_cases hid : id = c.id
        · subst hid
          rw [if_pos rfl, if_pos rfl, Function.update_self]
          exact sendEvent_conserves hsend
        · rw [if_neg hid, if_neg hid, Function.update_of_ne hid]
          exact (List.append_nil _).symm
  · cases h

/-- Nothing that is in a buffer is lost in a run. -/
theorem run_copies_conserves (h : run (copyStep B wire room τ) cs d = .ok (d', out))
    (id : UInt64) :
    ∃ more, (delivered out id).map some ++ (d'.1 id).map Value.evt =
      (d.1 id).map Value.evt ++ more := by
  induction cs generalizing d out with
  | nil =>
      obtain ⟨rfl, rfl⟩ := Prod.mk.inj (Except.ok.inj h)
      exact ⟨[], (List.append_nil _).symm⟩
  | cons c cs ih =>
      obtain ⟨d₁, out₁, out₂, hstep, hrun, rfl⟩ := run_cons_eq_ok.mp h
      obtain ⟨more, hrest⟩ := ih hrun
      refine ⟨(if id = c.id then [wire.torn c.evt (c.written d.2)] else []) ++ more, ?_⟩
      rw [delivered_append, List.map_append, List.append_assoc, hrest, ← List.append_assoc,
        copyStep_conserves hstep, List.append_assoc]

variable {last : UInt64} {loads : UInt64 → List WatchEvent} {written : List WatchResponse}

theorem map_heldAll (id : UInt64) :
    (heldAll wire last loads id).map Value.evt = (loads id).map some := by
  rw [heldAll, held, List.map_map]
  rfl

theorem feed_cons (c : Copy) (cs : List Copy) (id : UInt64) :
    feed (c :: cs) id = (if id = c.id then [c.evt] else []) ++ feed cs id := by
  by_cases hid : id = c.id
  · simp [feed, hid]
  · simp [feed, hid, Ne.symm hid]

/-- If every watch is sent its events, every copy was intact. -/
theorem intact_of_run
    (hrun : run (copyStep .zig wire room (fun _ => last)) cs (heldAll wire last loads, written) =
      .ok (d', out))
    (hsent : ∀ id ∈ cs.map Copy.id, (delivered out id).map some ++ (d'.1 id).map Value.evt =
      (loads id ++ feed cs id).map some) : Intact wire room last cs loads written := by
  induction cs generalizing loads written out with
  | nil => trivial
  | cons c cs ih =>
      obtain ⟨d₁, out₁, out₂, hstep, hrest, rfl⟩ := run_cons_eq_ok.mp hrun
      have hone := copyStep_conserves hstep
      simp only [map_heldAll] at hone
      have hintact : wire.torn c.evt (c.written written) = some c.evt := by
        obtain ⟨more, hmore⟩ := run_copies_conserves hrest c.id
        have hall := hsent c.id List.mem_cons_self
        rw [delivered_append, List.map_append, List.append_assoc, hmore, ← List.append_assoc, hone,
          feed_cons, if_pos rfl, if_pos rfl, List.append_assoc, List.map_append] at hall
        exact (List.cons.inj (List.append_cancel_left hall)).1
      obtain ⟨hcopy, -⟩ | ⟨resps, hcopy, -⟩ :=
        @copyStep_cases Env.plain wire room last loads written c hintact
      · rw [hcopy] at hstep
        cases hstep
      · rw [hcopy] at hstep
        obtain ⟨rfl, rfl⟩ := Prod.mk.inj (Except.ok.inj hstep)
        refine ⟨hintact, ih hrest (fun id hid => ?_)⟩
        have hload := hone id
        rw [map_heldAll, hintact] at hload
        apply List.append_cancel_left
        calc (delivered resps id).map some ++
              ((delivered out₂ id).map some ++ (d'.1 id).map Value.evt)
            = (loads id ++ feed (c :: cs) id).map some := by
              rw [← hsent id (List.mem_cons_of_mem _ hid), delivered_append, List.map_append,
                List.append_assoc]
          _ = ((loads id).map some ++ if id = c.id then [some c.evt] else []) ++
                (feed cs id).map some := by
              rw [feed_cons]
              split
              · simp
              · simp
          _ = (delivered resps id).map some ++ (Function.update loads c.id
                (loadAfter wire room (loads c.id) c.evt) id ++ feed cs id).map some := by
              rw [← hload, List.append_assoc, ← List.map_append]

end Conservation

section Round

variable {db : DbKv} {w : WatchMaps} {notices : List Notice} {last : UInt64}
  {order : Requests → Requests} {reqs : Requests}

/-- The messages of a round after those for its events. -/
def endMessages (order : Requests → Requests) (reqs : Requests) (notices : List Notice)
    (sent : List UInt64) : List StreamMessage :=
  (if notices.flatMap Notice.ids = [] then []
    else [.eventSync (lastRev notices) (notices.flatMap Notice.ids)]) ++
    notifies order reqs (lastRev notices) sent

theorem sentTo_endMessages {sent : List UInt64} :
    ∀ msg ∈ endMessages order reqs notices sent, msg.sentTo = [] := by
  intro msg hmsg
  obtain hsync | hnotify := List.mem_append.mp hmsg
  · split at hsync
    · cases hsync
    · rw [List.mem_singleton.mp hsync]
      rfl
  · obtain ⟨e, -, rfl⟩ := List.mem_map.mp hnotify
    rfl

theorem roundMessages_eq :
    roundMessages τ order reqs E db w notices =
      (matched db notices).flatMap (batch τ E db w) ++ endMessages order reqs notices
        (((matched db notices).flatMap (batch τ E db w)).flatMap StreamMessage.sentTo) :=
  List.append_assoc _ _ _

/-- In a round with intact copies the Zig build takes the actions of the messages one after the
other too. -/
theorem shardRecvs_of_intact
    (h : Intact wire room last (roundCopies E db w notices) (fun _ => []) []) :
    shardRecvs .zig E wire room (roundMessages (fun _ => last) order reqs E db w notices)
        (fun _ => []) =
      run (stepAll (act .zig E wire room))
        ((roundMessages (fun _ => last) order reqs E db w notices).flatMap StreamMessage.acts)
        (fun _ => []) := by
  rw [roundMessages_eq, shardRecvs_append, List.flatMap_append, run_append,
    roundCopies_acts (fun _ => rfl)]
  have hcopies := (shardRecvs_eq_copies (fun _ => rfl) (matched db notices)
    (heldAll wire last (fun _ => []), [])).trans (run_copies_of_intact (E := E) h)
  have hempty : heldAll wire last (fun _ => []) = fun _ => [] := rfl
  rw [hempty] at hcopies
  rw [hcopies]
  exact congrArg _ (funext (shardRecvs_eq (fun msg hmsg => .inr (sentTo_endMessages msg hmsg))))

end Round

end ServiceGrpc

end Turbokube
