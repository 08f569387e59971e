import Turbokube.Watch.Conns

/-!
# Packing events into responses

A watch sends its events in groups, each ended by a message that makes the service send what it has
packed.  Inside a group the service also sends when the counted size reaches the limit, and marks
the response if the next event has the revision of the last one packed.

The count goes on over the end of a group while the response starts anew.  So a group whose first
event reaches the limit makes the service send a response without events, which a client takes for a
progress notification.  `cutFlags` says where the count is started again, and `NoCutAtStart` that it
is never at the first event of a group.
-/

namespace Turbokube

open Encoding Lmdb

/-- The revision of an event. -/
def WatchEvent.rev (evt : WatchEvent) : Int := ((evt.kv.map KeyValue.modRevision).getD 0).toInt

/-- What the service counts for an event. -/
def WatchEvent.counted (evt : WatchEvent) : Nat := (evt.kv.map evt.size).getD 0

/-- A group of events, each with the revision of its scan, or a notification. -/
inductive FeedItem where
  | group (evts : List (Nat × WatchEvent)) (header : ResponseHeader)
  | notify (header : ResponseHeader)

namespace FeedItem

def events : FeedItem → List WatchEvent
  | group evts _ => evts.map Prod.snd
  | notify _ => []

def messages : FeedItem → List WatchMessage
  | group evts header => evts.map (fun e => .event e.1 e.2) ++ [.sync header]
  | notify header => [.notify header]

end FeedItem

/-- What a watch sends after its first message: events of non-decreasing revision, those of one
revision in one group, and no group without events. -/
structure Feed (feed : List FeedItem) : Prop where
  kv : ∀ evt ∈ feed.flatMap FeedItem.events, evt.kv.isSome = true
  ne_nil : ∀ evts header, .group evts header ∈ feed → evts ≠ []
  sorted : (feed.flatMap FeedItem.events).Pairwise (fun a b => a.rev ≤ b.rev)
  apart : feed.Pairwise (fun a b => ∀ evt ∈ a.events, ∀ evt' ∈ b.events, evt.rev ≠ evt'.rev)

/-- A message the service has taken, what it had counted before, and what it sent for it. -/
structure Taken where
  msg : WatchMessage
  size : Nat
  sent : List WatchResponse

def Packer.run (max : Nat) (id : Int64) :
    Packer → List WatchMessage → Option (Packer × List Taken)
  | p, [] => some (p, [])
  | p, msg :: msgs =>
      match p.take max id msg with
      | none => none
      | some (p', sent) =>
          match Packer.run max id p' msgs with
          | none => none
          | some (q, taken) => some (q, ⟨msg, p.size, sent⟩ :: taken)

/-- The responses of a run. -/
def responses (taken : List Taken) : List WatchResponse := taken.flatMap Taken.sent

/-- Two responses, the first sent earlier, do not share a revision, or the first is marked. -/
def Marked (a b : WatchResponse) : Prop :=
  ∀ evt ∈ a.events, ∀ evt' ∈ b.events, evt.rev = evt'.rev → a.fragment = true

/-- A response of two or more events was counted below the limit, and the count covers its
events. -/
def Taken.Within (max : Nat) (t : Taken) : Prop :=
  ∀ r ∈ t.sent, 2 ≤ r.events.length →
    t.size < max ∧ (r.events.map WatchEvent.counted).sum ≤ t.size

/-- A response without events that is no answer to the creation of the watch, its cancellation or a
notification. -/
def Taken.Fabricated (t : Taken) : Prop :=
  (∀ header, t.msg ≠ .notify header) ∧
    ∃ r ∈ t.sent, r.events = [] ∧ r.created = false ∧ r.canceled = false

/-- The events at which the limit is reached and the count started again with them and the overhead
of a response. -/
def cutFlags (max : Nat) : Nat → List Nat → List Bool
  | _, [] => []
  | n, sz :: szs =>
      if n + sz < max then false :: cutFlags max (n + sz) szs
      else true :: cutFlags max (sz + sizeMetaWatchResponse + sizeMetaHeader) szs

/-- The events that are the first of their group. -/
def startFlags : List Nat → List Bool
  | [] => []
  | _ :: szs => true :: szs.map (fun _ => false)

/-- Taken as one sequence and cut where their size reaches the limit, the events of the groups are
never cut at the start of a group. -/
def NoCutAtStart (max : Nat) (groups : List (List Nat)) : Prop :=
  ∀ flags ∈ (cutFlags max 0 groups.flatten).zip (groups.flatMap startFlags),
    ¬ (flags.1 = true ∧ flags.2 = true)

instance (max : Nat) (groups : List (List Nat)) : Decidable (NoCutAtStart max groups) :=
  inferInstanceAs (Decidable (∀ flags ∈ (cutFlags max 0 groups.flatten).zip
    (groups.flatMap startFlags), ¬ (flags.1 = true ∧ flags.2 = true)))

/-- The sizes of the events of the items. -/
def feedSizes (feed : List FeedItem) : List (List Nat) :=
  feed.map (fun item => item.events.map WatchEvent.counted)

section Run

variable {max : Nat} {id : Int64} {p p' : Packer}

theorem Packer.run_cons {msg : WatchMessage} {msgs : List WatchMessage} {q : Packer}
    {sent : List WatchResponse} {taken : List Taken} (htake : p.take max id msg = some (p', sent))
    (hrun : p'.run max id msgs = some (q, taken)) :
    p.run max id (msg :: msgs) = some (q, ⟨msg, p.size, sent⟩ :: taken) := by
  rw [run, htake]
  simp only [hrun]

theorem Packer.run_append {xs ys : List WatchMessage} {q : Packer} {taken taken' : List Taken}
    (hxs : p.run max id xs = some (p', taken)) (hys : p'.run max id ys = some (q, taken')) :
    p.run max id (xs ++ ys) = some (q, taken ++ taken') := by
  induction xs generalizing p taken with
  | nil =>
      obtain ⟨rfl, rfl⟩ := Prod.mk.inj (Option.some.inj hxs)
      exact hys
  | cons msg xs ih =>
      rw [run] at hxs
      cases htake : p.take max id msg with
      | none =>
          rw [htake] at hxs
          cases hxs
      | some r =>
          rw [htake] at hxs
          simp only at hxs
          cases hrest : r.1.run max id xs with
          | none =>
              rw [hrest] at hxs
              cases hxs
          | some s =>
              rw [hrest] at hxs
              obtain ⟨rfl, rfl⟩ := Prod.mk.inj (Option.some.inj hxs)
              exact run_cons htake (ih hrest)

theorem WatchEvent.counted_eq {evt : WatchEvent} {kv : KeyValue} (h : evt.kv = some kv) :
    evt.counted = evt.size kv := by
  rw [counted, h]
  rfl

theorem WatchEvent.rev_eq {evt : WatchEvent} {kv : KeyValue} (h : evt.kv = some kv) :
    evt.rev = kv.modRevision.toInt := by
  rw [rev, h]
  rfl

/-- The count after an event. -/
def countAfter (max n sz : Nat) : Nat :=
  if n + sz < max then n + sz else sz + sizeMetaWatchResponse + sizeMetaHeader

theorem cutFlags_append (n : Nat) (xs ys : List Nat) :
    cutFlags max n (xs ++ ys) =
      cutFlags max n xs ++ cutFlags max (xs.foldl (countAfter max) n) ys := by
  induction xs generalizing n with
  | nil => rfl
  | cons sz xs ih =>
      rw [List.cons_append, cutFlags, cutFlags, List.foldl_cons, countAfter]
      split
      · rw [ih, List.cons_append]
      · rw [ih, List.cons_append]

theorem cutFlags_length (n : Nat) (xs : List Nat) : (cutFlags max n xs).length = xs.length := by
  induction xs generalizing n with
  | nil => rfl
  | cons sz xs ih =>
      rw [cutFlags]
      split
      · rw [List.length_cons, ih, List.length_cons]
      · rw [List.length_cons, ih, List.length_cons]

theorem startFlags_length (xs : List Nat) : (startFlags xs).length = xs.length := by
  cases xs with
  | nil => rfl
  | cons sz xs => simp [startFlags]

/-- The response under construction: what it holds so far, with the revision of the last event in
its header and its events counted. -/
structure Packer.Holding (max : Nat) (p : Packer) : Prop where
  fragment : p.resp.fragment = false
  created : p.resp.created = false
  canceled : p.resp.canceled = false
  last : ∀ evt ∈ p.resp.events.getLast?, evt.rev = p.resp.header.revision.toInt
  counted : (p.resp.events.map WatchEvent.counted).sum ≤ p.size
  within : 2 ≤ p.resp.events.length → p.size < max

/-- What is sent has the events. -/
structure Carries (max : Nat) (evts : List WatchEvent) (taken : List Taken) : Prop where
  events : (responses taken).flatMap WatchResponse.events = evts
  marked : (responses taken).Pairwise Marked
  within : ∀ t ∈ taken, t.Within max

section Carries

variable {evts evts' : List WatchEvent} {taken taken' : List Taken}

theorem Carries.skip (h : Carries max evts taken) (msg : WatchMessage) (n : Nat) :
    Carries max evts (⟨msg, n, []⟩ :: taken) :=
  ⟨h.events, h.marked, List.forall_mem_cons.mpr ⟨List.forall_mem_nil _, h.within⟩⟩

theorem Carries.cons (h : Carries max evts taken) {msg : WatchMessage} {n : Nat} (r : WatchResponse)
    (hr : Taken.Within max ⟨msg, n, [r]⟩) (hmark : ∀ r' ∈ responses taken, Marked r r') :
    Carries max (r.events ++ evts) (⟨msg, n, [r]⟩ :: taken) :=
  ⟨congrArg (r.events ++ ·) h.events, List.pairwise_cons.mpr ⟨hmark, h.marked⟩,
    List.forall_mem_cons.mpr ⟨hr, h.within⟩⟩

theorem Carries.append (h : Carries max evts taken) (h' : Carries max evts' taken')
    (hapart : ∀ evt ∈ evts, ∀ evt' ∈ evts', evt.rev ≠ evt'.rev) :
    Carries max (evts ++ evts') (taken ++ taken') := by
  have hresponses : responses (taken ++ taken') = responses taken ++ responses taken' :=
    List.flatMap_append
  refine ⟨?_, ?_, List.forall_mem_append.mpr ⟨h.within, h'.within⟩⟩
  · rw [hresponses, List.flatMap_append, h.events, h'.events]
  · rw [hresponses]
    refine List.pairwise_append.mpr ⟨h.marked, h'.marked, fun a ha b hb x hx y hy hxy => ?_⟩
    refine absurd hxy (hapart x ?_ y ?_)
    · rw [← h.events]
      exact List.mem_flatMap.mpr ⟨a, ha, hx⟩
    · rw [← h'.events]
      exact List.mem_flatMap.mpr ⟨b, hb, hy⟩

theorem exists_fabricated_cons {t : Taken} :
    (∃ t' ∈ t :: taken, t'.Fabricated) ↔ t.Fabricated ∨ ∃ t' ∈ taken, t'.Fabricated := by
  simp only [List.mem_cons, or_and_right, exists_or, exists_eq_left]

end Carries

/-- What a run of one group from `p` does. -/
structure GroupRun (max : Nat) (p p' : Packer) (evts : List WatchEvent) (taken : List Taken) :
    Prop where
  holding : p'.Holding max
  idle : p'.resp.events = []
  size : p'.size = (evts.map WatchEvent.counted).foldl (countAfter max) p.size
  carries : Carries max (p.resp.events ++ evts) taken
  fabricated : (∃ t ∈ taken, t.Fabricated) ↔
    p.resp.events = [] ∧ ∃ sz ∈ (evts.map WatchEvent.counted).head?, ¬ p.size + sz < max

theorem Packer.Holding.sent {msg : WatchMessage} {r : WatchResponse} (h : p.Holding max)
    (hr : r.events = p.resp.events) : (⟨msg, p.size, [r]⟩ : Taken).Within max := by
  intro r' hr' hlen
  rw [List.mem_singleton.mp hr', hr] at *
  exact ⟨h.within hlen, h.counted⟩

/-- The event fits. -/
theorem Packer.Holding.pack {evt : WatchEvent} {kv : KeyValue} (h : p.Holding max) (id : Int64)
    (rev : Nat) (hkv : evt.kv = some kv) (hfits : p.size + evt.counted < max) :
    ∃ p', p.take max id (.event rev evt) = some (p', []) ∧ p'.Holding max ∧
      p'.resp.events = p.resp.events ++ [evt] ∧ p'.size = p.size + evt.counted := by
  rw [WatchEvent.counted_eq hkv] at hfits ⊢
  have htake : p.take max id (.event rev evt) =
      some ({ p with
        size := p.size + evt.size kv
        resp := { p.resp with
          header := { p.resp.header with revision := kv.modRevision }
          events := p.resp.events ++ [evt] } }, []) := by
    simp only [take, hkv, hfits, if_true]
  refine ⟨_, htake, ?_, rfl, rfl⟩
  refine ⟨h.fragment, h.created, h.canceled, fun evt' hevt' => ?_, ?_, fun _ => hfits⟩
  · rw [List.getLast?_append_of_ne_nil _ (by simp)] at hevt'
    obtain rfl : evt = evt' := by simpa using hevt'
    exact WatchEvent.rev_eq hkv
  · have := h.counted
    simp only [List.map_append, List.map_singleton, List.sum_append, List.sum_singleton,
      WatchEvent.counted_eq hkv]
    omega

/-- The event does not fit: what was packed is sent and the event starts a response. -/
theorem Packer.Holding.cut {evt : WatchEvent} {kv : KeyValue} (h : p.Holding max) (id : Int64)
    (rev : Nat) (hkv : evt.kv = some kv) (hfull : ¬ p.size + evt.counted < max) :
    ∃ p' r, p.take max id (.event rev evt) = some (p', [r]) ∧ p'.Holding max ∧
      p'.resp.events = [evt] ∧
      p'.size = evt.counted + sizeMetaWatchResponse + sizeMetaHeader ∧
      r.events = p.resp.events ∧ r.created = false ∧ r.canceled = false ∧
      (p.resp.header.revision.toInt = evt.rev → r.fragment = true) := by
  rw [WatchEvent.counted_eq hkv] at hfull ⊢
  have htake : p.take max id (.event rev evt) =
      some ({ p with
        size := evt.size kv + sizeMetaWatchResponse + sizeMetaHeader
        resp := {
          header := ⟨p.clusterId, p.memberId, kv.modRevision⟩
          watchId := p.id
          events := [evt] } },
        [{ p.resp with
          fragment := p.resp.fragment || p.resp.header.revision = kv.modRevision
          header := { p.resp.header with revision := (UInt64.ofNat rev).toInt64 } }]) := by
    simp only [take, hkv, hfull, if_false]
  refine ⟨_, _, htake, ?_, rfl, rfl, rfl, h.created, h.canceled, fun hrev => ?_⟩
  · refine ⟨rfl, rfl, rfl, fun evt' hevt' => ?_, ?_, fun hlen => ?_⟩
    · obtain rfl : evt = evt' := by simpa using hevt'
      exact WatchEvent.rev_eq hkv
    · simp only [List.map_singleton, List.sum_singleton, WatchEvent.counted_eq hkv]
      omega
    · simp at hlen
  · rw [WatchEvent.rev_eq hkv] at hrev
    simp [Int64.toInt_inj.mp hrev]

/-- The end of a group, when something is packed. -/
theorem Packer.Holding.sync {header : ResponseHeader} (h : p.Holding max)
    (hne : p.resp.events ≠ []) :
    ∃ p' taken, p.run max id [.sync header] = some (p', taken) ∧ GroupRun max p p' [] taken := by
  have htake : p.take max id (.sync header) =
      some ({ p with resp := { header := ⟨p.clusterId, p.memberId, 0⟩, watchId := p.id } },
        [{ p.resp with header := header }]) := by
    simp only [take, hne, if_false]
  refine ⟨_, _, run_cons htake rfl, ⟨⟨rfl, rfl, rfl, ?_, ?_, ?_⟩, rfl, rfl, ?_, ?_⟩⟩
  · intro evt hevt
    cases hevt
  · exact Nat.zero_le _
  · intro hlen
    cases hlen
  · have hnil : Carries max [] [] := ⟨rfl, .nil, List.forall_mem_nil _⟩
    exact hnil.cons { p.resp with header := header } (h.sent rfl) (List.forall_mem_nil _)
  · refine iff_of_false ?_ (fun hc => hne hc.1)
    rintro ⟨t, ht, -, r, hr, hnil, -⟩
    rw [List.mem_singleton.mp ht] at hr
    rw [List.mem_singleton.mp hr] at hnil
    exact hne hnil

/-- One group, from any response under construction. -/
theorem Packer.Holding.run_group {evts : List (Nat × WatchEvent)} (h : p.Holding max)
    (id : Int64) (header : ResponseHeader) (hkv : ∀ e ∈ evts, e.2.kv.isSome = true)
    (hsorted : (p.resp.events ++ evts.map Prod.snd).Pairwise (fun a b => a.rev ≤ b.rev))
    (hne : p.resp.events ++ evts.map Prod.snd ≠ []) :
    ∃ p' taken, p.run max id (evts.map (fun e => .event e.1 e.2) ++ [.sync header]) =
        some (p', taken) ∧ GroupRun max p p' (evts.map Prod.snd) taken := by
  induction evts generalizing p with
  | nil =>
      rw [List.map_nil, List.append_nil] at hne
      exact h.sync hne
  | cons e evts ih =>
      obtain ⟨rev, evt⟩ := e
      obtain ⟨kv, hevt⟩ := Option.isSome_iff_exists.mp (hkv _ List.mem_cons_self)
      have hkv' := fun e he => hkv e (List.mem_cons_of_mem _ he)
      simp only [List.map_cons] at hsorted hne hevt ⊢
      by_cases hfits : p.size + evt.counted < max
      · obtain ⟨p₁, htake, h₁, hevents₁, hsize₁⟩ := h.pack id rev hevt hfits
        have hsplit : p₁.resp.events ++ evts.map Prod.snd =
            p.resp.events ++ evt :: evts.map Prod.snd := by
          rw [hevents₁, List.append_assoc, List.singleton_append]
        obtain ⟨p', taken, hrun, hgroup⟩ := ih h₁ hkv' (by rw [hsplit]; exact hsorted)
          (by rw [hsplit]; exact hne)
        refine ⟨p', _, run_cons htake hrun, ⟨hgroup.holding, hgroup.idle, ?_, ?_, ?_⟩⟩
        · rw [hgroup.size, hsize₁, List.map_cons, List.foldl_cons, countAfter, if_pos hfits]
        · rw [← hsplit]
          exact hgroup.carries.skip _ _
        · rw [exists_fabricated_cons]
          refine iff_of_false ?_ ?_
          · rintro (⟨-, r, hr, -⟩ | hfab)
            · cases hr
            · have hnil := (hgroup.fabricated.mp hfab).1
              rw [hevents₁] at hnil
              simp at hnil
          · rintro ⟨-, sz, hsz, hfull⟩
            obtain rfl : evt.counted = sz := by simpa using hsz
            exact hfull hfits
      · obtain ⟨p₁, r, htake, h₁, hevents₁, hsize₁, hr, hcreated, hcanceled, hfragment⟩ :=
          h.cut id rev hevt hfits
        obtain ⟨hheld, hrest, hle⟩ := List.pairwise_append.mp hsorted
        have hsplit : p₁.resp.events ++ evts.map Prod.snd = evt :: evts.map Prod.snd := by
          rw [hevents₁, List.singleton_append]
        obtain ⟨p', taken, hrun, hgroup⟩ := ih h₁ hkv' (by rw [hsplit]; exact hrest)
          (by rw [hsplit]; simp)
        refine ⟨p', _, run_cons htake hrun, ⟨hgroup.holding, hgroup.idle, ?_, ?_, ?_⟩⟩
        · rw [hgroup.size, hsize₁, List.map_cons, List.foldl_cons, countAfter, if_neg hfits]
        · -- a revision the sent response shares with a later one is that of its last event
          rw [← hsplit, ← hr]
          refine hgroup.carries.cons r (h.sent hr) (fun b hb => ?_)
          intro x hx y hy hxy
          have hy' : y ∈ evt :: evts.map Prod.snd := by
            rw [← hsplit, ← hgroup.carries.events]
            exact List.mem_flatMap.mpr ⟨b, hb, hy⟩
          have hevty : evt.rev ≤ y.rev := by
            rcases List.mem_cons.mp hy' with rfl | hy'
            · exact le_rfl
            · exact List.rel_of_pairwise_cons hrest hy'
          rw [hr] at hx
          have hxevt : x.rev ≤ evt.rev := hle x hx evt List.mem_cons_self
          obtain ⟨z, hz⟩ : ∃ z, p.resp.events.getLast? = some z :=
            ⟨_, List.getLast?_eq_getLast_of_ne_nil (List.ne_nil_of_mem hx)⟩
          have hzevt : z.rev ≤ evt.rev := hle z (List.mem_of_getLast? hz) evt List.mem_cons_self
          have hxz : x.rev ≤ z.rev := by
            obtain ⟨ys, hys⟩ := List.getLast?_eq_some_iff.mp hz
            rw [hys] at hx hheld
            rcases List.mem_append.mp hx with hx | hx
            · exact (List.pairwise_append.mp hheld).2.2 x hx z (List.mem_singleton_self z)
            · rw [List.mem_singleton.mp hx]
          refine hfragment ?_
          rw [← h.last z hz]
          omega
        · rw [exists_fabricated_cons]
          constructor
          · rintro (⟨-, r', hr', hnil, -⟩ | hfab)
            · rw [List.mem_singleton.mp hr', hr] at hnil
              exact ⟨hnil, evt.counted, rfl, hfits⟩
            · have hnil := (hgroup.fabricated.mp hfab).1
              rw [hevents₁] at hnil
              cases hnil
          · rintro ⟨hnil, -⟩
            exact .inl ⟨fun header heq => (by cases heq), r, List.mem_singleton_self r,
              hr.trans hnil, hcreated, hcanceled⟩

/-- A run of a feed. -/
structure FeedRun (max : Nat) (p p' : Packer) (feed : List FeedItem) (taken : List Taken) :
    Prop where
  holding : p'.Holding max
  idle : p'.resp.events = []
  size : p'.size = (feedSizes feed).flatten.foldl (countAfter max) p.size
  carries : Carries max (feed.flatMap FeedItem.events) taken
  fabricated : (∃ t ∈ taken, t.Fabricated) ↔
    ∃ flags ∈ (cutFlags max p.size (feedSizes feed).flatten).zip
      ((feedSizes feed).flatMap startFlags), flags.1 = true ∧ flags.2 = true

/-- The first event of a group is the only one that starts it. -/
theorem cut_at_start_iff (n : Nat) (szs : List Nat) :
    (∃ flags ∈ (cutFlags max n szs).zip (startFlags szs), flags.1 = true ∧ flags.2 = true) ↔
      ∃ sz ∈ szs.head?, ¬ n + sz < max := by
  cases szs with
  | nil => simp [cutFlags]
  | cons sz szs =>
      have hrest : ∀ l : List Bool, ∀ flags ∈ l.zip (szs.map (fun _ => false)),
          ¬ (flags.1 = true ∧ flags.2 = true) := by
        intro l flags hflags hc
        obtain ⟨_, _, heq⟩ := List.mem_map.mp (List.of_mem_zip hflags).2
        rw [← heq] at hc
        cases hc.2
      rw [cutFlags, startFlags]
      split
      · rename_i hfits
        rw [List.zip_cons_cons]
        refine iff_of_false ?_ ?_
        · rintro ⟨flags, hflags, hc⟩
          rcases List.mem_cons.mp hflags with rfl | hflags
          · cases hc.1
          · exact hrest _ flags hflags hc
        · rintro ⟨sz', hsz', hfull⟩
          obtain rfl : sz = sz' := by simpa using hsz'
          exact hfull hfits
      · rename_i hfull
        exact iff_of_true ⟨(true, true), by simp, rfl, rfl⟩ ⟨sz, rfl, hfull⟩

/-- A run of items from a packer that holds nothing. -/
theorem Packer.Holding.run_feed {feed : List FeedItem} (h : p.Holding max) (id : Int64)
    (hidle : p.resp.events = []) (hfeed : Feed feed) :
    ∃ p' taken, p.run max id (feed.flatMap FeedItem.messages) = some (p', taken) ∧
      FeedRun max p p' feed taken := by
  induction feed generalizing p with
  | nil =>
      exact ⟨p, [], rfl, h, hidle, rfl, ⟨rfl, .nil, List.forall_mem_nil _⟩,
        by simp [feedSizes, cutFlags]⟩
  | cons item feed ih =>
      obtain ⟨hkv, hne, hsorted, hapart⟩ := hfeed
      rw [List.flatMap_cons] at hkv hsorted
      obtain ⟨hitem, hlater, -⟩ := List.pairwise_append.mp hsorted
      obtain ⟨hfar, hapart⟩ := List.pairwise_cons.mp hapart
      have hrest : Feed feed := ⟨fun evt hevt => hkv evt (List.mem_append_right _ hevt),
        fun evts header hmem => hne evts header (List.mem_cons_of_mem _ hmem), hlater, hapart⟩
      cases item with
      | notify header =>
          obtain ⟨p', taken, hrun, hrest⟩ := ih h hidle hrest
          refine ⟨p', _, run_cons rfl hrun, hrest.holding, hrest.idle, hrest.size,
            hrest.carries.cons { header := header, watchId := p.id } (fun r hr hlen => ?_)
              (fun _ _ _ hevt => by cases hevt), ?_⟩
          · rw [List.mem_singleton.mp hr] at hlen
            cases hlen
          · rw [exists_fabricated_cons]
            refine Iff.trans ⟨fun hfab => ?_, .inr⟩ hrest.fabricated
            exact hfab.resolve_left (fun hnotify => hnotify.1 header rfl)
      | group evts header =>
          have hkv' : ∀ e ∈ evts, e.2.kv.isSome = true := fun e he =>
            hkv e.2 (List.mem_append_left _ (List.mem_map_of_mem he))
          have hevts : evts.map Prod.snd ≠ [] := by
            simpa using hne evts header List.mem_cons_self
          obtain ⟨p₁, taken₁, hrun₁, hgroup⟩ := h.run_group id header hkv'
            (by rw [hidle]; exact hitem) (by rw [hidle]; exact hevts)
          obtain ⟨p', taken, hrun, hrest⟩ := ih hgroup.holding hgroup.idle hrest
          have hsizes : feedSizes (.group evts header :: feed) =
              (evts.map Prod.snd).map WatchEvent.counted :: feedSizes feed := rfl
          have hcarries := hgroup.carries
          rw [hidle, List.nil_append] at hcarries
          refine ⟨p', _, run_append hrun₁ hrun, hrest.holding, hrest.idle, ?_, ?_, ?_⟩
          · rw [hrest.size, hgroup.size, hsizes, List.flatten_cons, List.foldl_append]
          · refine hcarries.append hrest.carries (fun x hx y hy => ?_)
            obtain ⟨item, hitem, hy⟩ := List.mem_flatMap.mp hy
            exact hfar item hitem x hx y hy
          · have hzip : (cutFlags max p.size (feedSizes (.group evts header :: feed)).flatten).zip
                ((feedSizes (.group evts header :: feed)).flatMap startFlags) =
                (cutFlags max p.size ((evts.map Prod.snd).map WatchEvent.counted)).zip
                  (startFlags ((evts.map Prod.snd).map WatchEvent.counted)) ++
                (cutFlags max p₁.size (feedSizes feed).flatten).zip
                  ((feedSizes feed).flatMap startFlags) := by
              rw [hsizes, List.flatten_cons, cutFlags_append, List.flatMap_cons, ← hgroup.size,
                List.zip_append (by rw [cutFlags_length, startFlags_length])]
            simp only [hzip, List.mem_append, or_and_right, exists_or]
            rw [hgroup.fabricated, hrest.fabricated, cut_at_start_iff, and_iff_right hidle]

end Run

/-- The first message is answered, and then nothing is packed. -/
theorem Packer.take_init (max : Nat) (id : Int64) (header : ResponseHeader) :
    ∃ p' r, ({} : Packer).take max id (.init header) = some (p', [r]) ∧ p'.Holding max ∧
      p'.resp.events = [] ∧ p'.size = 0 ∧ r.events = [] ∧ r.created = true :=
  ⟨_, _, rfl, ⟨rfl, rfl, rfl, fun evt hevt => (by cases hevt), Nat.zero_le _,
    fun hlen => (by cases hlen)⟩, rfl, rfl, rfl, rfl⟩

/-- A run of a whole watch. -/
theorem Packer.run_watch (max : Nat) (id : Int64) (header : ResponseHeader) {feed : List FeedItem}
    (hfeed : Feed feed) :
    ∃ p' taken, ({} : Packer).run max id (.init header :: feed.flatMap FeedItem.messages) =
        some (p', taken) ∧ Carries max (feed.flatMap FeedItem.events) taken ∧
      ((∃ t ∈ taken, t.Fabricated) ↔ ¬ NoCutAtStart max (feedSizes feed)) := by
  obtain ⟨p₁, r, htake, h₁, hidle₁, hsize₁, hr, hcreated⟩ := take_init max id header
  obtain ⟨p', taken, hrun, hrest⟩ := h₁.run_feed id hidle₁ hfeed
  refine ⟨p', _, run_cons htake hrun, ?_, ?_⟩
  · rw [← List.nil_append (feed.flatMap _), ← hr]
    refine hrest.carries.cons r (fun r' hr' hlen => ?_) (fun _ _ x hx => ?_)
    · rw [List.mem_singleton.mp hr', hr] at hlen
      cases hlen
    · rw [hr] at hx
      cases hx
  · rw [exists_fabricated_cons, hrest.fabricated, hsize₁, NoCutAtStart]
    push Not
    refine or_iff_right ?_
    rintro ⟨-, r', hr', -, hcreated', -⟩
    rw [List.mem_singleton.mp hr', hcreated] at hcreated'
    cases hcreated'

/-- The service packs what a watch sends faithfully, whatever the limit: up to the end of any feed
the responses have the events that were received, in order and each once.  A response that shares a
revision with a later one is marked as a fragment, and one of two or more events was counted below
the limit. -/
theorem watch_packs_events (max : Nat) (id : Int64) (header : ResponseHeader)
    (feed : List FeedItem) (hfeed : Feed feed) :
    ∃ p' taken, ({} : Packer).run max id (.init header :: feed.flatMap FeedItem.messages) =
        some (p', taken) ∧
      (responses taken).flatMap WatchResponse.events = feed.flatMap FeedItem.events ∧
      (responses taken).Pairwise Marked ∧ ∀ t ∈ taken, t.Within max := by
  obtain ⟨p', taken, hrun, hcarries, -⟩ := Packer.run_watch max id header hfeed
  exact ⟨p', taken, hrun, hcarries.events, hcarries.marked, hcarries.within⟩

/-- A put of `a` at a revision. -/
def putOfA (rev : Int64) : WatchEvent := ⟨.put, some ⟨[97], 2, rev, 1, [], 0⟩, none⟩

/-- Two groups of one put each, the first at revision 2 and the second at revision 3. -/
def twoGroups : List FeedItem :=
  [.group [(2, putOfA 2)] ⟨1, 1, 2⟩, .group [(3, putOfA 3)] ⟨1, 1, 3⟩]

theorem feed_twoGroups : Feed twoGroups := by
  refine ⟨by decide, ?_, by decide, by decide⟩
  intro evts header hmem
  rcases List.mem_cons.mp hmem with heq | hmem
  · obtain ⟨rfl, -⟩ := FeedItem.group.inj heq
    exact List.cons_ne_nil _ _
  · obtain ⟨rfl, -⟩ := FeedItem.group.inj (List.mem_singleton.mp hmem)
    exact List.cons_ne_nil _ _

theorem watch_packs_two_groups :
    ∃ p' taken, ({} : Packer).run 1000 1 (.init ⟨1, 1, 1⟩ :: twoGroups.flatMap FeedItem.messages) =
        some (p', taken) ∧
      (responses taken).flatMap WatchResponse.events = [putOfA 2, putOfA 3] ∧
      (responses taken).Pairwise Marked ∧ ∀ t ∈ taken, t.Within 1000 :=
  watch_packs_events 1000 1 ⟨1, 1, 1⟩ twoGroups feed_twoGroups

/-- The service sends no response without events but the first one and those for notifications,
exactly if the count, which goes on over the groups, reaches the limit at the first event of no
group.  A limit above every event is not enough. -/
theorem no_progress_fabricated_iff (max : Nat) (id : Int64) (header : ResponseHeader)
    (feed : List FeedItem) (hfeed : Feed feed) :
    ∃ p' taken, ({} : Packer).run max id (.init header :: feed.flatMap FeedItem.messages) =
        some (p', taken) ∧
      ((∀ t ∈ taken, ¬ t.Fabricated) ↔ NoCutAtStart max (feedSizes feed)) := by
  obtain ⟨p', taken, hrun, -, hfab⟩ := Packer.run_watch max id header hfeed
  refine ⟨p', taken, hrun, ?_⟩
  rw [← not_iff_not, ← hfab]
  push Not
  exact Iff.rfl

theorem no_progress_fabricated_below_1100 :
    NoCutAtStart 1100 (feedSizes twoGroups) ∧
      ∃ p' taken,
        ({} : Packer).run 1100 1 (.init ⟨1, 1, 1⟩ :: twoGroups.flatMap FeedItem.messages) =
          some (p', taken) ∧ ∀ t ∈ taken, ¬ t.Fabricated := by
  have hcut : NoCutAtStart 1100 (feedSizes twoGroups) := by decide
  obtain ⟨p', taken, hrun, hiff⟩ :=
    no_progress_fabricated_iff 1100 1 ⟨1, 1, 1⟩ twoGroups feed_twoGroups
  exact ⟨hcut, p', taken, hrun, hiff.mpr hcut⟩

/-- Two events of size 513 and a limit of 1000: for the second group the service first sends a
response without events, at the revision of the event that follows. -/
theorem progress_fabricated_at_1000 :
    Feed twoGroups ∧ (∀ evt ∈ twoGroups.flatMap FeedItem.events, evt.counted < 1000) ∧
      ∃ p' taken,
        ({} : Packer).run 1000 1 (.init ⟨1, 1, 1⟩ :: twoGroups.flatMap FeedItem.messages) =
          some (p', taken) ∧
        (∃ t ∈ taken, t.Fabricated) ∧
        (responses taken).map (fun r => (r.header.revision, r.events)) =
          [(1, []), (2, [putOfA 2]), (3, []), (3, [putOfA 3])] := by
  refine ⟨feed_twoGroups, by decide, _, _, rfl, ?_, rfl⟩
  refine ⟨_, .tail _ (.tail _ (.tail _ (.head _))), ?_, _, .head _, rfl, rfl, rfl⟩
  intro header heq
  cases heq

end Turbokube
