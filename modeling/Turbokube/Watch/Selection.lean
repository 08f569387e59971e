import Turbokube.Model.StorageStream

/-!
# The watches of a notice

A round looks up the requests of the watches that its notices name and decides for each event which
of them get it.  The Go build passes over a watch that is not in the cache and compares a filter by
its low byte.  The Zig build stops at such a watch, and at a filter that is not a byte.  Where the
Zig build does not stop, both find the same requests and select the same watches.
-/

namespace Turbokube

open Encoding Lmdb

/-- The filters up to the first that is the type of the event are bytes. -/
def castable (etype : EventType) : List Int32 → Bool
  | [] => true
  | f :: filters =>
      decide (0 ≤ f ∧ f ≤ 255) &&
        (decide (etype.toUInt8 = f.toUInt32.toUInt8) || castable etype filters)

namespace WatchMaps

/-- The request of a watch that is in the cache. -/
def request (w : WatchMaps) (id : UInt64) : Option WatchCreateRequest :=
  match w.cache id with
  | .request req => some req
  | .absent | .malformed => none

def wantsPrev (w : WatchMaps) (id : UInt64) : Bool :=
  (w.request id).any WatchCreateRequest.prevKv

/-- The watch was created after the event. -/
def late (w : WatchMaps) (evt : KvEvent) (id : UInt64) : Bool :=
  decide (0 < w.rev id ∧ evt.rev.upper ≤ w.rev id)

/-- Whether a watch gets an event. -/
def gets (w : WatchMaps) (evt : KvEvent) (id : UInt64) : Bool :=
  (w.request id).any (fun req =>
    !w.late evt id && (!req.filtered evt.etype && StorageKv.holds req evt.key))

/-- The filters of the watch can be compared with the event, or are not looked at. -/
def casts (w : WatchMaps) (evt : KvEvent) (id : UInt64) : Bool :=
  (w.request id).all (fun req => w.late evt id || castable evt.etype req.filters)

end WatchMaps

/-- Whether a watch of the notice wants the previous record. -/
def Notice.withPrev (w : WatchMaps) (notice : Notice) : Bool :=
  decide (0 < notice.ids.countP w.wantsPrev)

namespace StorageKv

variable {w : WatchMaps}

section Select

variable {evt : KvEvent} {etype : EventType} {filters : List Int32} {req : WatchCreateRequest}
  {id : UInt64}

theorem go_filtered_eq (etype : EventType) (filters : List Int32) :
    filtered .go etype filters =
      .ok (filters.any (fun f => f.toUInt32.toUInt8 = etype.toUInt8)) := by
  induction filters with
  | nil => rfl
  | cons f filters ih =>
      have hbyte : Build.go.filterByte f = .ok f.toUInt32.toUInt8 := rfl
      rw [filtered, hbyte]
      simp only [ih, List.any_cons]
      by_cases heq : etype.toUInt8 = f.toUInt32.toUInt8
      · simp [heq]
      · simp [heq, Ne.symm heq]

theorem zig_filtered_eq_ok {dropped : Bool} :
    filtered .zig etype filters = .ok dropped ↔
      castable etype filters = true ∧
        dropped = filters.any (fun f => f.toUInt32.toUInt8 = etype.toUInt8) := by
  induction filters with
  | nil =>
      rw [filtered, castable]
      simp [eq_comm]
  | cons f filters ih =>
      have hbyte : Build.zig.filterByte f = Build.zigFilterByte f := rfl
      rw [filtered, castable, hbyte, Build.zigFilterByte, List.any_cons]
      by_cases hrange : 0 ≤ f ∧ f ≤ 255
      · rw [if_pos hrange]
        by_cases heq : etype.toUInt8 = f.toUInt32.toUInt8
        · simp [hrange, heq, eq_comm]
        · simp [hrange, heq, Ne.symm heq, ih]
      · rw [if_neg hrange]
        simp [hrange]

theorem gets_eq (h : w.request id = some req) :
    w.gets evt id = (!w.late evt id && (!req.filtered evt.etype && holds req evt.key)) := by
  rw [WatchMaps.gets, h]
  rfl

theorem go_wants_eq (h : w.request id = some req) :
    wants .go (w.rev id) req evt = .ok (w.gets evt id) := by
  rw [gets_eq h, wants, go_filtered_eq, WatchMaps.late]
  by_cases hlate : 0 < w.rev id ∧ evt.rev.upper ≤ w.rev id
  · rw [if_pos hlate, decide_eq_true hlate]
    rfl
  · rw [if_neg hlate, decide_eq_false hlate]
    rfl

theorem zig_wants_eq_ok (h : w.request id = some req) {wanted : Bool} :
    wants .zig (w.rev id) req evt = .ok wanted ↔
      w.casts evt id = true ∧ wanted = w.gets evt id := by
  rw [gets_eq h, wants, WatchMaps.casts, h, WatchMaps.late]
  by_cases hlate : 0 < w.rev id ∧ evt.rev.upper ≤ w.rev id
  · rw [if_pos hlate, decide_eq_true hlate]
    simp [eq_comm]
  · rw [if_neg hlate, decide_eq_false hlate]
    constructor
    · intro hok
      cases hfilter : filtered .zig evt.etype req.filters with
      | error e =>
          rw [hfilter] at hok
          cases hok
      | ok dropped =>
          rw [hfilter] at hok
          obtain ⟨hcast, rfl⟩ := zig_filtered_eq_ok.mp hfilter
          obtain rfl := Except.ok.inj hok
          exact ⟨hcast, rfl⟩
    · rintro ⟨hcast, rfl⟩
      rw [zig_filtered_eq_ok.mpr ⟨hcast, rfl⟩]
      rfl

/-- The watches of a notice that get an event, without the previous record and with it. -/
def selected (w : WatchMaps) (evt : KvEvent) (ids : List UInt64) : List UInt64 × List UInt64 :=
  (ids.filter (fun id => w.gets evt id && !w.wantsPrev id),
    ids.filter (fun id => w.gets evt id && w.wantsPrev id))

variable {B : Build} {reqs : Requests} {ids : List UInt64}

theorem selectIds_eq (hreqs : ∀ id ∈ ids, reqs.lookup id = w.request id)
    (hwants : ∀ id ∈ ids, ∀ req, w.request id = some req →
      wants B (w.rev id) req evt = .ok (w.gets evt id)) :
    selectIds B w reqs evt ids = .ok (selected w evt ids) := by
  induction ids with
  | nil => rfl
  | cons id ids ih =>
      have hrest := ih (fun i hi => hreqs i (List.mem_cons_of_mem _ hi))
        (fun i hi => hwants i (List.mem_cons_of_mem _ hi))
      rw [selectIds, hreqs id List.mem_cons_self]
      cases hreq : w.request id with
      | none =>
          have hnot : w.gets evt id = false := by rw [WatchMaps.gets, hreq]; rfl
          simp only [hrest, selected, List.filter_cons, hnot, Bool.false_and, Bool.false_eq_true,
            if_false]
      | some req =>
          have hprev : w.wantsPrev id = req.prevKv := by rw [WatchMaps.wantsPrev, hreq]; rfl
          simp only [hwants id List.mem_cons_self req hreq, hrest]
          cases hgets : w.gets evt id with
          | false => simp [selected, hgets]
          | true =>
              cases hkv : req.prevKv with
              | false => simp [selected, hgets, hprev, hkv]
              | true => simp [selected, hgets, hprev, hkv]

theorem wants_of_selectIds {r : List UInt64 × List UInt64}
    (hreqs : ∀ id ∈ ids, reqs.lookup id = w.request id)
    (h : selectIds B w reqs evt ids = .ok r) :
    ∀ id ∈ ids, ∀ req, w.request id = some req → ∃ b, wants B (w.rev id) req evt = .ok b := by
  induction ids generalizing r with
  | nil => exact fun id hid => absurd hid List.not_mem_nil
  | cons id ids ih =>
      have hrest : ∀ i ∈ ids, reqs.lookup i = w.request i :=
        fun i hi => hreqs i (List.mem_cons_of_mem _ hi)
      rw [selectIds, hreqs id List.mem_cons_self] at h
      cases hreq : w.request id with
      | none =>
          simp only [hreq] at h
          refine List.forall_mem_cons.mpr ⟨fun req hsome => ?_, ih hrest h⟩
          rw [hreq] at hsome
          cases hsome
      | some req =>
          simp only [hreq] at h
          cases hwants : wants B (w.rev id) req evt with
          | error e =>
              simp only [hwants] at h
              cases h
          | ok wanted =>
              simp only [hwants] at h
              cases hsel : selectIds B w reqs evt ids with
              | error e =>
                  simp only [hsel] at h
                  cases h
              | ok q =>
                  refine List.forall_mem_cons.mpr ⟨fun req' hsome => ?_, ih hrest hsel⟩
                  rw [hreq] at hsome
                  obtain rfl := Option.some.inj hsome
                  exact ⟨wanted, hwants⟩

end Select

section Gather

variable {reqs reqs' : Requests} {ids : List UInt64} {notices : List Notice}

/-- The requests found are those of the cache. -/
def Gathered (w : WatchMaps) (reqs : Requests) : Prop :=
  ∀ id req, reqs.lookup id = some req → w.request id = some req

theorem Gathered.lookup_eq (h : Gathered w reqs) {id : UInt64}
    (hid : (reqs.lookup id).isSome = true) : reqs.lookup id = w.request id := by
  obtain ⟨req, hreq⟩ := Option.isSome_iff_exists.mp hid
  rw [hreq, h id req hreq]

theorem request_eq_some_iff {id : UInt64} {req : WatchCreateRequest} :
    w.request id = some req ↔ w.cache id = .request req := by
  rw [WatchMaps.request]
  cases w.cache id <;> simp

theorem lookup_append_single (reqs : Requests) (id id' : UInt64) (req : WatchCreateRequest) :
    (reqs ++ [(id, req)]).lookup id' =
      (reqs.lookup id').or (if id' = id then some req else none) := by
  rw [List.lookup_append]
  by_cases h : id' = id
  · subst h
    simp
  · have hne : (id' == id) = false := beq_false_of_ne h
    simp [List.lookup_cons, h, hne]

theorem Gathered.append (h : Gathered w reqs) {id : UInt64} {req : WatchCreateRequest}
    (hreq : w.request id = some req) : Gathered w (reqs ++ [(id, req)]) := by
  intro id' req' hlookup
  rw [lookup_append_single] at hlookup
  cases hold : reqs.lookup id' with
  | some old =>
      rw [hold] at hlookup
      obtain rfl := Option.some.inj hlookup
      exact h id' old hold
  | none =>
      rw [hold] at hlookup
      simp only [Option.none_or] at hlookup
      split at hlookup
      · rename_i heq
        obtain rfl := Option.some.inj hlookup
        rw [heq]
        exact hreq
      · cases hlookup

/-- When the watches are in the cache both builds find their requests. -/
theorem gatherIds_eq (h : Gathered w reqs) (hids : ∀ id ∈ ids, (w.request id).isSome = true) :
    ∃ reqs', (∀ B, gatherIds B w ids reqs = .ok (reqs', ids.countP w.wantsPrev)) ∧
      Gathered w reqs' ∧ (∀ id, (reqs.lookup id).isSome = true → (reqs'.lookup id).isSome = true) ∧
      ∀ id ∈ ids, (reqs'.lookup id).isSome = true := by
  induction ids generalizing reqs with
  | nil =>
      exact ⟨reqs, fun B => rfl, h, fun id hid => hid, fun id hid => absurd hid List.not_mem_nil⟩
  | cons id ids ih =>
      obtain ⟨hid, hrest⟩ := List.forall_mem_cons.mp hids
      obtain ⟨req, hreq⟩ := Option.isSome_iff_exists.mp hid
      have hprev : w.wantsPrev id = req.prevKv := by rw [WatchMaps.wantsPrev, hreq]; rfl
      have hcount : (id :: ids).countP w.wantsPrev =
          if req.prevKv then ids.countP w.wantsPrev + 1 else ids.countP w.wantsPrev := by
        rw [List.countP_cons, hprev]
        cases req.prevKv <;> rfl
      rw [hcount]
      cases hlookup : reqs.lookup id with
      | some old =>
          obtain rfl : old = req := Option.some.inj ((h id old hlookup).symm.trans hreq)
          obtain ⟨reqs', hgather, hreqs', hkept, hfound⟩ := ih h hrest
          refine ⟨reqs', fun B => ?_, hreqs', hkept, List.forall_mem_cons.mpr ⟨?_, hfound⟩⟩
          · rw [gatherIds, hlookup]
            simp only [hgather B]
          · exact hkept id (by rw [hlookup]; rfl)
      | none =>
          obtain ⟨reqs', hgather, hreqs', hkept, hfound⟩ := ih (h.append hreq) hrest
          have hmono : ∀ id', (reqs.lookup id').isSome = true →
              ((reqs ++ [(id, req)]).lookup id').isSome = true := by
            intro id' hid'
            rw [lookup_append_single, Option.isSome_or, hid', Bool.true_or]
          refine ⟨reqs', fun B => ?_, hreqs', fun id' hid' => hkept id' (hmono id' hid'),
            List.forall_mem_cons.mpr ⟨hkept id ?_, hfound⟩⟩
          · rw [gatherIds, hlookup]
            simp only [request_eq_some_iff.mp hreq, hgather B]
          · rw [lookup_append_single, if_pos rfl, Option.isSome_or, Option.isSome_some,
              Bool.or_true]

theorem cached_of_gatherIds {r : Requests × Nat} (h : Gathered w reqs)
    (hok : gatherIds .zig w ids reqs = .ok r) : ∀ id ∈ ids, (w.request id).isSome = true := by
  induction ids generalizing reqs r with
  | nil => exact fun id hid => absurd hid List.not_mem_nil
  | cons id ids ih =>
      rw [gatherIds] at hok
      cases hlookup : reqs.lookup id with
      | some req =>
          simp only [hlookup] at hok
          cases hrest : gatherIds .zig w ids reqs with
          | error e =>
              simp only [hrest] at hok
              cases hok
          | ok q =>
              refine List.forall_mem_cons.mpr ⟨?_, ih h hrest⟩
              rw [h id req hlookup]
              rfl
      | none =>
          simp only [hlookup] at hok
          cases hcache : w.cache id with
          | absent =>
              simp only [hcache] at hok
              cases hok
          | malformed =>
              simp only [hcache] at hok
              cases hok
          | request req =>
              simp only [hcache] at hok
              have hreq := request_eq_some_iff.mpr hcache
              cases hrest : gatherIds .zig w ids (reqs ++ [(id, req)]) with
              | error e =>
                  simp only [hrest] at hok
                  cases hok
              | ok q =>
                  refine List.forall_mem_cons.mpr ⟨?_, ih (h.append hreq) hrest⟩
                  rw [hreq]
                  rfl

theorem gather_eq (h : Gathered w reqs)
    (hids : ∀ notice ∈ notices, ∀ id ∈ notice.ids, (w.request id).isSome = true) :
    ∃ reqs', (∀ B, gather B w notices reqs =
        .ok (reqs', notices.map (fun notice => notice.ids.countP w.wantsPrev))) ∧
      Gathered w reqs' ∧ (∀ id, (reqs.lookup id).isSome = true → (reqs'.lookup id).isSome = true) ∧
      ∀ notice ∈ notices, ∀ id ∈ notice.ids, (reqs'.lookup id).isSome = true := by
  induction notices generalizing reqs with
  | nil =>
      exact ⟨reqs, fun B => rfl, h, fun id hid => hid, fun n hn => absurd hn List.not_mem_nil⟩
  | cons notice notices ih =>
      obtain ⟨hfirst, hrest⟩ := List.forall_mem_cons.mp hids
      obtain ⟨reqs₁, hone, hreqs₁, hkept₁, hfound₁⟩ := gatherIds_eq h hfirst
      obtain ⟨reqs₂, hall, hreqs₂, hkept₂, hfound₂⟩ := ih hreqs₁ hrest
      refine ⟨reqs₂, fun B => ?_, hreqs₂, fun id hid => hkept₂ id (hkept₁ id hid),
        List.forall_mem_cons.mpr ⟨fun id hid => hkept₂ id (hfound₁ id hid), hfound₂⟩⟩
      rw [gather, hone B]
      simp only [hall B]
      rfl

theorem cached_of_gather {r : Requests × List Nat} (h : Gathered w reqs)
    (hok : gather .zig w notices reqs = .ok r) :
    ∀ notice ∈ notices, ∀ id ∈ notice.ids, (w.request id).isSome = true := by
  induction notices generalizing reqs r with
  | nil => exact fun n hn => absurd hn List.not_mem_nil
  | cons notice notices ih =>
      rw [gather] at hok
      cases hone : gatherIds .zig w notice.ids reqs with
      | error e =>
          simp only [hone] at hok
          cases hok
      | ok q =>
          have hcached := cached_of_gatherIds h hone
          obtain ⟨reqs₁, heq, hreqs₁, -⟩ := gatherIds_eq h hcached
          rw [heq .zig] at hone
          obtain rfl := Except.ok.inj hone
          simp only [heq .zig] at hok
          cases hall : gather .zig w notices reqs₁ with
          | error e =>
              simp only [hall] at hok
              cases hok
          | ok p => exact List.forall_mem_cons.mpr ⟨hcached, ih hreqs₁ hall⟩

end Gather

end StorageKv

end Turbokube
