import Turbokube.Model.ServiceWatch
import Turbokube.Model.StorageModule

/-!
# Watches of the storage module

The module is told of the revisions whose keys some watch is interested in, reads their
events, and sends each to the service with the ids of the watches that want it.  The service
collects the events of a watch in a buffer, and sends them to the client when the buffer is
full or the module says that a round is over.

There is a Go and a Zig build of both halves.  The second is a port of the first, and they are
written here as one definition with a parameter for what they do differently.  `Build.go` and
`Build.zig` are its values.

The messages are not encoded here.  `Wire` has the lengths of their encodings, which the
program looks at when it fills buffers.  It also says what an encoded event is read as after
responses have been encoded into the same memory, which happens in the Zig build.
-/

namespace Turbokube

open Encoding Lmdb

/-- A revision and the watches interested in its keys. -/
structure Notice where
  val : UInt64
  ids : List UInt64
  deriving DecidableEq, Repr

/-- What `watchCache` has for an id. -/
inductive Cached where
  | absent
  | malformed
  | request (req : WatchCreateRequest)
  deriving DecidableEq, Repr

/-- The maps that `watchStart` fills: the requests, and the revisions already sent. -/
structure WatchMaps where
  cache : UInt64 → Cached
  rev : UInt64 → UInt64

inductive StreamMessage where
  | eventBatch (revision : UInt64) (evt : WatchEvent) (watchIds watchIdsPrev : List UInt64)
  | eventSync (revision : UInt64) (ids : List UInt64)
  | notify (id revision : UInt64)
  deriving DecidableEq, Repr

/-- The watches a message was sent for. -/
def StreamMessage.sentTo : StreamMessage → List UInt64
  | .eventBatch _ _ watchIds watchIdsPrev => watchIds ++ watchIdsPrev
  | _ => []

/-- The lengths of encodings, and what the bytes of an event decode to when some responses have
been written over their start, one after the other. -/
structure Wire where
  message : StreamMessage → Nat
  event : WatchEvent → Nat
  response : WatchResponse → Nat
  torn : WatchEvent → List WatchResponse → Option WatchEvent
  torn_nil : ∀ evt, torn evt [] = some evt

/-- What the two builds do differently: a watch that is not in the cache, the scan of the
events, the content of an event (with the error that was left by the event before), the
comparison with a filter, the revision a batch is tagged with (given the last revision of the
notices), the size of the buffers messages and responses are encoded into, the revision in the
header of a response (given the revision asked for and the tag of the last event), and whether
events are encoded into the memory that responses are encoded into. -/
structure Build where
  absent : Except Err Unit
  revScan : DbKv → List UInt64 → Except Err (List KvEvent)
  content : Env → DbKv → Bool → KvEvent → Option Err → Except Err (WatchEvent × Option Err)
  filterByte : Int32 → Except Err UInt8
  tag : UInt64 → WatchEvent → Except Err UInt64
  messageFits : Nat → Bool
  responseFits : Nat → Bool
  header : UInt64 → UInt64 → UInt64
  reuses : Bool

/-- The event of a message. -/
def KvEvent.message (evt : KvEvent) (current previous : Kv) : WatchEvent :=
  ⟨evt.etype, current.shownIfAny, previous.shownIfAny⟩

namespace Build

/-- An error of the lookup for a deletion is looked at after the last event only, when it has
not been overwritten. -/
def goContent (E : Env) (db : DbKv) (withPrev : Bool) (evt : KvEvent) (err : Option Err) :
    Except Err (WatchEvent × Option Err) :=
  if evt.rev.isdel then
    if withPrev then
      match db.getRev E evt.key evt.rev.upper true with
      | (_, _, some .panic) => .error .panic
      | (_, previous, err) => .ok (evt.message { key := evt.key, rev := evt.rev } previous, err)
    else .ok (evt.message { key := evt.key, rev := evt.rev } {}, err)
  else
    match db.getRev E evt.key evt.rev.upper withPrev with
    | (_, _, some _) => .error .panic
    | (current, previous, none) => .ok (evt.message current previous, none)

def zigContent (E : Env) (db : DbKv) (withPrev : Bool) (evt : KvEvent) (err : Option Err) :
    Except Err (WatchEvent × Option Err) :=
  if evt.rev.isdel then
    if withPrev then
      match db.getRev E evt.key evt.rev.upper true with
      | (_, _, some _) => .error .panic
      | (_, previous, none) => .ok (evt.message { key := evt.key, rev := evt.rev } previous, err)
    else .ok (evt.message { key := evt.key, rev := evt.rev } {}, err)
  else
    match db.getRev E evt.key evt.rev.upper withPrev with
    | (_, _, some _) => .error .panic
    | (current, previous, none) => .ok (evt.message current previous, err)

/-- An event without a record is a nil dereference. -/
def goTag (_last : UInt64) (evt : WatchEvent) : Except Err UInt64 :=
  match evt.kv with
  | none => .error .panic
  | some kv => .ok kv.modRevision.toUInt64

/-- A number that ends too early is an error here. -/
def zigEvtFromBytes (k v : Bytes) : Except Err KvEvent :=
  match Keyrev.fromKey k v with
  | .error e => .error e
  | .ok rev =>
      match trimChecksum k v with
      | .error e => .error e
      | .ok body =>
          match uvarint body with
          | .error _ => .error .valueInvalid
          | .ok (epoch, key) => .ok ⟨epoch, key, rev⟩

/-- A revision after which there are no events ends the scan. -/
def zigRevScan (db : DbKv) : List UInt64 → Except Err (List KvEvent)
  | [] => .ok []
  | rev :: revs =>
      match db.evt.seek (putUint64 (rev <<< 12)) with
      | [] => .ok []
      | (k, dups) :: _ =>
          match dups.mapM (zigEvtFromBytes k) with
          | .error _ => .error .panic
          | .ok evts =>
              match zigRevScan db revs with
              | .error e => .error e
              | .ok rest => .ok (evts ++ rest)

/-- A filter out of the range of a byte fails the cast. -/
def zigFilterByte (f : Int32) : Except Err UInt8 :=
  if 0 ≤ f ∧ f ≤ 255 then .ok f.toUInt32.toUInt8 else .error .panic

def go : Build where
  absent := .ok ()
  revScan := StorageKv.revScan
  content := goContent
  filterByte f := .ok f.toUInt32.toUInt8
  tag := goTag
  messageFits _ := true
  responseFits _ := true
  header rev _ := rev
  reuses := false

def zig : Build where
  absent := .error .panic
  revScan := zigRevScan
  content := zigContent
  filterByte := zigFilterByte
  tag last _ := .ok last
  messageFits n := 1 + n ≤ 2 * 1024 * 1024
  responseFits n := n ≤ 1536 * 1024 + 8
  header _ lastRev := lastRev
  reuses := true

end Build

/-- The map of the requests that `rangeWatchRecv` has found, in the order it found them. -/
abbrev Requests := List (UInt64 × WatchCreateRequest)

namespace StorageKv

/-- The requests of the watches of one notice, added to those already found, and how many of
them want the previous record. -/
def gatherIds (B : Build) (w : WatchMaps) :
    List UInt64 → Requests → Except Err (Requests × Nat)
  | [], reqs => .ok (reqs, 0)
  | id :: ids, reqs =>
      match reqs.lookup id with
      | some req =>
          match gatherIds B w ids reqs with
          | .error e => .error e
          | .ok (reqs, n) => .ok (reqs, if req.prevKv then n + 1 else n)
      | none =>
          match w.cache id with
          | .absent =>
              match B.absent with
              | .error e => .error e
              | .ok _ => gatherIds B w ids reqs
          | .malformed => .error .panic
          | .request req =>
              match gatherIds B w ids (reqs ++ [(id, req)]) with
              | .error e => .error e
              | .ok (reqs, n) => .ok (reqs, if req.prevKv then n + 1 else n)

def gather (B : Build) (w : WatchMaps) :
    List Notice → Requests → Except Err (Requests × List Nat)
  | [], reqs => .ok (reqs, [])
  | notice :: notices, reqs =>
      match gatherIds B w notice.ids reqs with
      | .error e => .error e
      | .ok (reqs, n) =>
          match gather B w notices reqs with
          | .error e => .error e
          | .ok (reqs, prev) => .ok (reqs, n :: prev)

/-- The events with the running index of the notice they are matched with.  It moves on when
the revision changes.  `n` is the revision before, 0 at the start. -/
def indexed : UInt64 → Nat → List KvEvent → List (Nat × KvEvent)
  | _, _, [] => []
  | n, i, evt :: rest =>
      let i := if n ≠ evt.rev.upper ∧ 0 < n then i + 1 else i
      (i, evt) :: indexed evt.rev.upper i rest

/-- The keys of a watch. -/
def holds (req : WatchCreateRequest) (k : Bytes) : Bool :=
  if k < req.key then false else if req.key < k then k < req.rangeEnd else true

def filtered (B : Build) (etype : EventType) : List Int32 → Except Err Bool
  | [] => .ok false
  | f :: filters =>
      match B.filterByte f with
      | .error e => .error e
      | .ok b => if etype.toUInt8 = b then .ok true else filtered B etype filters

/-- Whether a watch wants an event. -/
def wants (B : Build) (min : UInt64) (req : WatchCreateRequest) (evt : KvEvent) :
    Except Err Bool :=
  if 0 < min ∧ evt.rev.upper ≤ min then .ok false
  else
    match filtered B evt.etype req.filters with
    | .error e => .error e
    | .ok dropped => .ok (!dropped && holds req evt.key)

/-- The watches that get an event, those without the previous record first. -/
def selectIds (B : Build) (w : WatchMaps) (reqs : Requests)
    (evt : KvEvent) : List UInt64 → Except Err (List UInt64 × List UInt64)
  | [] => .ok ([], [])
  | id :: ids =>
      match reqs.lookup id with
      | none => selectIds B w reqs evt ids
      | some req =>
          match wants B (w.rev id) req evt with
          | .error e => .error e
          | .ok wanted =>
              match selectIds B w reqs evt ids with
              | .error e => .error e
              | .ok (watchIds, watchIdsPrev) =>
                  if wanted then
                    if req.prevKv then .ok (watchIds, id :: watchIdsPrev)
                    else .ok (id :: watchIds, watchIdsPrev)
                  else .ok (watchIds, watchIdsPrev)

def sendMessage (B : Build) (wire : Wire) (msg : StreamMessage) :
    Except Err (List StreamMessage) :=
  if B.messageFits (wire.message msg) then .ok [msg] else .error .panic

/-- What is sent for one event: nothing when no watch wants it. -/
def recvEvent (B : Build) (E : Env) (wire : Wire) (db : DbKv) (w : WatchMaps)
    (reqs : Requests) (last : UInt64) (evt : KvEvent) (notice : Notice)
    (prev : Nat) (err : Option Err) : Except Err (List StreamMessage × Option Err) :=
  match B.content E db (0 < prev) evt err with
  | .error e => .error e
  | .ok (m, err) =>
      match B.tag last m with
      | .error e => .error e
      | .ok revision =>
          match selectIds B w reqs evt notice.ids with
          | .error e => .error e
          | .ok (watchIds, watchIdsPrev) =>
              if watchIds = [] ∧ watchIdsPrev = [] then .ok ([], err)
              else
                match sendMessage B wire (.eventBatch revision m watchIds watchIdsPrev) with
                | .error e => .error e
                | .ok msgs => .ok (msgs, err)

/-- The loop over the events.  An index past the notices is out of range. -/
def recvEvents (B : Build) (E : Env) (wire : Wire) (db : DbKv) (w : WatchMaps)
    (reqs : Requests) (notices : List Notice) (prev : List Nat)
    (last : UInt64) : List (Nat × KvEvent) → Option Err → Except Err (List StreamMessage)
  | [], none => .ok []
  | [], some _ => .error .panic
  | (i, evt) :: rest, err =>
      match notices[i]?, prev[i]? with
      | some notice, some n =>
          match recvEvent B E wire db w reqs last evt notice n err with
          | .error e => .error e
          | .ok (msgs, err) =>
              match recvEvents B E wire db w reqs notices prev last rest err with
              | .error e => .error e
              | .ok rest => .ok (msgs ++ rest)
      | _, _ => .error .panic

/-- A watch that got no event is told of the revision if it asked for that.  `order` is the
order in which the map of the requests is walked. -/
def notifies (order : Requests → Requests) (reqs : Requests) (last : UInt64)
    (sent : List UInt64) : List StreamMessage :=
  ((order reqs).filter (fun e => e.1 ∉ sent ∧ e.2.progressNotify)).map
    (fun e => .notify e.1 last)

def rangeWatchRecv (B : Build) (order : Requests → Requests) (E : Env) (wire : Wire) (db : DbKv)
    (w : WatchMaps) (notices : List Notice) : Except Err (List StreamMessage) :=
  match notices.getLast? with
  | none => .error .panic
  | some lastNotice =>
      match gather B w notices [] with
      | .error e => .error e
      | .ok (reqs, prev) =>
          match B.revScan db (notices.map Notice.val) with
          | .error e => .error e
          | .ok evts =>
              match recvEvents B E wire db w reqs notices prev lastNotice.val (indexed 0 0 evts)
                  none with
              | .error e => .error e
              | .ok batches =>
                  let ids := notices.flatMap Notice.ids
                  match (if ids = [] then .ok []
                      else sendMessage B wire (.eventSync lastNotice.val ids)) with
                  | .error e => .error e
                  | .ok sync =>
                      .ok (batches ++ sync ++
                        notifies order reqs lastNotice.val (batches.flatMap StreamMessage.sentTo))

end StorageKv

/-- What a buffer holds for an event: bytes of some length, what they decode to, and the tag. -/
structure Value where
  length : Nat
  evt : Option WatchEvent
  rev : UInt64
  deriving DecidableEq, Repr

/-- The buffers of the watches. -/
abbrev Buffers : Type := UInt64 → List Value

/-- Whether a buffer with values of some lengths takes one more value. -/
def Room : Type := List Nat → Nat → Bool

namespace ServiceGrpc

def watchIdError : UInt64 := 0x8000000000000000

/-- The length of a value with its tag. -/
def valueSize (v : Value) : Nat := v.length + 8

def append (room : Room) (buf : List Value) (v : Value) : Option (List Value) :=
  if room (buf.map valueSize) (valueSize v) then some (buf ++ [v]) else none

/-- The response for the events of a buffer.  Bytes that do not decode are a panic. -/
def clearEvents (B : Build) (wire : Wire) (id rev : UInt64) (sync : Bool) (buf : List Value) :
    Except Err (List WatchResponse) :=
  match buf.mapM Value.evt with
  | none => .error .panic
  | some evts =>
      match buf.getLast? with
      | none => .ok []
      | some v =>
          let resp : WatchResponse := {
            header := ⟨0, 0, (B.header rev v.rev).toInt64⟩
            watchId := id.toInt64
            fragment := !sync && v.rev = rev
            events := evts }
          if B.responseFits (wire.response resp) then .ok [resp] else .error .panic

/-- A value that does not fit makes room for itself. -/
def sendEvent (B : Build) (wire : Wire) (room : Room) (id : UInt64) (v : Value) (buf : List Value) :
    Except Err (List Value × List WatchResponse) :=
  match append room buf v with
  | some buf => .ok (buf, [])
  | none =>
      match clearEvents B wire id v.rev false buf with
      | .error e => .error e
      | .ok resps =>
          match append room [] v with
          | none => .error .panic
          | some buf => .ok (buf, resps)

/-- The loop over the watches of an encoded event.  `written` are the responses that have been
encoded since into the same memory. -/
def sendEvents (B : Build) (wire : Wire) (room : Room) (rev : UInt64) (evt : WatchEvent) :
    List UInt64 → List WatchResponse → Buffers → Except Err (Buffers × List WatchResponse)
  | [], _, bufs => .ok (bufs, [])
  | id :: ids, written, bufs =>
      match sendEvent B wire room id ⟨wire.event evt, wire.torn evt written, rev⟩ (bufs id) with
      | .error e => .error e
      | .ok (buf, resps) =>
          match sendEvents B wire room rev evt ids (if B.reuses then written ++ resps else written)
              (Function.update bufs id buf) with
          | .error e => .error e
          | .ok (bufs, rest) => .ok (bufs, resps ++ rest)

/-- One half of a batch: the event is encoded once, if there is a watch for it. -/
def sendBatch (B : Build) (wire : Wire) (room : Room) (rev : UInt64) (evt : WatchEvent)
    (ids : List UInt64) (bufs : Buffers) : Except Err (Buffers × List WatchResponse) :=
  if ids = [] then .ok (bufs, [])
  else if B.responseFits (wire.event evt) then sendEvents B wire room rev evt ids [] bufs
  else .error .panic

def syncEvents (B : Build) (wire : Wire) (rev : UInt64) :
    List UInt64 → Buffers → Except Err (Buffers × List WatchResponse)
  | [], bufs => .ok (bufs, [])
  | id :: ids, bufs =>
      match clearEvents B wire id rev true (bufs id) with
      | .error e => .error e
      | .ok resps =>
          match syncEvents B wire rev ids (Function.update bufs id []) with
          | .error e => .error e
          | .ok (bufs, rest) => .ok (bufs, resps ++ rest)

/-- What the service does with a message of the module. -/
def shardRecv (B : Build) (E : Env) (wire : Wire) (room : Room) (bufs : Buffers) :
    StreamMessage → Except Err (Buffers × List WatchResponse)
  | .eventBatch rev evt watchIds watchIdsPrev =>
      match sendBatch B wire room rev evt watchIdsPrev bufs with
      | .error e => .error e
      | .ok (bufs, resps) =>
          match sendBatch B wire room rev { evt with prevKv := none } watchIds bufs with
          | .error e => .error e
          | .ok (bufs, rest) => .ok (bufs, resps ++ rest)
  | .eventSync rev ids => syncEvents B wire rev ids bufs
  | .notify id rev =>
      if id = watchIdError then .ok (bufs, [])
      else .ok (bufs, [{ header := responseHeader E rev.toNat, watchId := id.toInt64 }])

def shardRecvs (B : Build) (E : Env) (wire : Wire) (room : Room) :
    List StreamMessage → Buffers → Except Err (Buffers × List WatchResponse)
  | [], bufs => .ok (bufs, [])
  | msg :: msgs, bufs =>
      match shardRecv B E wire room bufs msg with
      | .error e => .error e
      | .ok (bufs, resps) =>
          match shardRecvs B E wire room msgs bufs with
          | .error e => .error e
          | .ok (bufs, rest) => .ok (bufs, resps ++ rest)

end ServiceGrpc

end Turbokube
