import Turbokube.Model.StorageStream

/-!
# Creating a watch in the storage module

`watchStart` step by step, with what the replica does in between.  A watch without a start
revision reads the revision of the store first and opens its interval afterwards.  A watch with
one scans, opens its interval, scans again for what was committed in between, and then starts.

The intervals are kept by an extension.  Whether it finds an id taken depends on the other
watches, so a step is told.  A flush gives an open watch the notices with a key that its
interval holds, as the extension decides it (`hits`).  Those that come between `Open` and
`Start` are held back until then, and the model has them in the same list.

The Zig build looks at the filters of a request before its keys, which differs for filters
that fail its cast.  The scan here is the one of the Go build.
-/

namespace Turbokube

open Encoding Lmdb

/-- What `watchStart` sends.  The message for an id that is taken does not name it. -/
inductive StartMessage where
  | errExists
  | errCompacted (id min : UInt64)
  | init (id : UInt64) (revision : Nat)
  | stream (msg : StreamMessage)
  deriving DecidableEq, Repr

namespace StorageKv

/-- The loop of a scan.  Every batch is tagged with the revision of the scan. -/
def watchEvents (E : Env) (db : DbKv) (req : WatchCreateRequest) (id revision : UInt64) :
    List KvEvent → Option Err → Except Err (List StreamMessage)
  | [], none => .ok []
  | [], some _ => .error .panic
  | evt :: rest, err =>
      if holds req evt.key then
        match filtered .go evt.etype req.filters with
        | .error e => .error e
        | .ok true => watchEvents E db req id revision rest err
        | .ok false =>
            match Build.goContent E db req.prevKv evt err with
            | .error e => .error e
            | .ok (m, err) =>
                match watchEvents E db req id revision rest err with
                | .error e => .error e
                | .ok msgs => .ok (.eventBatch revision m [id] [] :: msgs)
      else watchEvents E db req id revision rest err

/-- One read transaction.  The first of a watch tells the client the revision. -/
def watchScan (E : Env) (s : Store) (req : WatchCreateRequest) (id since : UInt64)
    (start : Bool) : Except Err (List StartMessage) :=
  let header := if start then [.init id s.dbMeta.rev] else []
  if since = 0 then .ok header
  else
    let revision := UInt64.ofNat s.dbMeta.rev
    match s.tables.kv.scan since with
    | .error e => .error e
    | .ok evts =>
        match watchEvents E s.tables.kv req id revision evts none with
        | .error e => .error e
        | .ok [] => .ok header
        | .ok msgs => .ok (header ++ (msgs ++ [StreamMessage.eventSync revision [id]]).map .stream)

end StorageKv

/-- How far a call of `watchStart` has got. -/
inductive StartPhase where
  | called
  | generating
  | reserved
  | checked
  | scanned
  | opened
  | rescanned
  | stored
  | started
  | returned
  | failed
  deriving DecidableEq, Repr

/-- A call of `watchStart` and its watch.  `isOpen` is set once the extension has its interval,
and `notices` are the revisions of the notices that name it. -/
structure WatchStart where
  req : WatchCreateRequest
  watchId : UInt64 := 0
  phase : StartPhase := .called
  rev : Nat := 0
  isOpen : Bool := false
  notices : List Nat := []
  sent : List StartMessage := []

/-- A flush. -/
def WatchStart.flush (hits : Bytes → Bytes → Bytes → Bool) (queued : List Queued)
    (w : WatchStart) : WatchStart :=
  if w.isOpen then
    { w with notices := w.notices ++
        (queued.filter (fun n => n.keys.any (hits w.req.key w.req.rangeEnd))).map Queued.rev }
  else w

/-- A replica that creates a watch.  `watchID` is the counter for new ids, and `flushedRev` the
revision of the last transaction that was flushed. -/
structure StorageWatch where
  storage : Storage := {}
  watchID : UInt64
  maps : WatchMaps
  flushedRev : Nat := Store.init.dbMeta.rev
  watch : WatchStart

inductive StorageWatchAction where
  | storage (a : StorageAction)
  | next (taken : Bool)

namespace StorageWatch

/-- One turn of the loop that looks for a free id. -/
def generate (taken : Bool) (s : StorageWatch) : StorageWatch :=
  let id := s.watchID + 1
  { s with
    watchID := id
    watch := { s.watch with watchId := id, phase := if taken then .generating else .reserved } }

def reserve (taken : Bool) (s : StorageWatch) : StorageWatch :=
  if s.watch.watchId = 0 then s.generate taken
  else if taken then
    { s with watch := { s.watch with sent := s.watch.sent ++ [.errExists], phase := .failed } }
  else { s with watch := { s.watch with phase := .reserved } }

def since (s : StorageWatch) : UInt64 := s.watch.req.startRevision.toUInt64

def check (s : StorageWatch) : StorageWatch :=
  let min := s.storage.store.dbMeta.revMin
  if 0 < s.since ∧ s.since < min then
    { s with
      watch := { s.watch with
        sent := s.watch.sent ++ [.errCompacted s.watch.watchId min], phase := .failed } }
  else { s with watch := { s.watch with phase := .checked } }

/-- A scan that fails stops the replica. -/
def scan (E : Env) (since : UInt64) (start : Bool) (phase : StartPhase) (s : StorageWatch) :
    Option StorageWatch :=
  let w := s.watch
  match StorageKv.watchScan E s.storage.store w.req w.watchId since start with
  | .error _ => none
  | .ok msgs =>
      some { s with
        watch := { w with
          rev := s.storage.store.dbMeta.rev, sent := w.sent ++ msgs, phase := phase } }

/-- The watch is made known to `rangeWatchRecv`. -/
def store (s : StorageWatch) : StorageWatch :=
  let w := s.watch
  { s with
    maps := {
      cache := Function.update s.maps.cache w.watchId (.request w.req)
      rev := Function.update s.maps.rev w.watchId (UInt64.ofNat w.rev) }
    watch := { w with phase := .stored } }

def openInterval (phase : StartPhase) (s : StorageWatch) : StorageWatch :=
  { s with watch := { s.watch with isOpen := true, phase := phase } }

def notify (s : StorageWatch) : StorageWatch :=
  let w := s.watch
  { s with
    watch := { w with
      sent := w.sent ++
        if w.req.progressNotify then [.stream (.notify w.watchId (UInt64.ofNat w.rev))] else []
      phase := .returned } }

/-- The next step of `watchStart`.  `taken` is what the extension says of the id. -/
def next (E : Env) (taken : Bool) (s : StorageWatch) : Option StorageWatch :=
  match s.watch.phase with
  | .called => some (s.reserve taken)
  | .generating => some (s.generate taken)
  | .reserved => some s.check
  | .checked => s.scan E s.since true .scanned
  | .scanned => some (if s.since = 0 then s.store else s.openInterval .opened)
  | .opened => s.scan E (UInt64.ofNat s.watch.rev + 1) false .rescanned
  | .rescanned => some s.store
  | .stored => some (s.openInterval .started)
  | .started => some s.notify
  | .returned => none
  | .failed => none

def act (E : Env) (hits : Bytes → Bytes → Bytes → Bool) (s : StorageWatch) :
    StorageWatchAction → Option StorageWatch
  | .storage .flush =>
      (s.storage.act E .flush).map (fun σ =>
        { s with
          storage := σ
          flushedRev := σ.store.dbMeta.rev
          watch := s.watch.flush hits s.storage.queued })
  | .storage a => (s.storage.act E a).map (fun σ => { s with storage := σ })
  | .next taken => s.next E taken

def acts (E : Env) (hits : Bytes → Bytes → Bytes → Bool) :
    List StorageWatchAction → StorageWatch → Option StorageWatch
  | [], s => some s
  | a :: rest, s => (s.act E hits a).bind (acts E hits rest)

end StorageWatch

end Turbokube
