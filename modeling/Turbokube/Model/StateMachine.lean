import Turbokube.Model.Lease
import Turbokube.Model.Messages

/-!
# The state machine

`update` applies a batch of log entries inside one storage transaction.  The epoch
and the revision are read once, kept in `Batch` while the entries are applied, and
written back at different times: the epoch by every tick, the revision once at the
end.  An error that reaches `update` is the panic that stops the replica.

The revision counter is unbounded here.  The source has a `uint64` that starts at 1
and goes up by one for a command that affects keys.  It wraps after 2^64 of them, which
no log holds: at a million a second they take half a million years.  What is stored
under a revision uses its 64-bit word, see `revAt`.
-/

namespace Turbokube

open Encoding Lmdb

structure Tables where
  kv : DbKv
  lease : Table Bytes Bytes
  leaseExp : Table Bytes Bytes
  leaseKey : Table Bytes Bytes

def Tables.empty : Tables := ⟨.empty, .empty, .empty, .empty⟩

/-- The records of the `meta` table with the values `newDbMeta` gives them. -/
structure Meta where
  epoch : UInt64 := 0
  index : UInt64 := 0
  leaseID : UInt64 := 0
  rev : Nat := 1
  revCompacted : UInt64 := 0
  revMin : UInt64 := 1
  term : UInt64 := 0
  deriving DecidableEq, Repr

structure Store where
  tables : Tables
  dbMeta : Meta

def Store.init : Store := ⟨.empty, {}⟩

def responseHeader (E : Env) (rev : Nat) : ResponseHeader :=
  ⟨E.shardID, E.replicaID, (UInt64.ofNat rev).toInt64⟩

/-- Move a key from the lease of its previous record to the one of the request. -/
def moveLease (t : Table Bytes Bytes) (req : PutRequest) (prevLease : UInt64) :
    Except Err (Table Bytes Bytes) :=
  if !req.ignoreLease ∧ prevLease.toInt64 ≠ req.lease then
    let t := if 0 < req.lease then DbLeaseKey.put t req.lease.toUInt64 req.key else t
    if 0 < prevLease then DbLeaseKey.del t prevLease req.key else .ok t
  else .ok t

/-- Returns the tables, the response and the affected keys. -/
def cmdPut (E : Env) (t : Tables) (rev subrev : Nat) (epoch : UInt64) (req : PutRequest) :
    Except Err (Tables × PutResponse × List Bytes) :=
  match t.kv.put E rev subrev req.lease.toUInt64 epoch req.key req.value req.ignoreValue
      req.ignoreLease with
  | .error e => .error e
  | .ok (kv, prev, _, _) =>
      match moveLease t.leaseKey req prev.lease with
      | .error e => .error e
      | .ok leaseKey =>
          .ok ({ t with kv := kv, leaseKey := leaseKey },
            { prevKv := if req.prevKv then some prev.toProto else none }, [req.key])

def detachAll : List Keyrecord → Table Bytes Bytes → Except Err (Table Bytes Bytes)
  | [], t => .ok t
  | krec :: rest, t =>
      if krec.lease ≠ 0 then
        match DbLeaseKey.del t krec.lease krec.key with
        | .error e => .error e
        | .ok t => detachAll rest t
      else detachAll rest t

/-- The deleted records.  Only the error of the last read is returned. -/
def prevKvs (E : Env) (kv : DbKv) : List Keyrecord → Option Err → Except Err (List KeyValue)
  | [], err =>
      match err with
      | some e => .error e
      | none => .ok []
  | prec :: rest, _ =>
      match kv.getRev E prec.key prec.rev.upper false with
      | (_, _, some .panic) => .error .panic
      | (item, _, err) =>
          match prevKvs E kv rest err with
          | .error e => .error e
          | .ok items => .ok (item.toProto :: items)

/-- The affected keys start with as many nil keys as there are deleted ones. -/
def cmdDeleteRange (E : Env) (t : Tables) (rev subrev : Nat) (epoch : UInt64)
    (req : DeleteRangeRequest) : Except Err (Tables × DeleteRangeResponse × List Bytes) :=
  match t.kv.deleteRange E rev subrev epoch req.key req.rangeEnd with
  | .error e => .error e
  | .ok (kv, prev) =>
      match detachAll prev t.leaseKey with
      | .error e => .error e
      | .ok leaseKey =>
          match (if req.prevKv then prevKvs E kv prev none else .ok []) with
          | .error e => .error e
          | .ok items =>
              .ok ({ t with kv := kv, leaseKey := leaseKey },
                { header := responseHeader E rev
                  deleted := Int64.ofNat prev.length
                  prevKvs := items },
                List.replicate prev.length [] ++ prev.map Keyrecord.key)

/-- The first free id after the last one generated.  One more step than there are
leases always finds one. -/
def freeLeaseID (t : Table Bytes Bytes) : Nat → UInt64 → Except Err UInt64
  | 0, _ => .error .panic
  | fuel + 1, id =>
      match DbLease.get t (id + 1) with
      | .error e => .error e
      | .ok found => if found.id = 0 then .ok (id + 1) else freeLeaseID t fuel (id + 1)

/-- The lease to grant and the next value of the id cursor. -/
def grantItem (t : Table Bytes Bytes) (leaseID : UInt64) (req : LeaseGrantRequest) :
    Except Err (Lease × UInt64) :=
  if req.id.toUInt64 = 0 then
    match freeLeaseID t (t.entries.length + 1) leaseID with
    | .error e => .error e
    | .ok id => .ok ({ id := id }, id)
  else
    match DbLease.get t req.id.toUInt64 with
    | .error e => .error e
    | .ok item => .ok ({ item with id := req.id.toUInt64 }, leaseID)

/-- Returns the tables, the id cursor, the response and the value of the result. -/
def cmdLeaseGrant (t : Tables) (leaseID epoch : UInt64) (req : LeaseGrantRequest) :
    Except Err (Tables × UInt64 × LeaseGrantResponse × UInt64) :=
  match grantItem t.lease leaseID req with
  | .error e => .error e
  | .ok (item, leaseID) =>
      if 0 < item.expires then .ok (t, leaseID, { error := Err.grpcLeaseExist.error }, 0)
      else
        let item := { item with renewed := epoch, expires := epoch + req.ttl.toUInt64 }
        .ok ({ t with
            lease := DbLease.put t.lease item
            leaseExp := DbLeaseExp.put t.leaseExp item },
          leaseID, { id := item.id.toInt64, ttl := req.ttl }, 1)

/-- Delete the keys of a lease batch by batch.  One more step than there are index
entries always finds the last batch empty. -/
def revokeKeys (rev : Nat) (epoch id : UInt64) :
    Nat → Tables → List Bytes → Except Err (Tables × List Bytes)
  | 0, _, _ => .error .panic
  | fuel + 1, t, keys =>
      match DbLeaseKey.sweep t.leaseKey id with
      | .error e => .error e
      | .ok (leaseKey, batch) =>
          if batch = [] then .ok ({ t with leaseKey := leaseKey }, keys)
          else
            match t.kv.deleteBatch rev 0 epoch batch with
            | .error e => .error e
            | .ok kv =>
                revokeKeys rev epoch id fuel { t with kv := kv, leaseKey := leaseKey }
                  (keys ++ batch)

def codeNotFound : UInt64 := 5

/-- Returns the tables, the deleted keys and the value of the result. -/
def cmdLeaseRevoke (t : Tables) (rev : Nat) (epoch id : UInt64) :
    Except Err (Tables × List Bytes × UInt64) :=
  match DbLease.get t.lease id with
  | .error e => .error e
  | .ok item =>
      if item.id = 0 then .ok (t, [], codeNotFound)
      else
        match revokeKeys rev epoch item.id (t.leaseKey.entries.length + 1) t [] with
        | .error e => .error e
        | .ok (t, keys) =>
            match DbLeaseExp.del t.leaseExp item with
            | .error e => .error e
            | .ok leaseExp =>
                match DbLease.del t.lease item.id with
                | .error e => .error e
                | .ok lease => .ok ({ t with lease := lease, leaseExp := leaseExp }, keys, 1)

/-- Renew one lease and return its time to live, or nothing when it is absent. -/
def renew (t : Tables) (epoch id : UInt64) : Except Err (Tables × Option Int64) :=
  match DbLease.get t.lease id with
  | .error e => .error e
  | .ok item =>
      if item.id = 0 then .ok (t, none)
      else
        let ttl := (item.expires - item.renewed).toInt64
        let item := { item with expires := epoch + ttl.toUInt64, renewed := epoch }
        .ok ({ t with
            lease := DbLease.put t.lease item
            leaseExp := DbLeaseExp.put t.leaseExp item }, some ttl)

def cmdLeaseKeepAlive (t : Tables) (epoch : UInt64) (id : Int64) :
    Except Err (Tables × LeaseKeepAliveResponse) :=
  match renew t epoch id.toUInt64 with
  | .error e => .error e
  | .ok (t, ttl) => .ok (t, { id := id, ttl := ttl.getD 0 })

def cmdLeaseKeepAliveBatch (epoch : UInt64) :
    List Int64 → Tables → Except Err (Tables × List Int64)
  | [], t => .ok (t, [])
  | id :: ids, t =>
      match renew t epoch id.toUInt64 with
      | .error e => .error e
      | .ok (t, ttl) =>
          match cmdLeaseKeepAliveBatch epoch ids t with
          | .error e => .error e
          | .ok (t, ttls) => .ok (t, ttl.getD 0 :: ttls)

/-- The revocations of a tick.  The cursor does not return an entry that an
earlier revocation removed. -/
def expireLoop (epoch : UInt64) :
    List (Bytes × Bytes) → Tables → Nat → List Bytes → Except Err (Tables × Nat × List Bytes)
  | [], t, newRev, keys => .ok (t, newRev, keys)
  | (k, v) :: rest, t, newRev, keys =>
      if t.leaseExp.get k = none then expireLoop epoch rest t newRev keys
      else
        match DbLeaseExp.due epoch k v with
        | none => .ok (t, newRev, keys)
        | some id =>
            match cmdLeaseRevoke t (newRev + 1) epoch id with
            | .error e => .error e
            | .ok (t, affected, _) =>
                if affected = [] then expireLoop epoch rest t newRev keys
                else expireLoop epoch rest t (newRev + 1) (keys ++ affected)

def rangeArgs (req : RangeRequest) : DbKv.RangeArgs where
  revision := req.revision.toUInt64
  minMod := req.minModRevision.toUInt64
  maxMod := req.maxModRevision.toUInt64
  minCreated := req.minCreateRevision.toUInt64
  maxCreated := req.maxCreateRevision.toUInt64
  limit := req.limit.toUInt64
  countOnly := req.countOnly
  keysOnly := req.keysOnly

def queryRange (E : Env) (kv : DbKv) (revMin : UInt64) (rev : Nat) (req : RangeRequest) :
    Except Err RangeResponse :=
  if 0 < req.revision ∧ req.revision < revMin.toInt64 then .error .grpcCompacted
  else if 0 < req.revision ∧ (UInt64.ofNat rev).toInt64 < req.revision then .error .grpcFutureRev
  else
    match kv.getRange E req.key req.rangeEnd (rangeArgs req) with
    | .error e => .error e
    | .ok (items, count, more) =>
        .ok {
          header := responseHeader E rev
          kvs := if req.countOnly then [] else items.map Kv.toProto
          more := if req.countOnly then false else more
          count :=
            if req.countOnly ∨ E.flags.rangeCountFull ∨ E.flags.rangeCountFake then
              Int64.ofNat count
            else 0 }

structure TxnAcc where
  tables : Tables
  res : List ResponseOp := []
  keys : List Bytes := []

def txnLoop (E : Env) (revMin : UInt64) (rev : Nat) (epoch : UInt64) :
    List RequestOp → Nat → TxnAcc → TxnAcc × Option Err
  | [], _, acc => (acc, none)
  | .put req :: ops, i, acc =>
      match cmdPut E acc.tables rev i epoch req with
      | .error e => (acc, some e)
      | .ok (t, res, affected) =>
          txnLoop E revMin rev epoch ops (i + 1)
            ⟨t, acc.res ++ [.put res], acc.keys ++ affected⟩
  | .deleteRange req :: ops, i, acc =>
      match cmdDeleteRange E acc.tables rev i epoch req with
      | .error e => (acc, some e)
      | .ok (t, res, affected) =>
          txnLoop E revMin rev epoch ops (i + 1)
            ⟨t, acc.res ++ [.deleteRange res], acc.keys ++ affected⟩
  | .range req :: ops, i, acc =>
      match queryRange E acc.tables.kv revMin rev req with
      | .error e => (acc, some e)
      | .ok res =>
          txnLoop E revMin rev epoch ops (i + 1) { acc with res := acc.res ++ [.range res] }
  | .txn :: ops, i, acc => txnLoop E revMin rev epoch ops (i + 1) acc
  | .none :: ops, i, acc => txnLoop E revMin rev epoch ops (i + 1) acc

/-- The nested transaction drops the tables of a failed run.  The responses and
the affected keys are variables outside it and keep what they had collected. -/
def txnOps (E : Env) (t : Tables) (revMin : UInt64) (rev : Nat) (epoch : UInt64)
    (ops : List RequestOp) : Tables × List ResponseOp × List Bytes × Option Err :=
  match txnLoop E revMin rev epoch ops 0 ⟨t, [], []⟩ with
  | (acc, some e) => (t, acc.res, acc.keys, some e)
  | (acc, none) => (acc.tables, acc.res, acc.keys, none)

def txnIntCompare (cond : CompareResult) (a b : Int64) : Bool :=
  match cond with
  | .equal => a = b
  | .greater => b < a
  | .less => a < b
  | .notEqual => a ≠ b
  | .other _ => false

def txnValueCompare (cond : CompareResult) (a b : Bytes) : Bool :=
  match cond with
  | .equal => a = b
  | .greater => b < a
  | .less => a < b
  | .notEqual => a ≠ b
  | .other _ => true

/-- A union that does not hold the member of its target fails the type
assertion. -/
def compareItem (cond : Compare) (item : Kv) : Except Err Bool :=
  match cond.target, cond.targetUnion with
  | .version, .version n => .ok (txnIntCompare cond.result item.version.toInt64 n)
  | .create, .createRevision n => .ok (txnIntCompare cond.result item.created.toInt64 n)
  | .mod, .modRevision n => .ok (txnIntCompare cond.result item.rev.upper.toInt64 n)
  | .lease, .lease n => .ok (txnIntCompare cond.result item.lease.toInt64 n)
  | .value, .value v => .ok (txnValueCompare cond.result item.val v)
  | .other _, _ => .ok true
  | _, _ => .error .panic

def txnCompare (E : Env) (kv : DbKv) : List Compare → Except Err Bool
  | [] => .ok true
  | cond :: conds =>
      match kv.get E cond.key with
      | .error e => .error e
      | .ok item =>
          if item.key ≠ [] ∧ cond.key ≠ item.key then .ok false
          else
            match compareItem cond item with
            | .error e => .error e
            | .ok false => .ok false
            | .ok true => txnCompare E kv conds

/-- What the closure of `Update` holds while it applies a batch. -/
structure Batch where
  store : Store
  epoch : UInt64
  newRev : Nat
  keys : List Bytes := []

namespace Batch

def setTables (b : Batch) (t : Tables) : Batch := { b with store := { b.store with tables := t } }

def setMeta (b : Batch) (m : Meta) : Batch := { b with store := { b.store with dbMeta := m } }

/-- The revision after a command that affected the given keys. -/
def nextRev (b : Batch) (affected : List Bytes) : Nat :=
  if 0 < affected.length then b.newRev + 1 else b.newRev

end Batch

def textResult (ent : Entry) (e : Err) : Result := { ent.result with data := .text e.error }

/-- Whether the lease of a put exists.  Zero stands for no lease. -/
def leaseKnown (t : Table Bytes Bytes) (lease : Int64) : Except Err Bool :=
  if lease = 0 then .ok true
  else
    match DbLease.get t lease.toUInt64 with
    | .error e => .error e
    | .ok item => .ok (decide (item.id ≠ 0))

def applyPut (E : Env) (b : Batch) (ent : Entry) (req : PutRequest) : Except Err (Batch × Result) :=
  if req.ignoreLease ∧ req.lease ≠ 0 then .ok (b, textResult ent .grpcLeaseProvided)
  else if req.ignoreValue ∧ req.value ≠ [] then .ok (b, textResult ent .grpcValueProvided)
  else
    match leaseKnown b.store.tables.lease req.lease with
    | .error e => .error e
    | .ok false => .ok (b, textResult ent .grpcLeaseNotFound)
    | .ok true =>
        match cmdPut E b.store.tables (b.newRev + 1) 0 b.epoch req with
        | .error .grpcKeyTooLong => .ok (b, textResult ent .grpcKeyTooLong)
        | .error .grpcEmptyKey => .ok (b, textResult ent .grpcEmptyKey)
        | .error e => .error e
        | .ok (t, res, affected) =>
            let newRev := b.nextRev affected
            .ok ({ b.setTables t with newRev := newRev, keys := b.keys ++ affected },
              ⟨1, .put { res with header := some (responseHeader E newRev) }⟩)

def applyDeleteRange (E : Env) (b : Batch) (req : DeleteRangeRequest) :
    Except Err (Batch × Result) :=
  match cmdDeleteRange E b.store.tables (b.newRev + 1) 0 b.epoch req with
  | .error e => .error e
  | .ok (t, res, affected) =>
      let newRev := b.nextRev affected
      .ok ({ b.setTables t with newRev := newRev, keys := b.keys ++ affected },
        ⟨1, .deleteRange { res with header := responseHeader E newRev }⟩)

def applyCompact (E : Env) (b : Batch) (revision : Int64) : Except Err (Batch × Result) :=
  match b.store.tables.kv.compact E revision.toUInt64 with
  | .error e => .error e
  | .ok (kv, last) =>
      let b' := (b.setTables { b.store.tables with kv := kv }).setMeta
        { b.store.dbMeta with revMin := revision.toUInt64, revCompacted := last }
      .ok (b', ⟨1, .compact (responseHeader E b.newRev)⟩)

/-- The revision is advanced before the error of the operations is looked at. -/
def applyTxn (E : Env) (b : Batch) (ent : Entry) (req : TxnRequest) : Except Err (Batch × Result) :=
  match txnCompare E b.store.tables.kv req.compare with
  | .error e => .error e
  | .ok success =>
      match txnOps E b.store.tables b.store.dbMeta.revMin (b.newRev + 1) b.epoch
          (if success then req.success else req.failure) with
      | (t, res, affected, err) =>
          let newRev := b.nextRev affected
          match err with
          | some .grpcDuplicateKey =>
              .ok ({ b with newRev := newRev }, textResult ent .grpcDuplicateKey)
          | some .grpcKeyTooLong =>
              .ok ({ b with newRev := newRev }, textResult ent .grpcKeyTooLong)
          | some .grpcEmptyKey =>
              .ok ({ b with newRev := newRev }, textResult ent .grpcEmptyKey)
          | some e => .error e
          | none =>
              .ok ({ b.setTables t with newRev := newRev, keys := b.keys ++ affected },
                ⟨1, .txn ⟨responseHeader E newRev, success, res⟩⟩)

def applyLeaseGrant (E : Env) (b : Batch) (req : LeaseGrantRequest) : Except Err (Batch × Result) :=
  match cmdLeaseGrant b.store.tables b.store.dbMeta.leaseID b.epoch req with
  | .error e => .error e
  | .ok (t, leaseID, res, val) =>
      .ok ((b.setTables t).setMeta { b.store.dbMeta with leaseID := leaseID },
        ⟨val, .leaseGrant { res with header := some (responseHeader E b.newRev) }⟩)

def applyLeaseRevoke (E : Env) (b : Batch) (id : Int64) : Except Err (Batch × Result) :=
  match cmdLeaseRevoke b.store.tables (b.newRev + 1) b.epoch id.toUInt64 with
  | .error e => .error e
  | .ok (t, affected, val) =>
      let newRev := b.nextRev affected
      .ok ({ b.setTables t with newRev := newRev, keys := b.keys ++ affected },
        ⟨val, .leaseRevoke (responseHeader E newRev)⟩)

def applyLeaseKeepAlive (E : Env) (b : Batch) (id : Int64) : Except Err (Batch × Result) :=
  match cmdLeaseKeepAlive b.store.tables b.epoch id with
  | .error e => .error e
  | .ok (t, res) =>
      .ok (b.setTables t,
        ⟨1, .leaseKeepAlive { res with header := some (responseHeader E b.newRev) }⟩)

def applyLeaseKeepAliveBatch (E : Env) (b : Batch) (ids : List Int64) :
    Except Err (Batch × Result) :=
  match cmdLeaseKeepAliveBatch b.epoch ids b.store.tables with
  | .error e => .error e
  | .ok (t, ttls) =>
      .ok (b.setTables t,
        ⟨1, .leaseKeepAliveBatch { header := some (responseHeader E b.newRev), ttls := ttls }⟩)

def applyTick (b : Batch) (ent : Entry) (term : UInt64) : Except Err (Batch × Result) :=
  if term < b.store.dbMeta.term then .ok (b, textResult ent .termExpired)
  else
    let epoch := b.epoch + 1
    match expireLoop epoch b.store.tables.leaseExp.entries b.store.tables b.newRev b.keys with
    | .error e => .error e
    | .ok (t, newRev, keys) =>
        let b' := (b.setTables t).setMeta { b.store.dbMeta with epoch := epoch }
        .ok ({ b' with epoch := epoch, newRev := newRev, keys := keys }, ⟨ent.index, .tick epoch⟩)

def applyTerm (b : Batch) (ent : Entry) (term : UInt64) : Except Err (Batch × Result) :=
  if term < b.store.dbMeta.term then .ok (b, textResult ent .termExpired)
  else .ok (b.setMeta { b.store.dbMeta with term := term }, ⟨ent.index, .term⟩)

/-- One entry of a batch and its result.  An entry without bytes has no command
byte to look at. -/
def applyEntry (E : Env) (b : Batch) (ent : Entry) : Except Err (Batch × Result) :=
  match ent.cmd with
  | .put req => applyPut E b ent req
  | .deleteRange req => applyDeleteRange E b req
  | .compact revision => applyCompact E b revision
  | .txn req => applyTxn E b ent req
  | .leaseGrant req => applyLeaseGrant E b req
  | .leaseRevoke id => applyLeaseRevoke E b id
  | .leaseKeepAlive id => applyLeaseKeepAlive E b id
  | .leaseKeepAliveBatch ids => applyLeaseKeepAliveBatch E b ids
  | .tick term => applyTick b ent term
  | .term term => applyTerm b ent term
  | .invalid => .ok (b, ent.result)
  | .unknown => .ok (b, ent.result)
  | .empty => .error .panic

def applyEntries (E : Env) : List Entry → Batch → Except Err (Batch × List Result)
  | [], b => .ok (b, [])
  | ent :: ents, b =>
      match applyEntry E b ent with
      | .error e => .error e
      | .ok (b, res) =>
          match applyEntries E ents b with
          | .error e => .error e
          | .ok (b, results) => .ok (b, res :: results)

/-- The start of the closure. -/
def Batch.start (s : Store) : Batch := ⟨s, s.dbMeta.epoch, s.dbMeta.rev, []⟩

/-- The end of the closure: the index is stored always, the revision when it has
grown. -/
def Batch.finish (b : Batch) (rev : Nat) (index : UInt64) : Store :=
  { b.store with
    dbMeta := { b.store.dbMeta with
      index := index
      rev := if rev < b.newRev then b.newRev else b.store.dbMeta.rev } }

/-- What a batch leaves behind: the store, the results of its entries, and the
revision and the affected keys that the watches are told about. -/
structure Updated where
  store : Store
  results : List Result
  newRev : Nat
  keys : List Bytes

def update (E : Env) (s : Store) (ents : List Entry) : Except Err Updated :=
  match applyEntries E ents (.start s) with
  | .error e => .error e
  | .ok (b, results) =>
      match ents.getLast? with
      | none => .error .panic
      | some ent => .ok ⟨b.finish s.dbMeta.rev ent.index, results, b.newRev, b.keys⟩

/-- The time to live of a lease, or -1 for an absent one. -/
def queryLeaseTimeToLive (s : Store) (id : Int64) : Except Err Int64 :=
  match DbLease.get s.tables.lease id.toUInt64 with
  | .error e => .error e
  | .ok item =>
      .ok (if 0 < item.expires then (item.expires - s.dbMeta.epoch).toInt64 else -1)

end Turbokube
