import Turbokube.Model.StateMachine
import Turbokube.Model.StorageKv

/-!
# The storage module

The WebAssembly build of the state machine.  Its commands work on the tables as the native
ones do, so `cmdPut` and the others are shared.  What surrounds them is its own: entries are
applied one call at a time to a transaction that `finish` commits, most errors end the entry
and keep what it has done, a tick compacts a piece, and each command that affects keys queues
a notice of its own for the watches.

A write transaction is not seen by readers before it is committed.  The notices queued during
it are handed on right after, by `flush`.  The data of a result for a command that does not
decode repeats the command, which the model does not keep.
-/

namespace Turbokube

open Encoding Lmdb

/-- What `range_watch.Queue` is given: a revision and the keys it affects. -/
structure Queued where
  rev : Nat
  keys : List Bytes
  deriving DecidableEq, Repr

/-- The revision after a command, and its notice. -/
def Batch.queue (b : Batch) (affected : List Bytes) : List Queued :=
  if 0 < affected.length then [⟨b.newRev + 1, affected⟩] else []

namespace StorageKv

/-- A result that only has a text. -/
def text (e : Err) : Result := { data := .text e.error }

/-- A put whose lease cannot be read ends without a word. -/
def applyPut (E : Env) (b : Batch) (req : PutRequest) : Except Err (Batch × List Queued × Result) :=
  if req.ignoreLease ∧ req.lease ≠ 0 then .ok (b, [], text .grpcLeaseProvided)
  else if req.ignoreValue ∧ req.value ≠ [] then .ok (b, [], text .grpcValueProvided)
  else
    match leaseKnown b.store.tables.lease req.lease with
    | .error .panic => .error .panic
    | .error _ => .ok (b, [], {})
    | .ok false => .ok (b, [], text .grpcLeaseNotFound)
    | .ok true =>
        match cmdPut E b.store.tables (b.newRev + 1) 0 b.epoch req with
        | .error .grpcKeyTooLong => .ok (b, [], text .grpcKeyTooLong)
        | .error .grpcEmptyKey => .ok (b, [], text .grpcEmptyKey)
        | .error e => .error e
        | .ok (t, res, affected) =>
            let newRev := b.nextRev affected
            .ok ({ b.setTables t with newRev := newRev }, b.queue affected,
              ⟨1, .put { res with header := some (responseHeader E newRev) }⟩)

def applyDeleteRange (E : Env) (b : Batch) (req : DeleteRangeRequest) :
    Except Err (Batch × List Queued × Result) :=
  match cmdDeleteRange E b.store.tables (b.newRev + 1) 0 b.epoch req with
  | .error e => .error e
  | .ok (t, res, affected) =>
      let newRev := b.nextRev affected
      .ok ({ b.setTables t with newRev := newRev }, b.queue affected,
        ⟨1, .deleteRange { res with header := responseHeader E newRev }⟩)

/-- Only the mark is set.  The ticks do the work. -/
def applyCompact (E : Env) (b : Batch) (revision : Int64) : Batch × List Queued × Result :=
  (b.setMeta { b.store.dbMeta with revMin := revision.toUInt64 }, [],
    ⟨1, .compact (responseHeader E b.newRev)⟩)

/-- The notice is queued before the error of the operations is looked at, and an error that is
not one of the client ends the entry without a word. -/
def applyTxn (E : Env) (b : Batch) (req : TxnRequest) : Except Err (Batch × List Queued × Result) :=
  match txnCompare E b.store.tables.kv req.compare with
  | .error .panic => .error .panic
  | .error _ => .ok (b, [], {})
  | .ok success =>
      match txnOps E b.store.tables b.store.dbMeta.revMin (b.newRev + 1) b.epoch
          (if success then req.success else req.failure) with
      | (t, res, affected, err) =>
          let newRev := b.nextRev affected
          let failed := { b with newRev := newRev }
          match err with
          | some .panic => .error .panic
          | some .grpcDuplicateKey => .ok (failed, b.queue affected, text .grpcDuplicateKey)
          | some .grpcKeyTooLong => .ok (failed, b.queue affected, text .grpcKeyTooLong)
          | some .grpcEmptyKey => .ok (failed, b.queue affected, text .grpcEmptyKey)
          | some _ => .ok (failed, b.queue affected, {})
          | none =>
              .ok ({ b.setTables t with newRev := newRev }, b.queue affected,
                ⟨1, .txn ⟨responseHeader E newRev, success, res⟩⟩)

def applyLeaseRevoke (E : Env) (b : Batch) (id : Int64) :
    Except Err (Batch × List Queued × Result) :=
  match cmdLeaseRevoke b.store.tables (b.newRev + 1) b.epoch id.toUInt64 with
  | .error e => .error e
  | .ok (t, affected, val) =>
      let newRev := b.nextRev affected
      .ok ({ b.setTables t with newRev := newRev }, b.queue affected,
        ⟨val, .leaseRevoke (responseHeader E newRev)⟩)

/-- The revocations of a tick, each with a notice of its own. -/
def expireLoop (epoch : UInt64) :
    List (Bytes × Bytes) → Tables → Nat → List Queued → Except Err (Tables × Nat × List Queued)
  | [], t, newRev, queued => .ok (t, newRev, queued)
  | (k, v) :: rest, t, newRev, queued =>
      if t.leaseExp.get k = none then expireLoop epoch rest t newRev queued
      else
        match DbLeaseExp.due epoch k v with
        | none => .ok (t, newRev, queued)
        | some id =>
            match cmdLeaseRevoke t (newRev + 1) epoch id with
            | .error e => .error e
            | .ok (t, affected, _) =>
                if affected = [] then expireLoop epoch rest t newRev queued
                else expireLoop epoch rest t (newRev + 1) (queued ++ [⟨newRev + 1, affected⟩])

/-- A tick revokes what is due and compacts a piece.  It keeps what a compaction that fails
has done. -/
def applyTick (E : Env) (b : Batch) (index term : UInt64) :
    Except Err (Batch × List Queued × Result) :=
  if term < b.store.dbMeta.term then .ok (b, [], text .termExpired)
  else
    let epoch := b.epoch + 1
    match expireLoop epoch b.store.tables.leaseExp.entries b.store.tables b.newRev [] with
    | .error e => .error e
    | .ok (t, newRev, queued) =>
        let min := b.store.dbMeta.revMin
        let b' := { b.setTables { t with kv := compactLeft E t.kv min } with
          epoch := epoch, newRev := newRev }
        match compact E t.kv min with
        | .error .panic => .error .panic
        | .error e => .ok (b'.setMeta { b.store.dbMeta with epoch := epoch }, queued, text e)
        | .ok (_, rev, _) =>
            .ok (b'.setMeta { b.store.dbMeta with epoch := epoch, revCompacted := rev }, queued,
              ⟨index, .tick epoch⟩)

/-- An entry whose native counterpart affects no key. -/
def unnoticed (r : Except Err (Batch × Result)) : Except Err (Batch × List Queued × Result) :=
  match r with
  | .error e => .error e
  | .ok (b, res) => .ok (b, [], res)

/-- One entry.  The native handlers of the remaining commands do what those of the module
do. -/
def applyEntry (E : Env) (b : Batch) (ent : Entry) : Except Err (Batch × List Queued × Result) :=
  match ent.cmd with
  | .put req => applyPut E b req
  | .deleteRange req => applyDeleteRange E b req
  | .compact revision => .ok (applyCompact E b revision)
  | .txn req => applyTxn E b req
  | .leaseGrant req => unnoticed (applyLeaseGrant E b req)
  | .leaseRevoke id => applyLeaseRevoke E b id
  | .leaseKeepAlive id => unnoticed (applyLeaseKeepAlive E b id)
  | .leaseKeepAliveBatch ids => unnoticed (applyLeaseKeepAliveBatch E b ids)
  | .tick term => applyTick E b ent.index term
  | .term term => unnoticed (applyTerm b { ent with result := {} } term)
  | .invalid => .ok (b, [], {})
  | .unknown => .ok (b, [], {})
  | .empty => .error .panic

/-- The events of the revisions of some notices.  For each the cursor is set to the first
operation of the revision or a later one, and reads that operation only. -/
def revScan (db : DbKv) : List UInt64 → Except Err (List KvEvent)
  | [] => .ok []
  | rev :: revs =>
      match db.evt.seek (putUint64 (rev <<< 12)) with
      | [] => .error .panic
      | (k, dups) :: _ =>
          match dups.mapM (DbKv.evtFromBytes k) with
          | .error _ => .error .panic
          | .ok evts =>
              match revScan db revs with
              | .error e => .error e
              | .ok rest => .ok (evts ++ rest)

end StorageKv

/-- The write transaction of a replica. -/
inductive WriteTxn where
  | none
  | opened (b : Batch) (newIndex : UInt64)
  | committed

/-- A replica.  `queued` are the notices of its write transaction and `flushed` those of the
transactions before. -/
structure Storage where
  store : Store := .init
  txn : WriteTxn := .none
  queued : List Queued := []
  flushed : List Queued := []

/-- What raft calls: `update` for each entry, and `finish`, which commits and then flushes. -/
inductive StorageAction where
  | update (ent : Entry)
  | commit
  | flush

namespace Storage

def apply (E : Env) (σ : Storage) (b : Batch) (ent : Entry) : Option Storage :=
  match StorageKv.applyEntry E b ent with
  | .error _ => none
  | .ok (b, queued, _) =>
      some { σ with txn := .opened b ent.index, queued := σ.queued ++ queued }

/-- `none` is for an action that cannot happen and for one that stops the replica. -/
def act (E : Env) (σ : Storage) : StorageAction → Option Storage
  | .update ent =>
      match σ.txn with
      | .none => σ.apply E (.start σ.store) ent
      | .opened b _ => σ.apply E b ent
      | .committed => none
  | .commit =>
      match σ.txn with
      | .opened b newIndex =>
          some { σ with store := b.finish σ.store.dbMeta.rev newIndex, txn := .committed }
      | _ => none
  | .flush =>
      match σ.txn with
      | .committed =>
          some { σ with txn := .none, queued := [], flushed := σ.flushed ++ σ.queued }
      | _ => none

def acts (E : Env) : List StorageAction → Storage → Option Storage
  | [], σ => some σ
  | a :: rest, σ => (σ.act E a).bind (acts E rest)

end Storage

end Turbokube
