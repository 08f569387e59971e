import Turbokube.Model.StateMachine

/-!
# Queries and the services that send them

`query` is `stateMachine.Query`, which reads a store without a place in the log.  A query is
given after decoding, and one that does not decode leaves the result empty.

`Node` is a store together with `localRevision`, a variable of the process that `Update` sets
after it has committed.  A node that starts again has the store and has lost the variable.  From
it the service decides whether a range is sent through the log or answered by the store of the
node (`rangeSerializable`).
-/

namespace Turbokube

open Encoding Lmdb

/-- The leases of the table, in the order of their keys. -/
def DbLease.all : List (Bytes × Bytes) → Except Err (List Lease)
  | [] => .ok []
  | (k, v) :: rest =>
      if k.length = 0 then .ok []
      else
        match Lease.fromBytes k v with
        | .error e => .error e
        | .ok item =>
            match DbLease.all rest with
            | .error e => .error e
            | .ok items => .ok (item :: items)

def queryLeaseLeases (s : Store) : Except Err (List Int64) :=
  match DbLease.all s.tables.lease.entries with
  | .error e => .error e
  | .ok items => .ok (items.map (fun item => item.id.toInt64))

inductive Query where
  | kvRange (req : RangeRequest)
  | leaseLeases
  | leaseTimeToLive (id : Int64)
  | watchProgress
  | header
  | invalid
  | unknown
  deriving DecidableEq, Repr

inductive QueryData where
  | none
  | text (msg : String)
  | kvRange (res : RangeResponse)
  | leaseLeases (header : ResponseHeader) (leases : List Int64)
  | leaseTimeToLive (header : ResponseHeader) (ttl : Int64)
  | header (header : ResponseHeader)
  deriving DecidableEq, Repr

structure QueryResult where
  value : UInt64 := 0
  data : QueryData := .none
  deriving DecidableEq, Repr

def query (E : Env) (s : Store) : Query → QueryResult
  | .kvRange req =>
      match queryRange E s.tables.kv s.dbMeta.revMin s.dbMeta.rev req with
      | .error e => { data := .text e.error }
      | .ok res => ⟨1, .kvRange res⟩
  | .leaseLeases =>
      match queryLeaseLeases s with
      | .error e => { data := .text e.error }
      | .ok ids => ⟨1, .leaseLeases (responseHeader E s.dbMeta.rev) ids⟩
  | .leaseTimeToLive id =>
      match queryLeaseTimeToLive s id with
      | .error e => { data := .text e.error }
      | .ok ttl => ⟨1, .leaseTimeToLive (responseHeader E s.dbMeta.rev) ttl⟩
  | .watchProgress => ⟨1, .header (responseHeader E s.dbMeta.rev)⟩
  | .header => ⟨1, .header (responseHeader E s.dbMeta.rev)⟩
  | .invalid => {}
  | .unknown => {}

structure Node where
  store : Store := .init
  localRevision : UInt64 := 0

def Node.update (E : Env) (n : Node) (ents : List Entry) : Except Err (Node × List Result) :=
  match Turbokube.update E n.store ents with
  | .error e => .error e
  | .ok u =>
      let localRevision :=
        if n.store.dbMeta.rev ≠ u.newRev then UInt64.ofNat u.newRev else n.localRevision
      .ok (⟨u.store, localRevision⟩, u.results)

/-- Whether `kvService.Range` asks for a read without the log.  `readLocal` is
`PCB_READ_LOCAL`. -/
def rangeSerializable (readLocal : Bool) (localRevision : UInt64) (serializable : Bool)
    (req : RangeRequest) : Bool :=
  if !serializable && readLocal && decide (0 < req.revision) &&
      decide (req.revision ≤ localRevision.toInt64) then true
  else serializable

end Turbokube
