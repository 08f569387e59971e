import Turbokube.Model.Kv

/-!
# Requests, responses and log entries

The protobuf messages the state machine reads and writes, after decoding: the wire
format is not modelled, and an entry that does not decode is `Cmd.invalid`.
Enumerations are open, so each has a constructor for the values without a name.
Fields that no modelled function reads (sort order of a range, the raft term of a
header, `physical` of a compaction) are left out.
-/

namespace Turbokube

open Encoding

structure ResponseHeader where
  clusterId : UInt64
  memberId : UInt64
  revision : Int64
  deriving DecidableEq, Repr

structure PutRequest where
  key : Bytes
  value : Bytes := []
  lease : Int64 := 0
  prevKv : Bool := false
  ignoreValue : Bool := false
  ignoreLease : Bool := false
  deriving DecidableEq, Repr

structure PutResponse where
  header : Option ResponseHeader := none
  prevKv : Option KeyValue := none
  deriving DecidableEq, Repr

structure DeleteRangeRequest where
  key : Bytes
  rangeEnd : Bytes := []
  prevKv : Bool := false
  deriving DecidableEq, Repr

structure DeleteRangeResponse where
  header : ResponseHeader
  deleted : Int64
  prevKvs : List KeyValue := []
  deriving DecidableEq, Repr

structure RangeRequest where
  key : Bytes
  rangeEnd : Bytes := []
  limit : Int64 := 0
  revision : Int64 := 0
  keysOnly : Bool := false
  countOnly : Bool := false
  minModRevision : Int64 := 0
  maxModRevision : Int64 := 0
  minCreateRevision : Int64 := 0
  maxCreateRevision : Int64 := 0
  deriving DecidableEq, Repr

structure RangeResponse where
  header : ResponseHeader
  kvs : List KeyValue := []
  more : Bool := false
  count : Int64 := 0
  deriving DecidableEq, Repr

/-- The request of an operation is a `oneof`.  A nested transaction is decoded and
ignored, like an operation without a request. -/
inductive RequestOp where
  | range (req : RangeRequest)
  | put (req : PutRequest)
  | deleteRange (req : DeleteRangeRequest)
  | txn
  | none
  deriving DecidableEq, Repr

inductive ResponseOp where
  | range (res : RangeResponse)
  | put (res : PutResponse)
  | deleteRange (res : DeleteRangeResponse)
  deriving DecidableEq, Repr

inductive CompareResult where
  | equal
  | greater
  | less
  | notEqual
  | other (n : Int32)
  deriving DecidableEq, Repr

inductive CompareTarget where
  | version
  | create
  | mod
  | value
  | lease
  | other (n : Int32)
  deriving DecidableEq, Repr

inductive TargetUnion where
  | version (n : Int64)
  | createRevision (n : Int64)
  | modRevision (n : Int64)
  | value (v : Bytes)
  | lease (n : Int64)
  | none
  deriving DecidableEq, Repr

structure Compare where
  result : CompareResult
  target : CompareTarget
  key : Bytes
  targetUnion : TargetUnion
  deriving DecidableEq, Repr

structure TxnRequest where
  compare : List Compare := []
  success : List RequestOp := []
  failure : List RequestOp := []
  deriving DecidableEq, Repr

structure TxnResponse where
  header : ResponseHeader
  succeeded : Bool
  responses : List ResponseOp
  deriving DecidableEq, Repr

structure LeaseGrantRequest where
  ttl : Int64
  id : Int64 := 0
  deriving DecidableEq, Repr

structure LeaseGrantResponse where
  header : Option ResponseHeader := none
  id : Int64 := 0
  ttl : Int64 := 0
  error : String := ""
  deriving DecidableEq, Repr

structure LeaseKeepAliveResponse where
  header : Option ResponseHeader := none
  id : Int64
  ttl : Int64 := 0
  deriving DecidableEq, Repr

structure LeaseKeepAliveBatchResponse where
  header : Option ResponseHeader := none
  ttls : List Int64 := []
  deriving DecidableEq, Repr

inductive Cmd where
  | term (term : UInt64)
  | tick (term : UInt64)
  | put (req : PutRequest)
  | deleteRange (req : DeleteRangeRequest)
  | compact (revision : Int64)
  | txn (req : TxnRequest)
  | leaseGrant (req : LeaseGrantRequest)
  | leaseRevoke (id : Int64)
  | leaseKeepAlive (id : Int64)
  | leaseKeepAliveBatch (ids : List Int64)
  | invalid
  | unknown
  | empty
  deriving DecidableEq, Repr

/-- The data of a result: the text of an error, or an encoded response. -/
inductive Data where
  | none
  | text (msg : String)
  | term
  | tick (epoch : UInt64)
  | put (res : PutResponse)
  | deleteRange (res : DeleteRangeResponse)
  | compact (header : ResponseHeader)
  | txn (res : TxnResponse)
  | leaseGrant (res : LeaseGrantResponse)
  | leaseRevoke (header : ResponseHeader)
  | leaseKeepAlive (res : LeaseKeepAliveResponse)
  | leaseKeepAliveBatch (res : LeaseKeepAliveBatchResponse)
  deriving DecidableEq, Repr

structure Result where
  value : UInt64 := 0
  data : Data := .none
  deriving DecidableEq, Repr

structure Entry where
  index : UInt64
  cmd : Cmd
  result : Result := {}
  deriving DecidableEq, Repr

end Turbokube
