import Turbokube.Encoding.Uvarint
import Turbokube.Lmdb.Cursor

/-!
# Errors, settings and codecs

`Err` has one constructor per error value the state machine can return, plus
`panic` for a Go run-time panic.  `Err.error` is the text of the error, which is
what a rejected request's result carries.

`Codec` stands for the patch package and for snappy: the store only relies on
both inverting their own output and on that output never being empty (a patch
starts with the length of its target, a snappy block with its decoded length).
`Patch.codec` is one with the patches of the package.
-/

namespace Turbokube

open Encoding

inductive Err where
  | grpcEmptyKey
  | grpcKeyTooLong
  | grpcValueProvided
  | grpcLeaseProvided
  | grpcDuplicateKey
  | grpcCompacted
  | grpcFutureRev
  | grpcLeaseNotFound
  | grpcLeaseExist
  | checksumInvalid
  | checksumMissing
  | valueInvalid
  | patchInvalid
  | leaseKeyInvalid
  | notFound
  | termExpired
  | patchCorrupt
  | snappyCorrupt
  | uvarint (e : UvarintError)
  | lmdb (e : Lmdb.Error)
  | panic
  deriving DecidableEq, Repr

/-- The text of a gRPC status error. -/
def statusError (code desc : String) : String := "rpc error: code = " ++ code ++ " desc = " ++ desc

def Err.error : Err → String
  | .grpcEmptyKey => statusError "InvalidArgument" "etcdserver: key is not provided"
  | .grpcKeyTooLong => statusError "InvalidArgument" "etcdserver: key too long"
  | .grpcValueProvided => statusError "InvalidArgument" "etcdserver: value is provided"
  | .grpcLeaseProvided => statusError "InvalidArgument" "etcdserver: lease is provided"
  | .grpcDuplicateKey =>
      statusError "InvalidArgument" "etcdserver: duplicate key given in txn request"
  | .grpcCompacted =>
      statusError "OutOfRange" "etcdserver: mvcc: required revision has been compacted"
  | .grpcFutureRev =>
      statusError "OutOfRange" "etcdserver: mvcc: required revision is a future revision"
  | .grpcLeaseNotFound => statusError "NotFound" "etcdserver: requested lease not found"
  | .grpcLeaseExist => statusError "FailedPrecondition" "etcdserver: lease already exists"
  | .checksumInvalid => "Checksum invalid"
  | .checksumMissing => "Checksum missing"
  | .valueInvalid => "Value invalid"
  | .patchInvalid => "Patch invalid (missing next?)"
  | .leaseKeyInvalid => "Lease key invalid"
  | .notFound => "Not found"
  | .termExpired => "Term expired"
  | .patchCorrupt => "corrupt patch"
  | .snappyCorrupt => "snappy: corrupt input"
  | .uvarint .eof => "EOF"
  | .uvarint .unexpectedEOF => "unexpected EOF"
  | .uvarint .overflow => "binary: varint overflows a 64-bit integer"
  | .lmdb .notFound => "mdb_get: MDB_NOTFOUND: No matching key/data pair found"
  | .lmdb .badValSize => "mdb_cursor_get: MDB_BAD_VALSIZE: Unsupported size of key/DB name/data"
  | .panic => "runtime error"

def limitKeyLength : Nat := 480

def limitCompactionMaxKeys : Nat := 1000

/-- The bound the packed revision leaves for the op index of a transaction
(`PCB_TXN_OPS_LIMIT`).  No function of the state machine reads it. -/
def txnOpsLimit : Nat := 1024

structure Flags where
  rangeCountFull : Bool := true
  rangeCountFake : Bool := false
  patchEnabled : Bool := true
  compressionEnabled : Bool := true
  txnMultiWriteEnabled : Bool := false
  deriving DecidableEq, Repr

structure Codec where
  /-- `patch.Generate next val`. -/
  generate : Bytes → Bytes → Bytes
  /-- `patch.Apply next patch`. -/
  apply : Bytes → Bytes → Option Bytes
  /-- `snappy.Encode`. -/
  encode : Bytes → Bytes
  /-- `snappy.Decode`. -/
  decode : Bytes → Option Bytes
  apply_generate : ∀ next val, apply next (generate next val) = some val
  generate_ne_nil : ∀ next val, generate next val ≠ []
  decode_encode : ∀ val, decode (encode val) = some val
  encode_ne_nil : ∀ val, encode val ≠ []

/-- A codec that neither shortens a value.  It agrees with the real packages on
values too short to gain from a patch or from compression. -/
def Codec.plain : Codec where
  generate _ val := 0 :: val
  apply _ p := some p.tail
  encode val := 0 :: val
  decode p := some p.tail
  apply_generate _ _ := rfl
  generate_ne_nil _ _ := List.cons_ne_nil _ _
  decode_encode _ := rfl
  encode_ne_nil _ := List.cons_ne_nil _ _

end Turbokube
