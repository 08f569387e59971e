import Turbokube.Encoding.Crc
import Turbokube.Model.Types

/-!
# Stored records

`Keyrev` packs a revision, the index of the writing operation inside its command
and a delete flag into one word: twelve bits below the revision, ten of them the
index.  `Keyrecord` is an entry of the revision table, which lists the versions
of a key newest first because the word is stored inverted.  `Kv` is an entry of
the value table, optionally as a patch against the next newer value.
-/

namespace Turbokube

open Encoding

structure Keyrev where
  word : UInt64
  deriving DecidableEq, Repr

def revMaskLower : UInt64 := (0xFFFFFFFFFFFFFFFF : UInt64) >>> 54

def revMaskDelete : UInt64 := (1 : UInt64) <<< 1

/-- The two parts are added, so an index of 1024 or more carries into the
revision. -/
def newkeyrev (upper lower : UInt64) (isdel : Bool) : Keyrev :=
  let a := upper <<< 12 + lower <<< 2
  ⟨if isdel then a ||| revMaskDelete else a⟩

/-- The revision operation number `subrev` of the command at revision `rev`
writes. -/
def revAt (rev subrev : Nat) (isdel : Bool) : Keyrev :=
  newkeyrev (UInt64.ofNat rev) (UInt64.ofNat subrev) isdel

namespace Keyrev

def zero : Keyrev := ⟨0⟩

def invert (kr : Keyrev) : Keyrev := ⟨0xFFFFFFFFFFFFFFFF - kr.word⟩

def upper (kr : Keyrev) : UInt64 := kr.word >>> 12

def lower (kr : Keyrev) : UInt64 := kr.word >>> 2 &&& revMaskLower

def isdel (kr : Keyrev) : Bool := 0 < kr.word &&& revMaskDelete

def key (kr : Keyrev) : Bytes := putUint64 kr.word

def fromKey (key buf : Bytes) : Except Err Keyrev :=
  if buf.length < 4 then .error .checksumMissing
  else if !(splitChecksum key buf).2 then .error .checksumInvalid
  else .ok ⟨uint64 key⟩

end Keyrev

structure Keyrecord where
  key : Bytes := []
  rev : Keyrev := .zero
  lease : UInt64 := 0
  deriving DecidableEq, Repr

namespace Keyrecord

/-- A tombstone carries no lease, and decoding one leaves the receiver's. -/
def fromBytes (kr : Keyrecord) (key buf : Bytes) : Except Err Keyrecord :=
  if buf.length < 11 then .error .checksumMissing
  else if !(splitChecksum key buf).2 then .error .checksumInvalid
  else
    let rev := (Keyrev.mk (uint64 buf)).invert
    if rev.isdel then .ok { kr with key := key, rev := rev }
    else
      match uvarint (buf.drop 8) with
      | .error _ => .ok { key := key, rev := rev, lease := 0 }
      | .ok (lease, _) => .ok { key := key, rev := rev, lease := lease }

def bytes (kr : Keyrecord) : Bytes :=
  let buf := kr.rev.invert.key
  let buf := if kr.rev.isdel then buf else buf ++ putUvarint kr.lease
  withChecksum kr.key buf

end Keyrecord

structure KvEvent where
  epoch : UInt64
  key : Bytes
  rev : Keyrev
  deriving DecidableEq, Repr

inductive EventType where
  | put
  | delete
  deriving DecidableEq, Repr

def KvEvent.etype (evt : KvEvent) : EventType := if evt.rev.isdel then .delete else .put

/-- The flags byte of a record is left out: only `bytes` and `fromBytes` use
it. -/
structure Kv where
  rev : Keyrev := .zero
  version : UInt64 := 0
  created : UInt64 := 0
  lease : UInt64 := 0
  key : Bytes := []
  val : Bytes := []
  deriving DecidableEq, Repr

def kvFlagPatch : UInt8 := 1

def kvFlagCompressed : UInt8 := 2

structure KeyValue where
  key : Bytes
  createRevision : Int64
  modRevision : Int64
  version : Int64
  value : Bytes
  lease : Int64
  deriving DecidableEq, Repr

namespace Kv

variable (F : Flags) (C : Codec)

/-- The value as a patch against `next` when that is shorter. -/
def patched (val : Bytes) : Option Bytes → Bytes × UInt8
  | none => (val, 0)
  | some next =>
      if F.patchEnabled then
        let p := C.generate next val
        if p.length < val.length then (p, kvFlagPatch) else (val, 0)
      else (val, 0)

def compressed (val : Bytes) (flags : UInt8) : Bytes × UInt8 :=
  if F.compressionEnabled ∧ 16 < val.length then
    let p := C.encode val
    if p.length < val.length then (p, flags ||| kvFlagCompressed) else (val, flags)
  else (val, flags)

def packed (val : Bytes) (next : Option Bytes) : Bytes × UInt8 :=
  compressed F C (patched F C val next).1 (patched F C val next).2

def bytes (kv : Kv) (next : Option Bytes) : Bytes :=
  let buf := putUvarint (UInt64.ofNat kv.key.length) ++ kv.key
  let buf :=
    if kv.rev.isdel then buf
    else
      buf ++ putUvarint kv.created ++ putUvarint kv.version ++ putUvarint kv.lease ++
        [(packed F C kv.val next).2] ++ (packed F C kv.val next).1
  withChecksum kv.rev.key buf

/-- Undo `packed`: `next` is the newer value a patch was made against.  What a
failed step leaves in the value is returned with the error. -/
def unpacked (flags : UInt8) (val : Bytes) (next : Option Bytes) : Bytes × Option Err :=
  let plain :=
    if 0 < flags &&& kvFlagCompressed then C.decode val else some val
  match plain with
  | none => ([], some .snappyCorrupt)
  | some val =>
      if 0 < flags &&& kvFlagPatch then
        match next with
        | none => (val, some .patchInvalid)
        | some next =>
            match C.apply next val with
            | none => ([], some .patchCorrupt)
            | some val => (val, none)
      else (val, none)

/-- What follows the key of a record. -/
def fromTail (kv : Kv) (r : Bytes) (next : Option Bytes) (noval : Bool) : Kv × Option Err :=
  match readUvarint r with
  | .error e => (kv, some (.uvarint e))
  | .ok (created, r) =>
      let kv := { kv with created := created }
      match readUvarint r with
      | .error e => (kv, some (.uvarint e))
      | .ok (version, r) =>
          let kv := { kv with version := version }
          match readUvarint r with
          | .error e => (kv, some (.uvarint e))
          | .ok (lease, r) =>
              let kv := { kv with lease := lease }
              match r with
              | [] => (kv, some (.uvarint .eof))
              | flags :: r =>
                  if noval then (kv, none)
                  else ({ kv with val := (unpacked C flags r next).1 }, (unpacked C flags r next).2)

/-- The record as far as it could be read, and the error that stopped it. -/
def fromBytes (kv : Kv) (revKey buf : Bytes) (next : Option Bytes) (noval : Bool) :
    Kv × Option Err :=
  if buf.length < 11 then (kv, some .checksumMissing)
  else if !(splitChecksum revKey buf).2 then (kv, some .checksumInvalid)
  else
    let kv := { kv with rev := ⟨uint64 revKey⟩ }
    if kv.rev.isdel then (kv, none)
    else
      match uvarint buf with
      | .error _ => (kv, some .panic)
      | .ok (keylen, rest) =>
          -- the slice expressions panic when the key runs into the checksum
          if rest.length < keylen.toNat + 4 then (kv, some .panic)
          else
            let body := rest.take (rest.length - 4)
            fromTail C { kv with key := body.take keylen.toNat } (body.drop keylen.toNat) next noval

def toProto (kv : Kv) : KeyValue where
  key := kv.key
  createRevision := kv.created.toInt64
  modRevision := kv.rev.upper.toInt64
  version := kv.version.toInt64
  value := kv.val
  lease := kv.lease.toInt64

end Kv

end Turbokube
