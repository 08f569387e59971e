import Turbokube.Model.StorageKv

/-!
# Records and compaction in the Zig module

The Zig port encodes a record into a buffer of fixed size.

Its compaction walks over the events as the Go one does, with a flag for the
end of the events where Go has an error.  Its outer loop ends by another flag, so a call is given a
number of rounds and has no result while they do not suffice.  A delete that finds nothing is no
error here.  The keys of the event table are revisions of 8 bytes.
-/

namespace Turbokube

open Encoding Lmdb

namespace ZigKeyrev

def init (upper lower : UInt64) (isDel : Bool) : Keyrev :=
  let a := upper <<< 12 + lower <<< 2
  if isDel then ⟨a ||| revMaskDelete⟩ else ⟨a⟩

end ZigKeyrev

namespace ZigKeyrecord

/-- Eight bytes of revision, the longest uvarint and the checksum. -/
def recordSize : Nat := 22

def fromBytes (key buf : Bytes) : Except Err Keyrecord :=
  if buf.length < 11 then .error .checksumMissing
  else if !(splitChecksum key buf).2 then .error .checksumInvalid
  else
    let rev := (Keyrev.mk (uint64 buf)).invert
    if rev.isdel then .ok { key := key, rev := rev }
    else
      match uvarint (buf.drop 8) with
      | .error _ => .ok { key := key, rev := rev }
      | .ok (lease, _) => .ok { key := key, rev := rev, lease := lease }

/-- What precedes the checksum. -/
def body (kr : Keyrecord) : Bytes :=
  if kr.rev.isdel then kr.rev.invert.key else kr.rev.invert.key ++ putUvarint kr.lease

def bytes (kr : Keyrecord) : Except Err Bytes :=
  if recordSize < (body kr).length + 4 then .error .panic
  else .ok (body kr ++ putUint32 (crc32 (kr.key ++ body kr)))

end ZigKeyrecord

namespace ZigKv

def pruneDups (key : Bytes) (keyRev : Keyrev) : List Bytes → Bool → DbKv → Except Err DbKv
  | [], _, db => .ok db
  | b :: rest, hasNewer, db =>
      match Keyrecord.fromBytes {} key b with
      | .error e => .error e
      | .ok krec =>
          if keyRev.word ≤ krec.rev.word then pruneDups key keyRev rest true db
          else if hasNewer && !krec.rev.isdel then
            pruneDups key keyRev rest true
              { db with rev := db.rev.delDup key b, val := db.val.del krec.rev.key }
          else pruneDups key keyRev rest true { db with rev := db.rev.delDup key b }

def pruneKey (db : DbKv) (key : Bytes) (keyRev : Keyrev) : Except Err DbKv :=
  match setRange db.rev key with
  | .error .notFound => .ok db
  | .error e => .error (.lmdb e)
  | .ok ((k, dups) :: _) => if k = key then pruneDups key keyRev dups false db else .ok db
  | .ok [] => .ok db

def prune : List (Bytes × Keyrev) → DbKv → Except Err DbKv
  | [], db => .ok db
  | (key, keyRev) :: rest, db =>
      match pruneKey db key keyRev with
      | .error e => .error e
      | .ok db => prune rest db

/-- The variables of `compact`.  The cursor of the events is on the first of `ahead`, the
events it meets. -/
structure Vars where
  db : DbKv
  ahead : List (Bytes × Bytes)
  keys : Table Bytes Keyrev := .empty
  last : UInt64 := 0
  scanned : Nat := 0
  notFound : Bool := false
  done : Bool := false

/-- The key an event names. -/
def evtKey (k v : Bytes) : Except Err Bytes :=
  match trimChecksum k v with
  | .error e => .error e
  | .ok body =>
      match uvarint body with
      | .error _ => .error .valueInvalid
      | .ok (_, key) => .ok key

/-- The loop over the events. -/
def scanLoop (limit : Nat) (max : UInt64) : List (Bytes × Bytes) → Vars → Except Err Vars
  | [], s => .ok { s with ahead := [], notFound := true }
  | (k, v) :: rest, s =>
      match Keyrev.fromKey k v with
      | .error _ => .ok { s with ahead := (k, v) :: rest, done := true }
      | .ok rev =>
          if (0 < max ∧ max ≤ rev.upper) ∨ limit ≤ s.scanned then
            .ok { s with ahead := (k, v) :: rest, done := true }
          else
            match evtKey k v with
            | .error e => .error e
            | .ok key =>
                scanLoop limit max rest
                  { s with
                    scanned := s.scanned + 1, last := rev.upper, keys := s.keys.put key rev,
                    db := { s.db with evt := s.db.evt.delDup k v } }

/-- The body of the outer loop.  It is left early by an error only. -/
def round (E : Env) (limit : Nat) (max : UInt64) (n : Nat) (s : Vars) : Except Err Vars :=
  match if s.notFound then .ok s else scanLoop limit max s.ahead s with
  | .error e => .error e
  | .ok s =>
      match prune (E.order n s.keys.entries) s.db with
      | .error e => .error e
      | .ok db => .ok { s with db := db, keys := if s.done then s.keys else .empty }

/-- The outer loop from its round `n` on, for some rounds. -/
def compactLoop (E : Env) (limit : Nat) (max : UInt64) :
    Nat → Nat → Vars → Option (Except Err (DbKv × UInt64))
  | 0, _, _ => none
  | rounds + 1, n, s =>
      if s.done then some (.ok (s.db, s.last))
      else
        match round E limit max n s with
        | .error e => some (.error e)
        | .ok s => compactLoop E limit max rounds (n + 1) s

def compact (E : Env) (rounds : Nat) (db : DbKv) (max : UInt64) :
    Option (Except Err (DbKv × UInt64)) :=
  match db.evt.walk with
  | [] => some (.error .checksumMissing)
  | (k, v) :: rest =>
      match Keyrev.fromKey k v with
      | .error e => some (.error e)
      | .ok _ =>
          compactLoop E StorageKv.limitCompactionMaxKeys max rounds 0
            { db := db, ahead := (k, v) :: rest }

end ZigKv

end Turbokube
