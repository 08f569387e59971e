import Turbokube.Lmdb.Walk
import Turbokube.Model.Kv

/-!
# The key-value tables

Three tables: `rev` lists the revisions of every key newest first, `val` holds a
record for every revision that is not a tombstone, and `evt` holds an event for
every revision, tombstones included.  `put` also rewrites the previous record of
its key as a patch against the new value, so a read of an older revision has to
decode the newer ones of the same key on the way down.

Reads and deletions walk over what a cursor has ahead of it when the walk starts.
None of them adds a key, and what they write or remove lies behind the cursor.
Compaction deletes the events under its cursor, which then meets only some of the
others (`DupTable.walk`).

`log` is not stored by the program.  It records the writes in the order in which
they reach the tables, for statements about what a run has written.
-/

namespace Turbokube

open Encoding Lmdb

/-- What a replica is configured with.  `order` is the iteration order of the Go
map that `compact` fills, which may differ from batch to batch. -/
structure Env where
  flags : Flags
  codec : Codec
  order : Nat → List (Bytes × Keyrev) → List (Bytes × Keyrev)
  order_perm : ∀ n l, (order n l).Perm l
  shardID : UInt64
  replicaID : UInt64

/-- The default settings, with the codec that never shortens and the map iterated
in key order. -/
def Env.plain : Env where
  flags := {}
  codec := .plain
  order _ l := l
  order_perm _ l := .refl l
  shardID := 1
  replicaID := 1

inductive WriteOp where
  | put (val : Bytes) (lease : UInt64) (ignoreValue ignoreLease : Bool)
  | delete
  deriving DecidableEq, Repr

/-- A write of the command at revision `rev`, stored under `kr`. -/
structure Write where
  rev : Nat
  kr : Keyrev
  key : Bytes
  op : WriteOp
  deriving DecidableEq, Repr

structure DbKv where
  evt : DupTable Bytes Bytes
  rev : DupTable Bytes Bytes
  val : Table Bytes Bytes
  log : List Write

def trimChecksum (key val : Bytes) : Except Err Bytes :=
  if val.length < 4 then .error .checksumInvalid
  else if !(splitChecksum key val).2 then .error .checksumInvalid
  else .ok (splitChecksum key val).1

/-- `v[n:]` for the `n` that `binary.Uvarint(v)` returns, with the number read.
A negative `n` is out of range. -/
def skipUvarint (v : Bytes) : Except Err (UInt64 × Bytes) :=
  match uvarint v with
  | .ok r => .ok r
  | .error .overflow => .error .panic
  | .error _ => .ok (0, v)

/-- The content of the event table for a write of `key`. -/
def evtBytes (rev : Keyrev) (epoch : UInt64) (key : Bytes) : Bytes :=
  withChecksum rev.key (putUvarint epoch ++ key)

namespace DbKv

def empty : DbKv := ⟨.empty, .empty, .empty, []⟩

/-- The newest record of a key, or the zero record. -/
def newest (db : DbKv) (key : Bytes) : Except Err Keyrecord :=
  match setRange db.rev key with
  | .error .notFound => .ok {}
  | .error e => .error (.lmdb e)
  | .ok ((k, b :: _) :: _) => if k = key then Keyrecord.fromBytes {} k b else .ok {}
  | .ok _ => .ok {}

/-- The three writes of a put. -/
def record (E : Env) (db : DbKv) (krec : Keyrecord) (next : Kv) (epoch : UInt64) (w : Write) :
    DbKv where
  evt := db.evt.put krec.rev.key (evtBytes krec.rev epoch krec.key)
  rev := db.rev.put krec.key krec.bytes
  val := db.val.put krec.rev.key (next.bytes E.flags E.codec none)
  log := db.log ++ [w]

/-- A nil slice for the empty value, which is how the request decodes. -/
def nonNil (val : Bytes) : Option Bytes := if val = [] then none else some val

/-- The record of a key that was absent. -/
def freshKv (rev subrev : Nat) (lease : UInt64) (key val : Bytes) : Kv where
  rev := revAt rev subrev false
  version := 1
  created := UInt64.ofNat rev
  lease := lease
  key := key
  val := val

/-- The record that follows `prev`. -/
def nextKv (rev subrev : Nat) (lease : UInt64) (key val : Bytes) (ignoreValue ignoreLease : Bool)
    (prev : Kv) : Kv where
  rev := revAt rev subrev false
  version := prev.version + 1
  created := prev.created
  lease := if ignoreLease then prev.lease else lease
  key := key
  val := if ignoreValue then prev.val else val

/-- Store `prev`, now held as `v`, as a patch against `val` if that is shorter. -/
def patchPrev (E : Env) (db : DbKv) (prev : Kv) (v val : Bytes) : DbKv × Bool :=
  let buf := prev.bytes E.flags E.codec (nonNil val)
  if E.flags.patchEnabled ∧ buf.length < v.length then
    ({ db with val := db.val.put prev.rev.key buf }, true)
  else (db, false)

/-- The overwrite path of `put`: `krec` is the newest record of the key. -/
def putOver (E : Env) (db : DbKv) (rev subrev : Nat) (lease epoch : UInt64) (key val : Bytes)
    (ignoreValue ignoreLease : Bool) (krec : Keyrecord) : Except Err (DbKv × Kv × Kv × Bool) :=
  match db.val.fetch krec.rev.key with
  | .error e => .error (.lmdb e)
  | .ok v =>
      match Kv.fromBytes E.codec {} krec.rev.key v none false with
      | (_, some e) => .error e
      | (prev, none) =>
          let next := nextKv rev subrev lease key val ignoreValue ignoreLease prev
          .ok ((db.patchPrev E prev v val).1.record E ⟨key, next.rev, lease⟩ next epoch
            ⟨rev, next.rev, key, .put val lease ignoreValue ignoreLease⟩, prev, next,
            (db.patchPrev E prev v val).2)

/-- Returns the tables, the previous and the new record and whether the previous
one was patched. -/
def put (E : Env) (db : DbKv) (rev subrev : Nat) (lease epoch : UInt64) (key val : Bytes)
    (ignoreValue ignoreLease : Bool) : Except Err (DbKv × Kv × Kv × Bool) :=
  if key.length = 0 then .error .grpcEmptyKey
  else if limitKeyLength < key.length then .error .grpcKeyTooLong
  else
    match db.newest key with
    | .error e => .error e
    | .ok krec =>
        if krec.rev = .zero ∨ krec.rev.isdel then
          let next := freshKv rev subrev lease key val
          .ok (db.record E ⟨key, next.rev, lease⟩ next epoch
            ⟨rev, next.rev, key, .put val lease ignoreValue ignoreLease⟩, {}, next, false)
        else if krec.rev.upper = UInt64.ofNat rev ∧ !E.flags.txnMultiWriteEnabled then
          .error .grpcDuplicateKey
        else db.putOver E rev subrev lease epoch key val ignoreValue ignoreLease krec

/-- Where a walk down the versions of a key stops: the revision found, the live
revisions above it back to the last tombstone, and the older versions. -/
structure Found where
  rev : Keyrev
  next : List Keyrev
  rest : List Bytes
  deriving DecidableEq, Repr

def descend (key : Bytes) (revision : UInt64) (keep : Bool) :
    List Bytes → List Keyrev → Except Err (Option Found)
  | [], _ => .ok none
  | b :: rest, next =>
      match Keyrecord.fromBytes {} key b with
      | .error e => .error e
      | .ok krec =>
          if 0 < revision ∧ revision < krec.rev.upper then
            descend key revision keep rest
              (if krec.rev.isdel then [] else if keep then next ++ [krec.rev] else next)
          else .ok (some ⟨krec.rev, next, rest⟩)

/-- Decode the records of one key from newer to older.  The value of each is what
the next one may be a patch against. -/
def readRevs (E : Env) (db : DbKv) (keysOnly : Bool) :
    List Keyrev → Kv → Option Bytes → Kv × Option Err
  | [], item, _ => (item, none)
  | r :: rest, item, next =>
      match db.val.fetch r.key with
      | .error e => (item, some (.lmdb e))
      | .ok v =>
          match item.fromBytes E.codec r.key v next keysOnly with
          | (item, some e) => (item, some e)
          | (item, none) =>
              readRevs E db keysOnly rest item (if keysOnly then none else some item.val)

structure RangeArgs where
  revision : UInt64 := 0
  minMod : UInt64 := 0
  maxMod : UInt64 := 0
  minCreated : UInt64 := 0
  maxCreated : UInt64 := 0
  limit : UInt64 := 0
  countOnly : Bool := false
  keysOnly : Bool := false
  deriving DecidableEq, Repr

structure RangeAcc where
  items : List Kv := []
  count : Nat := 0
  more : Bool := false
  countOnly : Bool := false
  deriving DecidableEq, Repr

/-- One key of a range.  The flag tells the loop to stop. -/
def rangeKey (E : Env) (db : DbKv) (a : RangeArgs) (k : Bytes) (dups : List Bytes)
    (acc : RangeAcc) : Except Err (RangeAcc × Bool) :=
  match dups with
  | [] => .ok (acc, false)
  | b :: _ =>
      match Keyrecord.fromBytes {} k b with
      | .error e => .error e
      | .ok _ =>
          let full : Bool :=
            !acc.countOnly && decide (0 < a.limit) &&
              decide ((acc.items.length : Int) = a.limit.toInt64.toInt)
          if full && !E.flags.rangeCountFull && !E.flags.rangeCountFake then
            .ok ({ acc with more := true }, true)
          else
            let acc := if full then { acc with more := true, countOnly := true } else acc
            match descend k a.revision (!acc.countOnly) dups [] with
            | .error e => .error e
            | .ok none => .ok (acc, false)
            | .ok (some f) =>
                if 0 < a.minMod ∧ f.rev.upper < a.minMod then .ok (acc, false)
                else if 0 < a.maxMod ∧ a.maxMod < f.rev.upper then .ok (acc, false)
                else if f.rev.isdel then .ok (acc, false)
                else if acc.countOnly then
                  .ok ({ acc with count := acc.count + 1 }, E.flags.rangeCountFake)
                else
                  match readRevs E db a.keysOnly (f.next ++ [f.rev]) {} none with
                  | (_, some e) => .error e
                  | (item, none) =>
                      if 0 < a.minCreated ∧ item.created < a.minCreated then .ok (acc, false)
                      else if 0 < a.maxCreated ∧ a.maxCreated < item.created then .ok (acc, false)
                      else
                        .ok ({ acc with items := acc.items ++ [item], count := acc.count + 1 },
                          false)

def isFullScan (key rangeEnd : Bytes) : Bool := key = [0] && rangeEnd = [0]

/-- Whether a range that has reached `k` ends before it. -/
def rangeOver (key rangeEnd k : Bytes) : Bool :=
  !isFullScan key rangeEnd &&
    (if rangeEnd = [] then decide (k ≠ key) else decide (rangeEnd ≤ k))

def rangeLoop (E : Env) (db : DbKv) (a : RangeArgs) (key rangeEnd : Bytes) :
    List (Bytes × List Bytes) → RangeAcc → Except Err RangeAcc
  | [], acc => .ok acc
  | (k, dups) :: rest, acc =>
      if rangeOver key rangeEnd k then .ok acc
      else
        match rangeKey E db a k dups acc with
        | .error e => .error e
        | .ok (acc, stop) =>
            if stop || rangeEnd = [] then .ok acc else rangeLoop E db a key rangeEnd rest acc

def getRange (E : Env) (db : DbKv) (key rangeEnd : Bytes) (a : RangeArgs) :
    Except Err (List Kv × Nat × Bool) :=
  match setRange db.rev key with
  | .error .notFound => .ok ([], 0, false)
  | .error e => .error (.lmdb e)
  | .ok ahead =>
      match rangeLoop E db a key rangeEnd ahead { countOnly := a.countOnly } with
      | .error e => .error e
      | .ok acc => .ok (acc.items, acc.count, acc.more)

/-- The two writes of a deletion. -/
def tombstone (db : DbKv) (rev subrev : Nat) (epoch : UInt64) (key : Bytes) : DbKv :=
  let kr := revAt rev subrev true
  { db with
    evt := db.evt.put kr.key (evtBytes kr epoch key)
    rev := db.rev.put key (Keyrecord.bytes { key := key, rev := kr })
    log := db.log ++ [⟨rev, kr, key, .delete⟩] }

structure DeleteAcc where
  db : DbKv
  prev : Keyrecord := {}
  items : List Keyrecord := []

/-- A record that does not decode leaves the one before it in place. -/
def keepPrev (prev : Keyrecord) (k v : Bytes) : Keyrecord × Option Err :=
  match prev.fromBytes k v with
  | .ok krec => (krec, none)
  | .error e => (prev, some e)

/-- The end of the range is included: the loop stops above it. -/
def deleteLoop (E : Env) (rev subrev : Nat) (epoch : UInt64) (key rangeEnd : Bytes) :
    List (Bytes × List Bytes) → DeleteAcc → Except Err DeleteAcc
  | [], acc => .ok acc
  | (_, []) :: rest, acc => deleteLoop E rev subrev epoch key rangeEnd rest acc
  | (k, v :: _) :: rest, acc =>
      if v.length < 12 then .error .valueInvalid
      else if rangeEnd = [] ∧ k ≠ key then .ok acc
      else if rangeEnd ≠ [] ∧ rangeEnd < k then .ok acc
      else
        match keepPrev acc.prev k v with
        | (prev, err) =>
            if prev.rev.isdel then
              if rangeEnd = [] then
                match err with
                | some e => .error e
                | none => .ok { acc with prev := prev }
              else deleteLoop E rev subrev epoch key rangeEnd rest { acc with prev := prev }
            else if prev.rev.upper = UInt64.ofNat rev ∧ !E.flags.txnMultiWriteEnabled then
              .error .grpcDuplicateKey
            else
              let acc := ⟨acc.db.tombstone rev subrev epoch k, prev, acc.items ++ [prev]⟩
              if rangeEnd = [] then .ok acc
              else deleteLoop E rev subrev epoch key rangeEnd rest acc

def deleteRange (E : Env) (db : DbKv) (rev subrev : Nat) (epoch : UInt64) (key rangeEnd : Bytes) :
    Except Err (DbKv × List Keyrecord) :=
  match setRange db.rev key with
  | .error .notFound => .ok (db, [])
  | .error e => .error (.lmdb e)
  | .ok ahead =>
      match deleteLoop E rev subrev epoch key rangeEnd ahead { db := db } with
      | .error e => .error e
      | .ok acc => .ok (acc.db, acc.items)

def deleteBatchLoop (rev subrev : Nat) (epoch : UInt64) :
    List Bytes → DbKv → Keyrecord → Option Err → Except Err DbKv
  | [], db, _, err =>
      match err with
      | some e => .error e
      | none => .ok db
  | key :: keys, db, prev, _ =>
      match setRange db.rev key with
      | .error .notFound => .error .notFound
      | .error e => .error (.lmdb e)
      | .ok ((k, v :: _) :: _) =>
          if v.length < 12 then .error .valueInvalid
          else if k ≠ key then .error .notFound
          else
            match keepPrev prev k v with
            | (prev, err) =>
                if prev.rev.isdel then deleteBatchLoop rev subrev epoch keys db prev err
                else
                  deleteBatchLoop rev subrev epoch keys (db.tombstone rev subrev epoch key) prev
                    none
      | .ok _ => .error .notFound

def deleteBatch (db : DbKv) (rev subrev : Nat) (epoch : UInt64) (keys : List Bytes) :
    Except Err DbKv :=
  deleteBatchLoop rev subrev epoch keys db {} none

/-- Prune the versions of one key below `rev`. -/
def pruneDups (key : Bytes) (rev : Keyrev) : List Bytes → Bool → DbKv → Except Err DbKv
  | [], _, db => .ok db
  | b :: rest, hasNewer, db =>
      match Keyrecord.fromBytes {} key b with
      | .error e => .error e
      | .ok krec =>
          if rev.word ≤ krec.rev.word then pruneDups key rev rest true db
          else if hasNewer && !krec.rev.isdel then
            match db.val.remove krec.rev.key with
            | .error e => .error (.lmdb e)
            | .ok val =>
                pruneDups key rev rest true { db with rev := db.rev.delDup key b, val := val }
          else pruneDups key rev rest true { db with rev := db.rev.delDup key b }

def pruneKey (db : DbKv) (key : Bytes) (rev : Keyrev) : Except Err DbKv :=
  match setRange db.rev key with
  | .error .notFound => .ok db
  | .error e => .error (.lmdb e)
  | .ok ((k, dups) :: _) => if k = key then pruneDups key rev dups false db else .ok db
  | .ok [] => .ok db

def prune : List (Bytes × Keyrev) → DbKv → Except Err DbKv
  | [], db => .ok db
  | (key, rev) :: rest, db =>
      match db.pruneKey key rev with
      | .error e => .error e
      | .ok db => prune rest db

/-- A batch of `limit` keys is pruned and the map cleared. -/
def flush (E : Env) (limit n : Nat) (keys : Table Bytes Keyrev) (db : DbKv) :
    Except Err (Nat × Table Bytes Keyrev × DbKv) :=
  if limit ≤ keys.entries.length then
    match prune (E.order n keys.entries) db with
    | .error e => .error e
    | .ok db => .ok (n + 1, .empty, db)
  else .ok (n, keys, db)

/-- The loop over the events that the cursor meets.  `keys` is the map of the
current batch, number `n`.  When the events run out before one at `max` is met the
loop starts over without an event, and the checksum of nothing is invalid. -/
def compactLoop (E : Env) (limit : Nat) (max : UInt64) :
    List (Bytes × Bytes) → Nat → Table Bytes Keyrev → UInt64 → DbKv → Except Err (DbKv × UInt64)
  | [], n, keys, _, db =>
      match prune (E.order n keys.entries) db with
      | .error e => .error e
      | .ok _ => .error .checksumInvalid
  | (k, v) :: rest, n, keys, last, db =>
      match Keyrev.fromKey k v with
      | .error _ =>
          -- the error is overwritten by the pruning that follows
          match prune (E.order n keys.entries) db with
          | .error e => .error e
          | .ok db => .ok (db, last)
      | .ok rev =>
          if 0 < max ∧ max ≤ rev.upper then
            match prune (E.order n keys.entries) db with
            | .error e => .error e
            | .ok db => .ok (db, last)
          else
            match flush E limit n keys db with
            | .error e => .error e
            | .ok (n, keys, db) =>
                match trimChecksum k v with
                | .error e => .error e
                | .ok v' =>
                    match skipUvarint v' with
                    | .error e => .error e
                    | .ok (_, key) =>
                        compactLoop E limit max rest n (keys.put key rev) rev.upper
                          { db with evt := db.evt.delDup k v }

/-- Returns the revision of the last event removed.  The cursor deletes each event it
meets and goes on by `NextDup` and then `Next`, so it steps over events. -/
def compactBy (E : Env) (limit : Nat) (db : DbKv) (max : UInt64) : Except Err (DbKv × UInt64) :=
  match db.evt.walk with
  | [] => .error .checksumMissing
  | (k, v) :: rest =>
      match Keyrev.fromKey k v with
      | .error e => .error e
      | .ok _ => compactLoop E limit max ((k, v) :: rest) 0 .empty 0 db

def compact (E : Env) (db : DbKv) (max : UInt64) : Except Err (DbKv × UInt64) :=
  db.compactBy E limitCompactionMaxKeys max

/-- `getRev` reports an absent key or record as no error. -/
def absentOk : Option Err → Option Err
  | some (.lmdb .notFound) => none
  | e => e

/-- The version below the one a cursor stands on. -/
def prev (E : Env) (db : DbKv) (key : Bytes) (rest : List Bytes) (next : Option Bytes) :
    Kv × Option Err :=
  match rest with
  | [] => ({}, some (.lmdb .notFound))
  | b :: _ =>
      match Keyrecord.fromBytes {} key b with
      | .error e => ({}, some e)
      | .ok prec =>
          match db.val.fetch prec.rev.key with
          | .error e => ({}, some (.lmdb e))
          | .ok v => Kv.fromBytes E.codec {} prec.rev.key v next false

/-- Returns the record of a key at a revision, the one before it and an error. -/
def getRev (E : Env) (db : DbKv) (key : Bytes) (revision : UInt64) (withPrev : Bool) :
    Kv × Kv × Option Err :=
  match setRange db.rev key with
  | .error e => ({}, {}, absentOk (some (.lmdb e)))
  | .ok [] => ({}, {}, none)
  | .ok ((k, dups) :: _) =>
      if k ≠ key then ({}, {}, none)
      else
        match descend key revision true dups [] with
        | .error e => ({}, {}, some e)
        | .ok none => ({}, {}, none)
        | .ok (some f) =>
            if f.rev.isdel then
              if withPrev then
                match db.prev E key f.rest none with
                | (p, err) => ({}, p, absentOk err)
              else ({}, {}, none)
            else
              match readRevs E db false (f.next ++ [f.rev]) {} none with
              | (item, some e) => (item, {}, absentOk (some e))
              | (item, none) =>
                  if withPrev then
                    match db.prev E key f.rest (some item.val) with
                    | (p, err) => (item, p, absentOk err)
                  else (item, {}, none)

def get (E : Env) (db : DbKv) (key : Bytes) : Except Err Kv :=
  match db.getRev E key 0 false with
  | (_, _, some e) => .error e
  | (item, _, none) => .ok item

def evtFromBytes (k v : Bytes) : Except Err KvEvent :=
  match Keyrev.fromKey k v with
  | .error e => .error e
  | .ok rev =>
      match trimChecksum k v with
      | .error e => .error e
      | .ok v =>
          match skipUvarint v with
          | .error e => .error e
          | .ok (epoch, key) => .ok ⟨epoch, key, rev⟩

/-- An event that does not decode ends the scan. -/
def scanPairs : List (Bytes × Bytes) → Except Err (List KvEvent)
  | [] => .ok []
  | (k, v) :: rest =>
      match evtFromBytes k v with
      | .error .panic => .error .panic
      | .error _ => .ok []
      | .ok evt =>
          match scanPairs rest with
          | .error e => .error e
          | .ok evts => .ok (evt :: evts)

def scan (db : DbKv) (revision : UInt64) : Except Err (List KvEvent) :=
  scanPairs (db.evt.seekPairs (putUint64 (revision <<< 12)))

end DbKv

end Turbokube
