import Turbokube.Model.DbKv

/-!
# Compaction in the storage module

The store of the WebAssembly module has the tables and, but for compaction, the code of the
native one.  Its `compact` is called on every tick and stops after a number of events.  Its
cursor goes over the events as the native one does.  The model also returns how many events a
call has scanned, which the source prints.

A call that fails keeps what it has done.  `compactLeft` has the tables that any call leaves.
-/

namespace Turbokube

open Encoding Lmdb

namespace StorageKv

/-- Despite its name it bounds the events of a call. -/
def limitCompactionMaxKeys : Nat := 1024

/-- The loop over the events that the cursor meets.  When they run out before one at `max` is
met and before the budget is used up, the loop starts over without an event, as in the native
store. -/
def compactLoop (E : Env) (limit : Nat) (max : UInt64) :
    List (Bytes × Bytes) → Nat → Table Bytes Keyrev → UInt64 → DbKv →
      Except Err (DbKv × UInt64 × Nat)
  | [], scanned, keys, last, db =>
      match DbKv.prune (E.order 0 keys.entries) db with
      | .error e => .error e
      | .ok db => if limit ≤ scanned then .ok (db, last, scanned) else .error .checksumInvalid
  | (k, v) :: rest, scanned, keys, last, db =>
      match Keyrev.fromKey k v with
      | .error _ =>
          match DbKv.prune (E.order 0 keys.entries) db with
          | .error e => .error e
          | .ok db => .ok (db, last, scanned)
      | .ok rev =>
          if (0 < max ∧ max ≤ rev.upper) ∨ limit ≤ scanned then
            match DbKv.prune (E.order 0 keys.entries) db with
            | .error e => .error e
            | .ok db => .ok (db, last, scanned)
          else
            match trimChecksum k v with
            | .error e => .error e
            | .ok v' =>
                match skipUvarint v' with
                | .error e => .error e
                | .ok (_, key) =>
                    compactLoop E limit max rest (scanned + 1) (keys.put key rev) rev.upper
                      { db with evt := db.evt.delDup k v }

def compactBy (E : Env) (limit : Nat) (db : DbKv) (max : UInt64) :
    Except Err (DbKv × UInt64 × Nat) :=
  match db.evt.walk with
  | [] => .error .checksumMissing
  | (k, v) :: rest =>
      match Keyrev.fromKey k v with
      | .error e => .error e
      | .ok _ => compactLoop E limit max ((k, v) :: rest) 0 .empty 0 db

def compact (E : Env) (db : DbKv) (max : UInt64) : Except Err (DbKv × UInt64 × Nat) :=
  compactBy E limitCompactionMaxKeys db max

/-- The tables after pruning one key, to its end or up to an error. -/
def pruneDupsLeft (key : Bytes) (rev : Keyrev) : List Bytes → Bool → DbKv → DbKv
  | [], _, db => db
  | b :: rest, hasNewer, db =>
      match Keyrecord.fromBytes {} key b with
      | .error _ => db
      | .ok krec =>
          if rev.word ≤ krec.rev.word then pruneDupsLeft key rev rest true db
          else if hasNewer && !krec.rev.isdel then
            match db.val.remove krec.rev.key with
            | .error _ => db
            | .ok val =>
                pruneDupsLeft key rev rest true { db with rev := db.rev.delDup key b, val := val }
          else pruneDupsLeft key rev rest true { db with rev := db.rev.delDup key b }

def pruneKeyLeft (db : DbKv) (key : Bytes) (rev : Keyrev) : DbKv :=
  match setRange db.rev key with
  | .ok ((k, dups) :: _) => if k = key then pruneDupsLeft key rev dups false db else db
  | _ => db

def pruneLeft : List (Bytes × Keyrev) → DbKv → DbKv
  | [], db => db
  | (key, rev) :: rest, db =>
      match db.pruneKey key rev with
      | .error _ => pruneKeyLeft db key rev
      | .ok db => pruneLeft rest db

/-- The tables a call of `compactLoop` leaves.  Nothing of a failed one is undone. -/
def compactLoopLeft (E : Env) (limit : Nat) (max : UInt64) :
    List (Bytes × Bytes) → Nat → Table Bytes Keyrev → DbKv → DbKv
  | [], _, keys, db => pruneLeft (E.order 0 keys.entries) db
  | (k, v) :: rest, scanned, keys, db =>
      match Keyrev.fromKey k v with
      | .error _ => pruneLeft (E.order 0 keys.entries) db
      | .ok rev =>
          if (0 < max ∧ max ≤ rev.upper) ∨ limit ≤ scanned then
            pruneLeft (E.order 0 keys.entries) db
          else
            match trimChecksum k v with
            | .error _ => db
            | .ok v' =>
                match skipUvarint v' with
                | .error _ => db
                | .ok (_, key) =>
                    compactLoopLeft E limit max rest (scanned + 1) (keys.put key rev)
                      { db with evt := db.evt.delDup k v }

def compactLeftBy (E : Env) (limit : Nat) (db : DbKv) (max : UInt64) : DbKv :=
  match db.evt.walk with
  | [] => db
  | (k, v) :: rest =>
      match Keyrev.fromKey k v with
      | .error _ => db
      | .ok _ => compactLoopLeft E limit max ((k, v) :: rest) 0 .empty db

def compactLeft (E : Env) (db : DbKv) (max : UInt64) : DbKv :=
  compactLeftBy E limitCompactionMaxKeys db max

/-- Calls with nothing written in between, until one scans no event. -/
def compactAll (E : Env) (limit : Nat) (max : UInt64) : Nat → DbKv → Except Err DbKv
  | 0, _ => .error .panic
  | fuel + 1, db =>
      match compactBy E limit db max with
      | .error e => .error e
      | .ok (db, _, scanned) => if scanned = 0 then .ok db else compactAll E limit max fuel db

end StorageKv

end Turbokube
