import Turbokube.Model.DbKv

/-!
# The lease tables

`lease` holds the deadline of every lease.  `lease_exp` is an index of deadlines,
ordered so that a scan from its start meets the leases due first.  `lease_key` is
an index of the keys attached to a lease.  The two indexes carry all their data in
the key and only a checksum in the value.
-/

namespace Turbokube

open Encoding Lmdb

structure Lease where
  id : UInt64 := 0
  expires : UInt64 := 0
  renewed : UInt64 := 0
  deriving DecidableEq, Repr

namespace Lease

def fromBytes (key buf : Bytes) : Except Err Lease :=
  if buf.length < 6 then .error .checksumMissing
  else if !(splitChecksum key buf).2 then .error .checksumInvalid
  else if key = [] then .error .leaseKeyInvalid
  else
    let id := match uvarint key with
      | .ok (id, _) => id
      | .error _ => 0
    match readUvarint (splitChecksum key buf).1 with
    | .error e => .error (.uvarint e)
    | .ok (expires, r) =>
        match readUvarint r with
        | .error e => .error (.uvarint e)
        | .ok (renewed, _) => .ok ⟨id, expires, renewed⟩

def bytes (item : Lease) : Bytes :=
  withChecksum (putUvarint item.id) (putUvarint item.expires ++ putUvarint item.renewed)

end Lease

namespace DbLease

/-- An absent lease reads as the zero lease. -/
def get (t : Table Bytes Bytes) (id : UInt64) : Except Err Lease :=
  match t.get (putUvarint id) with
  | none => .ok {}
  | some v => Lease.fromBytes (putUvarint id) v

def put (t : Table Bytes Bytes) (item : Lease) : Table Bytes Bytes :=
  t.put (putUvarint item.id) item.bytes

def del (t : Table Bytes Bytes) (id : UInt64) : Except Err (Table Bytes Bytes) :=
  match t.remove (putUvarint id) with
  | .error e => .error (.lmdb e)
  | .ok t => .ok t

end DbLease

namespace DbLeaseExp

def key (item : Lease) : Bytes := putUint64 item.expires ++ putUvarint item.id

def put (t : Table Bytes Bytes) (item : Lease) : Table Bytes Bytes :=
  t.put (key item) (withChecksum (key item) [])

def del (t : Table Bytes Bytes) (item : Lease) : Except Err (Table Bytes Bytes) :=
  match t.remove (key item) with
  | .error e => .error (.lmdb e)
  | .ok t => .ok t

/-- The lease of an entry that is due at `expires`, if the scan goes on to it. -/
def due (expires : UInt64) (k v : Bytes) : Option UInt64 :=
  match trimChecksum k v with
  | .error _ => none
  | .ok _ =>
      if k.length < 9 then none
      else if expires < uint64 k then none
      else
        match uvarint (k.drop 8) with
        | .ok (id, _) => some id
        | .error _ => some 0

end DbLeaseExp

namespace DbLeaseKey

def key (id : UInt64) (key : Bytes) : Bytes := putUvarint id ++ key

def put (t : Table Bytes Bytes) (id : UInt64) (k : Bytes) : Table Bytes Bytes :=
  t.put (key id k) (withChecksum (key id k) [])

def del (t : Table Bytes Bytes) (id : UInt64) (k : Bytes) : Except Err (Table Bytes Bytes) :=
  match t.remove (key id k) with
  | .error e => .error (.lmdb e)
  | .ok t => .ok t

/-- Capacity of the batch `cmdLeaseRevoke` sweeps with. -/
def batchSize : Nat := 100

def sweepLoop (id : UInt64) :
    Nat → List (Bytes × Bytes) → Table Bytes Bytes → List Bytes →
      Except Err (Table Bytes Bytes × List Bytes)
  | 0, _, t, batch => .ok (t, batch)
  | _ + 1, [], t, batch => .ok (t, batch)
  | n + 1, (k, v) :: rest, t, batch =>
      match trimChecksum k v with
      | .error e => .error e
      | .ok _ =>
          match readUvarint k with
          | .error e => .error (.uvarint e)
          | .ok (found, key) =>
              if found ≠ id then .ok (t, batch)
              else sweepLoop id n rest (t.del k) (batch ++ [key])

/-- Remove up to a batch of the entries of a lease and return their keys. -/
def sweep (t : Table Bytes Bytes) (id : UInt64) : Except Err (Table Bytes Bytes × List Bytes) :=
  sweepLoop id batchSize (t.seek (putUvarint id)) t []

end DbLeaseKey

end Turbokube
