import Turbokube.Lease.Revoke
import Turbokube.Machine.Commands
import Turbokube.Store.Versioned

/-!
# Keys and their leases

A key names its lease in three places: in its value, in its newest record and in the index
of attached keys.  `Attached` says that they agree.  Deletions and revocations keep it, and
so does a put whose lease is not negative and which, when it keeps the present lease, names
that lease (`PutRequest.NamesLease`): the record of a put takes the lease of the request
even when the value keeps the old one, and the index is only written for leases above 0.
-/

namespace Turbokube

open Encoding Lmdb DbKv

/-- The lease of what a key holds, 0 when it holds nothing. -/
def leaseOf (vs : List Version) : UInt64 := ((current vs).map Kv.lease).getD 0

structure Attached (t : Tables) : Prop where
  index : Indexes t.leaseKey (fun k => leaseOf (versions t.kv.log k))
  named : ∀ k, ∀ v ∈ (versions t.kv.log k).head?, ∀ e ∈ v.item, v.lease = e.lease

/-- The request does not name a negative lease, and if it asks for the present lease to be
kept it names that one. -/
def PutRequest.NamesLease (t : Tables) (req : PutRequest) : Prop :=
  0 ≤ req.lease ∧
    (req.ignoreLease = true → req.lease.toUInt64 = ((t.kv.records req.key).headD {}).lease)

instance (t : Tables) (req : PutRequest) : Decidable (req.NamesLease t) := by
  unfold PutRequest.NamesLease
  infer_instance

variable {E : Env} {S U : Prop} {t t' : Tables} {bound lo hi rev i : Nat} {epoch : UInt64}

namespace Attached

theorem empty : Attached .empty where
  index := .empty
  named k v hv := by cases hv

/-- Only the log and the index matter. -/
theorem congr (h : Attached t) (hlog : t'.kv.log = t.kv.log) (hkey : t'.leaseKey = t.leaseKey) :
    Attached t' where
  index := by rw [hlog, hkey]; exact h.index
  named := by rw [hlog]; exact h.named

/-- The newest record of a key names its lease. -/
theorem lease_eq {ch : Bytes → List Version} (h : Attached t) (hrep : t.kv.Rep E S ch)
    (hlog : LogOk t.kv.log lo hi) (k : Bytes) :
    ((t.kv.records k).headD {}).lease = leaseOf (versions t.kv.log k) := by
  have hcur := hrep.current_eq k
  rw [hrep.records_eq hlog]
  cases hch : ch k with
  | nil =>
      rw [leaseOf, ← hcur, hch]
      rfl
  | cons v vs =>
      have hv : v ∈ ch k := by simp [hch]
      obtain ⟨rest, hrest⟩ := hrep.kept k
      have hhead : (versions t.kv.log k).head? = some v := by
        rw [← hrest, hch]
        rfl
      rw [leaseOf, ← hcur, hch, current_cons, List.map_cons, List.headD_cons]
      cases he : v.item with
      | none =>
          have hdel : v.rev.isdel = true := by
            have hitem := hlog.item_isSome (hrep.mem_versions hv)
            rw [he] at hitem
            simpa using hitem
          exact hrep.lease_of_isdel hlog hv hdel
      | some e => exact h.named k v hhead e he

/-- What a put finds of the key is of the lease the key has. -/
theorem prev_lease {ch : Bytes → List Version} (hrep : t.kv.Rep E S ch)
    (hlog : LogOk t.kv.log lo hi) {req : PutRequest} {db' : DbKv} {prev next : Kv} {patched : Bool}
    (hput : t.kv.put E rev i req.lease.toUInt64 epoch req.key req.value req.ignoreValue
      req.ignoreLease = .ok (db', prev, next, patched)) :
    prev.lease = leaseOf (versions t.kv.log req.key) := by
  rw [leaseOf, ← hrep.current_eq]
  rcases hrep.put_inv hlog hput with ⟨hcur, rfl, -⟩ | ⟨e, hcur, -, -, rfl, -⟩
  · rw [hcur]
    rfl
  · rw [hcur]
    rfl

/-- The lease a key has after a put. -/
theorem leaseOf_put {db db' : DbKv} {req : PutRequest} {prev next : Kv} {patched : Bool}
    (hnone : req.ignoreLease = true → current (versions db.log req.key) = none →
      req.lease.toUInt64 = 0)
    (hput : db.put E rev i req.lease.toUInt64 epoch req.key req.value req.ignoreValue
      req.ignoreLease = .ok (db', prev, next, patched)) :
    (∀ k, k ≠ req.key → versions db'.log k = versions db.log k) ∧
      leaseOf (versions db'.log req.key) =
        (if req.ignoreLease then leaseOf (versions db.log req.key) else req.lease.toUInt64) ∧
      ∀ v ∈ (versions db'.log req.key).head?, v.lease = req.lease.toUInt64 := by
  rw [(put_tables hput).2.2.1]
  refine ⟨fun k hk => versions_append_ne _ hk, ?_, fun v hv => ?_⟩
  · rw [versions_append_self, leaseOf, current_cons, Write.version]
    cases hcur : current (versions db.log req.key) with
    | none =>
        simp only [entryAfter, leaseOf, hcur, Option.map_some, Option.map_none, Option.getD_some,
          Option.getD_none]
        split
        · next hi => exact hnone hi hcur
        · rfl
    | some e =>
        simp only [entryAfter, leaseOf, hcur, Option.map_some, Option.getD_some]
  · rw [versions_append_self] at hv
    obtain rfl := Option.some.inj hv
    rfl

theorem put {req : PutRequest} {res : PutResponse} {affected : List Bytes} (h : Attached t)
    (hver : t.kv.Versioned E S U bound) (hreq : req.NamesLease t)
    (hput : cmdPut E t rev i epoch req = .ok (t', res, affected)) : Attached t' := by
  obtain ⟨ch, hrep, hlog, -⟩ := hver
  obtain ⟨prev, next, patched, hkv, hmove, -, -, -⟩ := cmdPut_inv hput
  have hignore : req.ignoreLease = true →
      req.lease.toUInt64 = leaseOf (versions t.kv.log req.key) := fun hi => by
    rw [← h.lease_eq hrep hlog req.key]
    exact hreq.2 hi
  obtain ⟨leaseKey, hmove', hindex⟩ := h.index.moveLease hreq.1 hignore
  rw [← prev_lease hrep hlog hkv, hmove] at hmove'
  obtain rfl := Except.ok.inj hmove'
  obtain ⟨hother, hself, hnamed⟩ := leaseOf_put (fun hi hcur => by
    rw [hignore hi, leaseOf, hcur]
    rfl) hkv
  have hlease : leaseOf (versions t'.kv.log req.key) = req.lease.toUInt64 := by
    rw [hself]
    split
    · next hi => exact (hignore hi).symm
    · rfl
  constructor
  case index =>
    refine hindex.congr (fun k => ?_)
    by_cases hk : k = req.key
    · rw [hk, Function.update_self, hlease]
    · rw [Function.update_of_ne hk, hother k hk]
  case named =>
    intro k v hv e he
    by_cases hk : k = req.key
    · subst hk
      rw [hnamed v hv, ← hlease, leaseOf, current, show _ = some v from hv, Option.bind_some,
        show _ = some e from he]
      rfl
    · rw [hother k hk] at hv
      exact h.named k v hv e he

/-- Tombstones of keys whose attachments are removed with them. -/
theorem tombstones {ks : List Bytes} {leaseKey : Table Bytes Bytes} (h : Attached t) (subrev : Nat)
    (hindex : Indexes leaseKey
      (fun k => if k ∈ ks then 0 else leaseOf (versions t.kv.log k)))
    (hkv : t'.kv = t.kv.tombstones rev subrev epoch ks) (hkey : t'.leaseKey = leaseKey) :
    Attached t' := by
  have hcases := versions_tombstones t.kv rev subrev epoch ks
  rw [← hkv] at hcases
  constructor
  case index =>
    rw [hkey]
    refine hindex.congr (fun k => ?_)
    rcases hcases k with ⟨hmem, heq⟩ | ⟨hmem, v, vs, heq, hitem⟩
    · rw [if_neg hmem, heq]
    · rw [if_pos hmem, heq, leaseOf, current_cons, hitem]
      rfl
  case named =>
    intro k v hv e he
    rcases hcases k with ⟨-, heq⟩ | ⟨-, v', vs, heq, hitem⟩
    · rw [heq] at hv
      exact h.named k v hv e he
    · rw [heq] at hv
      obtain rfl := Option.some.inj hv
      rw [hitem] at he
      cases he

/-- A record that is deleted names the lease its key is attached to. -/
theorem lease_of_target {ch : Bytes → List Version} (h : Attached t) (hrep : t.kv.Rep E S ch)
    (hlog : LogOk t.kv.log lo hi) {key rangeEnd : Bytes} {kr : Keyrecord}
    (hkr : kr ∈ t.kv.deleteTargets key rangeEnd) :
    kr.lease = leaseOf (versions t.kv.log kr.key) := by
  have hlive := ((mem_deleteTargets hrep.recsOk).mp hkr).1
  obtain ⟨tail, htail⟩ := List.head?_eq_some_iff.mp (liveRec_eq_some_iff.mp hlive).1
  rw [← h.lease_eq hrep hlog, htail]
  rfl

theorem deleteRange {req : DeleteRangeRequest} {res : DeleteRangeResponse} {affected : List Bytes}
    (h : Attached t) (hver : t.kv.Versioned E S U bound)
    (hdel : cmdDeleteRange E t rev i epoch req = .ok (t', res, affected)) : Attached t' := by
  obtain ⟨ch, hrep, hlog, -⟩ := hver
  obtain ⟨items, hkv, hdetach, -, -, -⟩ := cmdDeleteRange_inv hdel
  obtain ⟨rfl, hdb⟩ := deleteRange_inv hrep.recsOk hkv
  obtain ⟨leaseKey, hdetach', hindex⟩ := h.index.detachAll (deleteTargets_nodup hrep.recsOk)
    (fun kr hkr => h.lease_of_target hrep hlog hkr)
  rw [hdetach] at hdetach'
  exact h.tombstones i hindex hdb (Except.ok.inj hdetach')

/-- A key with a lease can be deleted. -/
theorem live_of_lease {ch : Bytes → List Version} (hrep : t.kv.Rep E S ch)
    (hlog : LogOk t.kv.log lo hi) {k : Bytes} (hk : leaseOf (versions t.kv.log k) ≠ 0) :
    ValidKey k ∧ t.kv.Live k := by
  cases hcur : current (versions t.kv.log k) with
  | none =>
      rw [leaseOf, hcur] at hk
      exact absurd rfl hk
  | some e =>
      obtain ⟨v, hv, -⟩ := Option.bind_eq_some_iff.mp hcur
      refine ⟨(hlog.key_of_mem (List.mem_of_head? hv)).1, (hrep.live_iff hlog k).mpr ?_⟩
      rw [hrep.current_eq, hcur]
      rfl

end Attached

/-- What revoking the lease `id` does when the leases are `m`. -/
structure Revocation (m : UInt64 → Option Lease) (rev : Nat) (epoch id : UInt64) (t t' : Tables)
    (ks : List Bytes) : Prop where
  kv : t'.kv = t.kv.tombstones rev 0 epoch ks
  chain : LiveChain rev 0 epoch ks t.kv
  nodup : ks.Nodup
  mem : ∀ k, k ∈ ks ↔ id ≠ 0 ∧ (m id).isSome = true ∧ leaseOf (versions t.kv.log k) = id
  lease : LeaseTables t' (if id = 0 then m else Function.update m id none)
  attached : Attached t'

/-- Revoking a lease deletes exactly the keys attached to it. -/
theorem Attached.revoke {m : UInt64 → Option Lease} (h : Attached t)
    (hver : t.kv.Versioned E S U bound) (hm : LeaseTables t m) (rev : Nat) (epoch id : UInt64) :
    ∃ t' ks val, cmdLeaseRevoke t rev epoch id = .ok (t', ks, val) ∧
      Revocation m rev epoch id t t' ks := by
  obtain ⟨ch, hrep, hlog, -⟩ := hver
  -- an absent lease, or the id that stands for none
  have habsent : m id = none ∨ id = 0 → cmdLeaseRevoke t rev epoch id = .ok (t, [], codeNotFound) →
      ∃ t' ks val, cmdLeaseRevoke t rev epoch id = .ok (t', ks, val) ∧
        Revocation m rev epoch id t t' ks := by
    intro hnone hrevoke
    refine ⟨t, [], _, hrevoke, rfl, trivial, .nil, fun k => ?_, ?_, h⟩
    · rcases hnone with hnone | hzero
      · simp [hnone]
      · simp [hzero]
    · rcases hnone with hnone | hzero
      · rw [← hnone, Function.update_eq_self, ite_self]
        exact hm
      · rw [if_pos hzero]
        exact hm
  by_cases hid : id = 0
  · rcases cmdLeaseRevoke_eq hm rev epoch id with
      ⟨hnone, hrevoke⟩ | ⟨l, -, hid0, -⟩
    · exact habsent hnone hrevoke
    · exact absurd hid hid0
  · obtain ⟨ks, leaseKey, hkeys, hnodup, hks, hindex⟩ := revokeKeys_eq rev epoch [] hid
      (Nat.lt_succ_self _) h.index hrep.recsOk
      (fun k hk => live_of_lease hrep hlog (by rw [hk]; exact hid))
    rcases cmdLeaseRevoke_eq hm rev epoch id with
      ⟨hnone, hrevoke⟩ | ⟨l, hl, hid0,
        ⟨e, herr, -⟩ | ⟨t₁, keys, t₂, hkeys₁, hrevoke, hkv, hkey, h₂, -⟩⟩
    · exact habsent hnone hrevoke
    · rw [herr] at hkeys
      cases hkeys
    · rw [hkeys₁] at hkeys
      obtain ⟨rfl, rfl⟩ := Prod.mk.inj (Except.ok.inj hkeys)
      refine ⟨t₂, keys, 1, hrevoke, hkv, liveChain_of_nodup hnodup (fun k hk => ?_), hnodup,
        fun k => ?_, ?_, ?_⟩
      · exact (live_of_lease hrep hlog (by rw [(hks k).mp hk]; exact hid)).2
      · rw [hks]
        simp [hid, hl]
      · rw [if_neg hid]
        exact h₂
      · refine h.tombstones 0 (hindex.congr (fun k => ?_)) hkv hkey
        rw [detached]
        simp only [hks]

end Turbokube
