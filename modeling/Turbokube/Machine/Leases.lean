import Turbokube.Lease.Revoke
import Turbokube.Machine.Runs

/-!
# Lease tables of a run

Whatever a run is asked to do, its lease table decodes and every lease has the entry of
its deadline in the index, so a revocation finds what it removes.
-/

namespace Turbokube

open Encoding Lmdb

variable {t t' : Tables} {m : UInt64 → Option Lease} {epoch id : UInt64}

/-- What a lease that is not due keeps over a revocation or a tick. -/
structure Kept (id : UInt64) (t t' : Tables) : Prop where
  lease : DbLease.get t'.lease id = DbLease.get t.lease id
  keys : ∀ k, t'.leaseKey.get (DbLeaseKey.key id k) = t.leaseKey.get (DbLeaseKey.key id k)

theorem Kept.refl (id : UInt64) (t : Tables) : Kept id t t := ⟨rfl, fun _ => rfl⟩

theorem Kept.trans {t₁ : Tables} (h : Kept id t t₁) (h' : Kept id t₁ t') : Kept id t t' :=
  ⟨h'.lease.trans h.lease, fun k => (h'.keys k).trans (h.keys k)⟩

/-- A revocation removes one lease or none, and leaves the other leases and their keys alone. -/
theorem LeaseTables.revoke {rev : Nat} {keys : List Bytes} {val : UInt64} (h : LeaseTables t m)
    (hrevoke : cmdLeaseRevoke t rev epoch id = .ok (t', keys, val)) :
    ∃ m', LeaseTables t' m' ∧ (NoStale t m → NoStale t' m') ∧
      (∀ id', ∀ l ∈ m' id', l ∈ m id') ∧
      ∀ id', id' ≠ id ∨ id = 0 → m' id' = m id' ∧ Kept id' t t' := by
  rcases cmdLeaseRevoke_eq h rev epoch id with ⟨-, heq⟩ |
    ⟨l, hl, hid0, ⟨e, -, heq⟩ | ⟨t₁, keys₁, t₂, hkeys, heq, -, hkey, h₂, hstale₂⟩⟩
  · rw [heq] at hrevoke
    obtain ⟨rfl, -⟩ := Prod.mk.inj (Except.ok.inj hrevoke)
    exact ⟨m, h, fun hs => hs, fun _ _ hl => hl, fun id' _ => ⟨rfl, .refl id' t⟩⟩
  · rw [heq] at hrevoke
    cases hrevoke
  · rw [heq] at hrevoke
    obtain ⟨rfl, -⟩ := Prod.mk.inj (Except.ok.inj hrevoke)
    refine ⟨_, h₂, hstale₂, fun id' l' hl' => ?_, fun id' hother => ?_⟩
    · by_cases hid : id' = id
      · rw [hid, Function.update_self] at hl'
        cases hl'
      · rw [Function.update_of_ne hid] at hl'
        exact hl'
    · have hid : id' ≠ id := hother.resolve_right hid0
      have hsame : Function.update m id none id' = m id' := Function.update_of_ne hid _ _
      refine ⟨hsame, ?_, fun k => ?_⟩
      · rw [h₂.lease.dbGet, h.lease.dbGet, hsame]
      · rw [hkey]
        exact (revokeKeys_frame hkeys).2.2 id' hid k

/-- What renewing any number of leases in an epoch may do. -/
def Renewals (epoch : UInt64) (m m' : UInt64 → Option Lease) : Prop :=
  ∀ id l', m' id = some l' → m id = some l' ∨
    ∃ l, m id = some l ∧ l' = ⟨id, epoch + (l.expires - l.renewed), epoch⟩

theorem Renewals.trans {m₁ m' : UInt64 → Option Lease} (h : Renewals epoch m m₁)
    (h' : Renewals epoch m₁ m') : Renewals epoch m m' := by
  intro id l' hl'
  rcases h' id l' hl' with hsame | ⟨l₁, hl₁, rfl⟩
  · exact h id l' hsame
  · rcases h id l₁ hl₁ with hsame | ⟨l, hl, rfl⟩
    · exact .inr ⟨l₁, hsame, rfl⟩
    · -- the time from the renewal to the deadline is the same again
      have hspan : epoch + (l.expires - l.renewed) - epoch = l.expires - l.renewed := by
        rw [UInt64.add_comm, UInt64.add_sub_cancel]
      refine .inr ⟨l, hl, ?_⟩
      simp only [hspan]

theorem LeaseTables.renew {ttl : Option Int64} (h : LeaseTables t m)
    (hrenew : Turbokube.renew t epoch id = .ok (t', ttl)) :
    ∃ m', LeaseTables t' m' ∧ Renewals epoch m m' := by
  unfold Turbokube.renew at hrenew
  rw [h.lease.dbGet] at hrenew
  simp only at hrenew
  split at hrenew
  · obtain ⟨rfl, -⟩ := Prod.mk.inj (Except.ok.inj hrenew)
    exact ⟨m, h, fun _ _ hl => .inl hl⟩
  · rename_i hid
    obtain ⟨rfl, -⟩ := Prod.mk.inj (Except.ok.inj hrenew)
    refine ⟨_, h.put _, fun id' l' hl' => ?_⟩
    cases hm : m id with
    | none =>
        rw [hm] at hid
        exact absurd rfl hid
    | some l =>
        have hlid := h.lease.id id l hm
        simp only [hm, Option.getD_some, UInt64.toUInt64_toInt64, hlid] at hl'
        by_cases hid' : id' = id
        · rw [hid', Function.update_self] at hl'
          rw [hid']
          exact .inr ⟨l, hm, (Option.some.inj hl').symm⟩
        · rw [Function.update_of_ne hid'] at hl'
          exact .inl hl'

theorem LeaseTables.keepAliveBatch {ids ttls : List Int64} (h : LeaseTables t m)
    (halive : cmdLeaseKeepAliveBatch epoch ids t = .ok (t', ttls)) :
    ∃ m', LeaseTables t' m' ∧ Renewals epoch m m' := by
  induction ids generalizing t m ttls with
  | nil =>
      obtain ⟨rfl, -⟩ := Prod.mk.inj (Except.ok.inj halive)
      exact ⟨m, h, fun _ _ hl => .inl hl⟩
  | cons id ids ih =>
      obtain ⟨_, _, _, hrenew, hrest⟩ := keepAliveBatch_cons halive
      obtain ⟨m₁, h₁, hrenewed⟩ := h.renew hrenew
      obtain ⟨m', h', hrenewed'⟩ := ih h₁ hrest
      exact ⟨m', h', hrenewed.trans hrenewed'⟩

theorem LeaseTables.keepAlive {lease : Int64} {res : LeaseKeepAliveResponse} (h : LeaseTables t m)
    (halive : cmdLeaseKeepAlive t epoch lease = .ok (t', res)) :
    ∃ m', LeaseTables t' m' ∧ Renewals epoch m m' := by
  obtain ⟨_, hrenew⟩ := cmdLeaseKeepAlive_inv halive
  exact h.renew hrenew

theorem LeaseTables.expireLoop {l : List (Bytes × Bytes)} {newRev newRev' : Nat}
    {keys keys' : List Bytes} (h : LeaseTables t m)
    (hloop : Turbokube.expireLoop epoch l t newRev keys = .ok (t', newRev', keys')) :
    ∃ m', LeaseTables t' m' := by
  obtain ⟨notes, hexp, -⟩ := expires_of_expireLoop hloop
  clear hloop
  induction hexp generalizing m with
  | done => exact ⟨m, h⟩
  | revoke _ _ _ hrevoke _ ih =>
      obtain ⟨m₁, h₁, -⟩ := h.revoke hrevoke
      exact ih h₁

/-- The commands that work on leases. -/
def Cmd.onLeases : Cmd → Bool
  | .leaseGrant _ | .leaseRevoke _ | .leaseKeepAlive _ | .leaseKeepAliveBatch _ | .tick _ => true
  | _ => false

/-- The other commands leave the leases alone. -/
theorem Effect.lease_congr {E : Env} {b b' : Batch} {cmd : Cmd} (heff : Effect E b cmd b')
    (hcmd : cmd.onLeases = false) :
    b'.store.tables.lease = b.store.tables.lease ∧
      b'.store.tables.leaseExp = b.store.tables.leaseExp ∧ b'.epoch = b.epoch := by
  cases heff with
  | keep | compact _ | txnFailed _ _ _ | term _ => exact ⟨rfl, rfl, rfl⟩
  | put _ hput =>
      obtain ⟨_, _, _, _, _, hlease, hexp, _⟩ := cmdPut_inv hput
      exact ⟨hlease, hexp, rfl⟩
  | deleteRange hdel =>
      obtain ⟨_, _, _, hlease, hexp, _⟩ := cmdDeleteRange_inv hdel
      exact ⟨hlease, hexp, rfl⟩
  | txn _ htxn =>
      refine (txnRun_of_txnOps htxn).keeps
        (I := fun t => t.lease = b.store.tables.lease ∧
          t.leaseExp = b.store.tables.leaseExp ∧ b.epoch = b.epoch)
        (fun hop ht => ?_) ⟨rfl, rfl, rfl⟩
      cases hop with
      | put hput =>
          obtain ⟨_, _, _, _, _, hlease, hexp, _⟩ := cmdPut_inv hput
          exact ⟨hlease.trans ht.1, hexp.trans ht.2.1, rfl⟩
      | deleteRange hdel =>
          obtain ⟨_, _, _, hlease, hexp, _⟩ := cmdDeleteRange_inv hdel
          exact ⟨hlease.trans ht.1, hexp.trans ht.2.1, rfl⟩
      | _ => exact ht
  | leaseGrant _ | leaseRevoke _ | leaseKeepAlive _ | leaseKeepAliveBatch _ | tick _ _ => cases hcmd

/-- Whatever is asked for, the lease table decodes and every lease has its entry. -/
theorem Effect.leaseTables {E : Env} {b b' : Batch} {cmd : Cmd}
    (h : ∃ m, LeaseTables b.store.tables m) (heff : Effect E b cmd b') :
    ∃ m, LeaseTables b'.store.tables m := by
  obtain ⟨m, h⟩ := h
  by_cases htouch : cmd.onLeases = false
  · obtain ⟨hlease, hexp, -⟩ := heff.lease_congr htouch
    exact ⟨m, h.congr hlease hexp⟩
  · cases heff with
    | keep => exact ⟨m, h⟩
    | leaseGrant hgrant =>
        rcases cmdLeaseGrant_inv hgrant with rfl | ⟨item, _, -, -, rfl⟩
        · exact ⟨m, h⟩
        · exact ⟨_, h.put _⟩
    | leaseRevoke hrevoke =>
        obtain ⟨m', h', -⟩ := h.revoke hrevoke
        exact ⟨m', h'⟩
    | leaseKeepAlive halive =>
        obtain ⟨m', h', -⟩ := h.keepAlive halive
        exact ⟨m', h'⟩
    | leaseKeepAliveBatch halive =>
        obtain ⟨m', h', -⟩ := h.keepAliveBatch halive
        exact ⟨m', h'⟩
    | tick _ hloop => exact h.expireLoop hloop
    | _ => exact absurd rfl htouch

end Turbokube
