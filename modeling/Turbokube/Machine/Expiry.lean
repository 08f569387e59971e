import Turbokube.Machine.Leases

/-!
# Leases do not expire early

A tick revokes by the index of deadlines, not by the deadlines of the leases.  As long
as the index has one entry for each lease this is the same, and then a lease that is not
yet due keeps its record and its keys.

A keep-alive that moves the deadline breaks the index: the entry of the old deadline
stays, and the tick that reaches it revokes the lease.  `KeepsDeadlines` therefore asks
that leases are only kept alive in the epoch of their last renewal.
-/

namespace Turbokube

open Encoding Lmdb

/-- The lease is absent, or it was granted or renewed in this epoch. -/
def RenewedIn (t : Tables) (epoch : UInt64) (id : Int64) : Prop :=
  ∀ l ∈ (DbLease.get t.lease id.toUInt64).toOption, l.id = 0 ∨ l.renewed = epoch

instance (t : Tables) (epoch : UInt64) (id : Int64) : Decidable (RenewedIn t epoch id) := by
  unfold RenewedIn
  infer_instance

/-- What is asked of a command in the state it is applied in.  The bound on the epoch, one
per tick, keeps a deadline from wrapping around. -/
def KeepsDeadlines (b : Batch) : Cmd → Prop
  | .leaseGrant req => 0 < req.ttl ∧ b.epoch.toNat < 2 ^ 63
  | .leaseKeepAlive id => RenewedIn b.store.tables b.epoch id
  | .leaseKeepAliveBatch ids => ∀ id ∈ ids, RenewedIn b.store.tables b.epoch id
  | _ => True

instance (b : Batch) (cmd : Cmd) : Decidable (KeepsDeadlines b cmd) :=
  match cmd with
  | .leaseGrant req => inferInstanceAs (Decidable (0 < req.ttl ∧ b.epoch.toNat < 2 ^ 63))
  | .leaseKeepAlive id => inferInstanceAs (Decidable (RenewedIn b.store.tables b.epoch id))
  | .leaseKeepAliveBatch ids =>
      inferInstanceAs (Decidable (∀ id ∈ ids, RenewedIn b.store.tables b.epoch id))
  | .term _ | .tick _ | .put _ | .deleteRange _ | .compact _ | .txn _ | .leaseRevoke _
  | .invalid | .unknown | .empty => .isTrue trivial

/-- The index of deadlines is exact, and no deadline is 0, which a grant takes for an
absent lease. -/
def Deadlines (t : Tables) : Prop :=
  ∃ m, LeaseTables t m ∧ NoStale t m ∧ ∀ id, ∀ l ∈ m id, l.expires ≠ 0

variable {t t' : Tables} {m : UInt64 → Option Lease} {epoch id : UInt64}

theorem Deadlines.congr (h : Deadlines t) (hlease : t'.lease = t.lease)
    (hexp : t'.leaseExp = t.leaseExp) : Deadlines t' := by
  obtain ⟨m, ht, hstale, hpos⟩ := h
  refine ⟨m, ht.congr hlease hexp, fun l hl hget => ?_, hpos⟩
  rw [hexp] at hget
  exact hstale l hl hget

theorem freeLeaseID_inv (h : Leases t.lease m) {fuel : Nat} {id' : UInt64}
    (hfree : freeLeaseID t.lease fuel id = .ok id') : m id' = none ∨ id' = 0 := by
  induction fuel generalizing id with
  | zero => cases hfree
  | succ fuel ih =>
      rw [freeLeaseID, h.dbGet] at hfree
      simp only at hfree
      split at hfree
      · rename_i hzero
        obtain rfl := Except.ok.inj hfree
        cases hm : m (id + 1) with
        | none => exact .inl rfl
        | some l =>
            rw [hm, Option.getD_some, h.id _ l hm] at hzero
            exact .inr hzero
      · exact ih hfree

/-- A grant starts from the deadline of the lease it is asked for, if there is one. -/
theorem grantItem_inv (h : Leases t.lease m) {leaseID leaseID' : UInt64} {req : LeaseGrantRequest}
    {item : Lease} (hgrant : grantItem t.lease leaseID req = .ok (item, leaseID')) :
    item.id = 0 ∨ item.expires = ((m item.id).getD {}).expires := by
  unfold grantItem at hgrant
  split at hgrant
  · split at hgrant
    · cases hgrant
    · rename_i id hfree
      obtain ⟨rfl, -⟩ := Prod.mk.inj (Except.ok.inj hgrant)
      rcases freeLeaseID_inv h hfree with hnone | hzero
      · right
        rw [show ({ id := id } : Lease).id = id from rfl, hnone]
        rfl
      · exact .inl hzero
  · rw [h.dbGet] at hgrant
    obtain ⟨rfl, -⟩ := Prod.mk.inj (Except.ok.inj hgrant)
    exact .inr rfl

/-- A time to live that is not negative is the same as an unsigned number. -/
theorem toNat_of_nonneg {ttl : Int64} (h : 0 ≤ ttl) :
    (ttl.toUInt64.toNat : Int) = ttl.toInt ∧ ttl.toUInt64.toNat < 2 ^ 63 := by
  have hint : ttl.toInt = if 2 * ttl.toUInt64.toNat < 2 ^ 64 then (ttl.toUInt64.toNat : Int)
      else (ttl.toUInt64.toNat : Int) - 2 ^ 64 := ttl.toBitVec.toInt_eq_toNat_cond
  have hpos : 0 ≤ ttl.toInt := Int64.le_iff_toInt_le.mp h
  have hlt := ttl.toUInt64.toNat_lt
  split at hint <;> omega

theorem Deadlines.grant {leaseID leaseID' val : UInt64} {req : LeaseGrantRequest}
    {res : LeaseGrantResponse} (h : Deadlines t) (httl : 0 < req.ttl)
    (hepoch : epoch.toNat < 2 ^ 63)
    (hgrant : cmdLeaseGrant t leaseID epoch req = .ok (t', leaseID', res, val)) : Deadlines t' := by
  obtain ⟨m, ht, hstale, hpos⟩ := h
  rcases cmdLeaseGrant_inv hgrant with rfl | ⟨item, leaseID₁, hitem, hexists, rfl⟩
  · exact ⟨m, ht, hstale, hpos⟩
  · have hnew : epoch + req.ttl.toUInt64 ≠ 0 := by
      intro hzero
      have hnat := congrArg UInt64.toNat hzero
      have hpos : 0 < req.ttl.toInt := Int64.lt_iff_toInt_lt.mp httl
      have httl := toNat_of_nonneg (Int64.le_of_lt httl)
      rw [UInt64.toNat_add, UInt64.toNat_zero] at hnat
      omega
    refine ⟨_, ht.put _, LeaseTables.noStale_put hstale _ (fun hid l' hl' => ?_),
      fun id l hl => ?_⟩
    · rcases grantItem_inv ht.lease hitem with hzero | hexp
      · exact absurd hzero hid
      · rw [show m item.id = some l' from hl', Option.getD_some] at hexp
        refine absurd ?_ hexists
        rw [hexp]
        exact UInt64.pos_iff_ne_zero.mpr (hpos _ l' hl')
    · by_cases hid : id = item.id
      · rw [hid, Function.update_self] at hl
        rw [← Option.some.inj hl]
        exact hnew
      · rw [Function.update_of_ne hid] at hl
        exact hpos id l hl

/-- Renewing a lease in the epoch of its last renewal changes nothing. -/
theorem renew_same {lease : Int64} {ttl : Option Int64} (h : LeaseTables t m)
    (hepoch : RenewedIn t epoch lease) (hrenew : renew t epoch lease.toUInt64 = .ok (t', ttl)) :
    t'.lease = t.lease ∧ t'.leaseExp = t.leaseExp := by
  have hget := h.lease.dbGet lease.toUInt64
  unfold renew at hrenew
  rw [hget] at hrenew
  simp only at hrenew
  split at hrenew
  · obtain ⟨rfl, -⟩ := Prod.mk.inj (Except.ok.inj hrenew)
    exact ⟨rfl, rfl⟩
  · rename_i hid
    obtain ⟨rfl, -⟩ := Prod.mk.inj (Except.ok.inj hrenew)
    cases hm : m lease.toUInt64 with
    | none =>
        rw [hm] at hid
        exact absurd rfl hid
    | some l =>
        rw [hm, Option.getD_some] at hget hid
        have hl : l.renewed = epoch :=
          (hepoch l (by rw [hget]; rfl)).resolve_left hid
        have hlid := h.lease.id _ l hm
        have hsame :
            (⟨l.id, epoch + (l.expires - l.renewed).toInt64.toUInt64, epoch⟩ : Lease) = l := by
          rw [UInt64.toUInt64_toInt64, ← hl, UInt64.add_comm, UInt64.sub_add_cancel]
        simp only [Option.getD_some, hsame]
        refine ⟨Table.ext_get (fun rk => ?_), Table.ext_get (fun rk => ?_)⟩
        · rw [DbLease.put, Table.get_put]
          split
          · rename_i hrk
            rw [hrk, hlid, h.lease.get, hm]
            rfl
          · rfl
        · rw [DbLeaseExp.put, Table.get_put]
          split
          · rename_i hrk
            obtain ⟨v, hv⟩ := Option.isSome_iff_exists.mp (h.indexed _ l hm)
            obtain ⟨x, -, hx⟩ := h.entry _ v hv
            rw [hrk, hv, hx]
          · rfl

theorem keepAliveBatch_same {ids ttls : List Int64} (h : LeaseTables t m)
    (hepoch : ∀ id ∈ ids, RenewedIn t epoch id)
    (halive : cmdLeaseKeepAliveBatch epoch ids t = .ok (t', ttls)) :
    t'.lease = t.lease ∧ t'.leaseExp = t.leaseExp := by
  induction ids generalizing t ttls with
  | nil =>
      obtain ⟨rfl, -⟩ := Prod.mk.inj (Except.ok.inj halive)
      exact ⟨rfl, rfl⟩
  | cons id ids ih =>
      obtain ⟨t₁, _, _, hrenew, hrest⟩ := keepAliveBatch_cons halive
      obtain ⟨hlease, hexp⟩ := renew_same h (hepoch id List.mem_cons_self) hrenew
      have hepoch' : ∀ id ∈ ids, RenewedIn t₁ epoch id := by
        intro id hid
        rw [RenewedIn, hlease]
        exact hepoch id (List.mem_cons_of_mem _ hid)
      obtain ⟨hlease', hexp'⟩ := ih (h.congr hlease hexp) hepoch' hrest
      exact ⟨hlease'.trans hlease, hexp'.trans hexp⟩

/-- The loop of a tick keeps the index exact and touches only leases that are due. -/
theorem expireLoop_kept {l : List (Bytes × Bytes)} {newRev newRev' : Nat} {keys keys' : List Bytes}
    (hl : ∀ p ∈ l, ∃ x : Lease, p.1 = DbLeaseExp.key x ∧ p.2 = withChecksum p.1 [])
    (h : LeaseTables t m) (hstale : NoStale t m)
    (hloop : expireLoop epoch l t newRev keys = .ok (t', newRev', keys')) :
    ∃ m', LeaseTables t' m' ∧ NoStale t' m' ∧ (∀ id, ∀ x ∈ m' id, x ∈ m id) ∧
      ∀ id, ∀ x ∈ m id, epoch < x.expires → m' id = m id ∧ Kept id t t' := by
  obtain ⟨notes, hexp, -⟩ := expires_of_expireLoop hloop
  clear hloop
  induction hexp generalizing m with
  | done => exact ⟨m, h, hstale, fun _ _ hx => hx, fun id _ _ _ => ⟨rfl, .refl id t'⟩⟩
  | @revoke t t₁ r k v id _ _ _ hmem hpresent hdue hrevoke _ ih =>
      obtain ⟨y, hk, hv⟩ := hl (k, v) hmem
      simp only at hk hv
      have hyid : ¬ epoch < y.expires ∧ y.id = id := by
        rw [hv, hk, DbLeaseExp.due_key] at hdue
        split at hdue
        · cases hdue
        · rename_i hle
          exact ⟨hle, Option.some.inj hdue⟩
      obtain ⟨m₁, h₁, hstale₁, hsub₁, hkept₁⟩ := h.revoke hrevoke
      obtain ⟨m', h', hstale', hsub', hkept'⟩ := ih h₁ (hstale₁ hstale)
      refine ⟨m', h', hstale', fun id' x hx => hsub₁ id' x (hsub' id' x hx),
        fun id' x hx hlater => ?_⟩
      have hother : id' ≠ id ∨ id = 0 := by
        by_contra hsame
        push Not at hsame
        obtain ⟨l', hl', hexp⟩ := hstale y (by rw [hyid.2]; exact hsame.2)
          (by rw [← hk]; exact Option.isSome_iff_ne_none.mpr hpresent)
        rw [hyid.2, ← hsame.1, show m id' = some x from hx] at hl'
        rw [Option.some.inj hl', hexp] at hlater
        exact hyid.1 hlater
      obtain ⟨hm₁, hkeep₁⟩ := hkept₁ id' hother
      obtain ⟨hm', hkeep'⟩ := hkept' id' x (by rw [hm₁]; exact hx) hlater
      exact ⟨hm'.trans hm₁, hkeep₁.trans hkeep'⟩

theorem Deadlines.expireLoop {newRev newRev' : Nat} {keys keys' : List Bytes} (h : Deadlines t)
    (hloop : Turbokube.expireLoop epoch t.leaseExp.entries t newRev keys =
      .ok (t', newRev', keys')) :
    Deadlines t' ∧ ∀ id, ∀ l ∈ (DbLease.get t.lease id).toOption, l.id ≠ 0 → epoch < l.expires →
      Kept id t t' := by
  obtain ⟨m, ht, hstale, hpos⟩ := h
  have hentries : ∀ p ∈ t.leaseExp.entries,
      ∃ x : Lease, p.1 = DbLeaseExp.key x ∧ p.2 = withChecksum p.1 [] := fun p hp =>
    ht.entry p.1 p.2 (Table.get_eq_some_iff.mpr hp)
  obtain ⟨m', ht', hstale', hsub, hkept⟩ := expireLoop_kept hentries ht hstale hloop
  refine ⟨⟨m', ht', hstale', fun id l hl => hpos id l (hsub id l hl)⟩, fun id l hl hid hlater => ?_⟩
  rw [ht.lease.dbGet] at hl
  cases hm : m id with
  | none =>
      rw [hm] at hl
      obtain rfl := Option.some.inj hl
      exact absurd rfl hid
  | some x =>
      rw [hm] at hl
      obtain rfl : x = l := Option.some.inj hl
      exact (hkept id x hm hlater).2

/-- The index of deadlines stays exact. -/
theorem Effect.deadlines {E : Env} {b b' : Batch} {cmd : Cmd} (h : Deadlines b.store.tables)
    (hcmd : KeepsDeadlines b cmd) (heff : Effect E b cmd b') : Deadlines b'.store.tables := by
  by_cases htouch : cmd.onLeases = false
  · obtain ⟨hlease, hexp, -⟩ := heff.lease_congr htouch
    exact h.congr hlease hexp
  · have hdeadlines := h
    obtain ⟨m, ht, hstale, hpos⟩ := h
    cases heff with
    | keep => exact hdeadlines
    | leaseGrant hgrant => exact hdeadlines.grant hcmd.1 hcmd.2 hgrant
    | leaseRevoke hrevoke =>
        obtain ⟨m', ht', hstale', hsub, -⟩ := ht.revoke hrevoke
        exact ⟨m', ht', hstale' hstale, fun id l hl => hpos id l (hsub id l hl)⟩
    | leaseKeepAlive halive =>
        obtain ⟨_, hrenew⟩ := cmdLeaseKeepAlive_inv halive
        obtain ⟨hlease, hexp⟩ := renew_same ht hcmd hrenew
        exact hdeadlines.congr hlease hexp
    | leaseKeepAliveBatch halive =>
        obtain ⟨hlease, hexp⟩ := keepAliveBatch_same ht hcmd halive
        exact hdeadlines.congr hlease hexp
    | tick _ hloop => exact (hdeadlines.expireLoop hloop).1
    | _ => exact absurd rfl htouch

theorem Reached.deadlines {E : Env} {b : Batch} (h : Reached E KeepsDeadlines b) :
    Deadlines b.store.tables :=
  h.inv (I := fun t _ _ => Deadlines t)
    ⟨_, .empty, fun _ _ hget => (by cases hget), fun _ _ hl => (by cases hl)⟩
    (fun hd hcmd heff => heff.deadlines hd hcmd)

/-- While leases are kept alive only in the epoch of their last renewal, a tick to epoch
`e` takes away a lease or one of its attachments only if the deadline stored for it is at
most `e`. -/
theorem expires_le_of_tick {E : Env} {b b' : Batch} {ent : Entry} {res : Result} {term : UInt64}
    (h : Reached E KeepsDeadlines b) (hcmd : ent.cmd = .tick term)
    (happly : applyEntry E b ent = .ok (b', res)) {id : UInt64} {l : Lease}
    (hl : DbLease.get b.store.tables.lease id = .ok l) (hid : l.id ≠ 0)
    (hrevoked : DbLease.get b'.store.tables.lease id ≠ .ok l ∨
      ∃ k, b'.store.tables.leaseKey.get (DbLeaseKey.key id k) ≠
        b.store.tables.leaseKey.get (DbLeaseKey.key id k)) :
    l.expires ≤ b'.epoch := by
  have heff := effect_of_applyEntry happly
  have hsame : ¬ Kept id b.store.tables b'.store.tables := by
    rintro ⟨hlease, hkeys⟩
    rcases hrevoked with hgone | ⟨k, hgone⟩
    · exact hgone (hlease.trans hl)
    · exact hgone (hkeys k)
  rw [hcmd] at heff
  cases heff with
  | keep => exact absurd (.refl id _) hsame
  | tick _ hloop =>
      by_contra hlater
      rw [UInt64.not_le] at hlater
      exact hsame ((h.deadlines.expireLoop hloop).2 id l (by rw [hl]; rfl) hid hlater)

theorem expires_le_of_tick_at_deadline :
    ∃ s ∈ storeAfter [[.leaseGrant { ttl := 1, id := 7 }]], ∃ r ∈
      (applyEntry .plain (.start s) { index := 1, cmd := .tick 0 }).toOption,
      DbLease.get s.tables.lease 7 = .ok ⟨7, 1, 0⟩ ∧
      DbLease.get r.1.store.tables.lease 7 ≠ .ok ⟨7, 1, 0⟩ ∧
      (⟨7, 1, 0⟩ : Lease).expires ≤ r.1.epoch := by
  refine exists_mem_imp (D := fun s => ∃ r ∈
    (applyEntry .plain (.start s) { index := 1, cmd := .tick 0 }).toOption,
    DbLease.get s.tables.lease 7 = .ok ⟨7, 1, 0⟩ ∧
    DbLease.get r.1.store.tables.lease 7 ≠ .ok ⟨7, 1, 0⟩) (by decide +kernel) (fun s hs hD => ?_)
  refine exists_mem_imp hD (fun r hr hget => ⟨hget.1, hget.2, ?_⟩)
  exact expires_le_of_tick (reached_of_storeAfter (by decide +kernel) hs) rfl
    (eq_ok_of_mem_toOption hr) hget.1 (by decide) (.inl hget.2)

/-- Granted at epoch 0 for two epochs and renewed at epoch 1, a lease is due at 3.  The
tick to 2 meets the entry of its first deadline and revokes it. -/
theorem tick_revokes_renewed_lease :
    ∃ s ∈ storeAfter [[.leaseGrant { ttl := 2, id := 7 }], [.tick 0], [.leaseKeepAlive 7]],
      DbLease.get s.tables.lease 7 = .ok ⟨7, 3, 1⟩ ∧
      ∃ r ∈ (applyEntry .plain (.start s) { index := 1, cmd := .tick 0 }).toOption,
        r.1.epoch = 2 ∧ DbLease.get r.1.store.tables.lease 7 = .ok {} := by
  decide +kernel

end Turbokube
