import Turbokube.Machine.Attached
import Turbokube.Machine.Histories
import Turbokube.Machine.Leases

/-!
# The index of attached keys in a run

In a run whose puts name their leases (`PutRequest.NamesLease`) the index of attached keys
is exact in every state, and revoking or expiring a lease deletes exactly the keys attached
to it.
-/

namespace Turbokube

open Encoding Lmdb DbKv

/-- What is asked of the puts of a command in the tables they are applied to. -/
def Cmd.PutsMeetIn (E : Env) (P : Tables → PutRequest → Prop) (b : Batch) : Cmd → Prop
  | .put req => req.Plain → P b.store.tables req
  | .txn req => ∀ success, txnCompare E b.store.tables.kv req.compare = .ok success →
      TxnMeets E P (b.newRev + 1) b.epoch (req.branch success) 0 b.store.tables
  | _ => True

variable {E : Env} {S U : Prop} {P : Tables → PutRequest → Prop} {t t' : Tables} {r : Nat}
  {epoch id : UInt64}

/-- The tables of a run at revision `r`. -/
structure Consistent (E : Env) (S U : Prop) (t : Tables) (r : Nat) : Prop where
  kv : t.kv.Versioned E S U ((r + 1) * 4096)
  attached : Attached t
  lease : ∃ m, LeaseTables t m

theorem Consistent.revoke (h : Consistent E S U t r) {m : UInt64 → Option Lease}
    (hm : LeaseTables t m) (epoch id : UInt64) :
    ∃ t' ks val, cmdLeaseRevoke t (r + 1) epoch id = .ok (t', ks, val) ∧
      Revocation m (r + 1) epoch id t t' ks ∧
      (revAfter r ks < 2 ^ 52 → Consistent E S U t' (revAfter r ks)) := by
  obtain ⟨t', ks, val, hrevoke, hrev⟩ := h.attached.revoke h.kv hm (r + 1) epoch id
  refine ⟨t', ks, val, hrevoke, hrev, fun hr => ⟨?_, hrev.attached, _, hrev.lease⟩⟩
  exact h.kv.kvRun (A := fun _ => False) (fun _ hfalse => hfalse.elim) hr
    (revoke_kvRun (by decide) h.kv.recsOk hrevoke)

/-- What a revocation does to the records of each key. -/
theorem Revocation.records (h : Consistent E S U t r) {m : UInt64 → Option Lease} {ks : List Bytes}
    (hrev : Revocation m (r + 1) epoch id t t' ks) (hr : revAfter r ks < 2 ^ 52) (k : Bytes) :
    (k ∈ ks → ∃ kr, kr.rev.isdel = true ∧ t'.kv.records k = kr :: t.kv.records k) ∧
      (k ∉ ks → t'.kv.records k = t.kv.records k) := by
  obtain ⟨ch, hrep, hlog, -⟩ := h.kv
  rw [hrev.kv]
  refine ⟨fun hk => ⟨⟨k, revAt (r + 1) 0 true, 0⟩, revAt_isdel _ _ _,
    tombstones_records_mem hrep.recsOk hrev.nodup hk (fun kr hkr => ?_)⟩, tombstones_records_ne⟩
  rw [revAfter, if_neg (List.ne_nil_of_mem hk)] at hr
  rw [hrep.records_eq hlog] at hkr
  obtain ⟨v, hv, rfl⟩ := List.mem_map.mp hkr
  obtain ⟨w, hw, -, cur, rfl⟩ := write_of_mem_versions (hrep.mem_versions hv)
  have hlt := hlog.lt w hw
  rw [ite_self] at hlt
  have hword := revAt_toNat hr (by decide : 0 < 1024) true
  simp only [if_true] at hword
  simp only [Version.record, Write.version]
  omega

/-- There is a lease `id`. -/
def LeaseThere (t : Tables) (id : UInt64) : Prop :=
  ∃ l ∈ (DbLease.get t.lease id).toOption, l.id ≠ 0

/-- Between `t` and `t'` the lease `id` was removed. -/
def LeaseGone (t t' : Tables) (id : UInt64) : Prop :=
  LeaseThere t id ∧ DbLease.get t'.lease id = .ok {}

/-- The keys attached to the leases that are gone got a tombstone, and no other key was
touched. -/
def DeletesAttached (t t' : Tables) : Prop :=
  ∀ k, ((∃ id, LeaseGone t t' id ∧ (t.leaseKey.get (DbLeaseKey.key id k)).isSome = true) →
      ∃ kr, kr.rev.isdel = true ∧ t'.kv.records k = kr :: t.kv.records k) ∧
    ((¬ ∃ id, LeaseGone t t' id ∧ (t.leaseKey.get (DbLeaseKey.key id k)).isSome = true) →
      t'.kv.records k = t.kv.records k)

section Gone

variable {m m' : UInt64 → Option Lease}

theorem leaseThere_iff (hm : LeaseTables t m) :
    LeaseThere t id ↔ id ≠ 0 ∧ (m id).isSome = true := by
  rw [LeaseThere, hm.lease.dbGet]
  cases hml : m id with
  | none =>
      refine ⟨fun ⟨l, hl, hid⟩ => ?_, fun hc => by cases hc.2⟩
      obtain rfl := Option.some.inj hl
      exact absurd rfl hid
  | some l =>
      rw [Option.getD_some]
      constructor
      · rintro ⟨l', hl', hid⟩
        obtain rfl := Option.some.inj hl'
        exact ⟨by rw [← hm.lease.id id l hml]; exact hid, rfl⟩
      · rintro ⟨hid, -⟩
        exact ⟨l, rfl, by rw [hm.lease.id id l hml]; exact hid⟩

theorem leaseGone_iff (hm : LeaseTables t m) (hm' : LeaseTables t' m') :
    LeaseGone t t' id ↔ id ≠ 0 ∧ (m id).isSome = true ∧ m' id = none := by
  rw [LeaseGone, leaseThere_iff hm, hm'.lease.dbGet, and_assoc]
  refine and_congr_right (fun hid => and_congr_right (fun _ => ⟨fun hgone => ?_, fun hnone => ?_⟩))
  · cases hml' : m' id with
    | none => rfl
    | some l' =>
        rw [hml', Option.getD_some] at hgone
        have hlid := hm'.lease.id id l' hml'
        rw [Except.ok.inj hgone] at hlid
        exact absurd hlid.symm hid
  · rw [hnone]
    rfl

/-- The lease of the key was there and is gone. -/
def GoneFor (m m' : UInt64 → Option Lease) (lease : UInt64) : Prop :=
  lease ≠ 0 ∧ (m lease).isSome = true ∧ m' lease = none

/-- What revocations do to the keys when the leases `m` become `m'`. -/
structure Swept (m m' : UInt64 → Option Lease) (t t' : Tables) : Prop where
  sub : ∀ id, m' id = none ∨ m' id = m id
  gone : ∀ k, GoneFor m m' (leaseOf (versions t.kv.log k)) →
    (∃ kr, kr.rev.isdel = true ∧ t'.kv.records k = kr :: t.kv.records k) ∧
      leaseOf (versions t'.kv.log k) = 0
  kept : ∀ k, ¬ GoneFor m m' (leaseOf (versions t.kv.log k)) →
    t'.kv.records k = t.kv.records k ∧
      leaseOf (versions t'.kv.log k) = leaseOf (versions t.kv.log k)

theorem Swept.refl (m : UInt64 → Option Lease) (t : Tables) : Swept m m t t where
  sub _ := .inr rfl
  gone k hgone := by
    obtain ⟨-, hsome, hnone⟩ := hgone
    rw [hnone] at hsome
    cases hsome
  kept _ _ := ⟨rfl, rfl⟩

theorem Swept.trans {m'' : UInt64 → Option Lease} {t'' : Tables} (h : Swept m m' t t')
    (h' : Swept m' m'' t' t'') : Swept m m'' t t'' where
  sub id := by
    rcases h'.sub id with hnone | heq
    · exact .inl hnone
    · rw [heq]
      exact h.sub id
  gone k hgone := by
    obtain ⟨hne, hsome, hnone⟩ := hgone
    rcases h.sub (leaseOf (versions t.kv.log k)) with hnone' | heq
    · -- removed first, after which the key has no lease
      obtain ⟨⟨kr, hdel, hrecs⟩, hzero⟩ := h.gone k ⟨hne, hsome, hnone'⟩
      obtain ⟨hrecs', hzero'⟩ := h'.kept k (fun hc => hc.1 hzero)
      exact ⟨⟨kr, hdel, hrecs'.trans hrecs⟩, hzero'.trans hzero⟩
    · have hsome' : (m' (leaseOf (versions t.kv.log k))).isSome = true := by rw [heq]; exact hsome
      obtain ⟨hrecs, hlease⟩ := h.kept k (fun hc => by
        rw [hc.2.2] at hsome'
        cases hsome')
      rw [← hrecs]
      exact h'.gone k (by rw [hlease]; exact ⟨hne, hsome', hnone⟩)
  kept k hkept := by
    obtain ⟨hrecs, hlease⟩ := h.kept k (fun hc => hkept ⟨hc.1, hc.2.1, by
      rcases h'.sub (leaseOf (versions t.kv.log k)) with hnone | heq
      · exact hnone
      · rw [heq]
        exact hc.2.2⟩)
    obtain ⟨hrecs', hlease'⟩ := h'.kept k (fun hc => by
      rw [hlease] at hc
      obtain ⟨hne, hsome, hnone⟩ := hc
      refine hkept ⟨hne, ?_, hnone⟩
      rcases h.sub (leaseOf (versions t.kv.log k)) with hnone' | heq
      · rw [hnone'] at hsome
        cases hsome
      · rw [← heq]
        exact hsome)
    exact ⟨hrecs'.trans hrecs, hlease'.trans hlease⟩

theorem Revocation.swept (h : Consistent E S U t r) {ks : List Bytes}
    (hrev : Revocation m (r + 1) epoch id t t' ks) (hr : revAfter r ks < 2 ^ 52) :
    Swept m (if id = 0 then m else Function.update m id none) t t' := by
  have hmem : ∀ k, GoneFor m (if id = 0 then m else Function.update m id none)
      (leaseOf (versions t.kv.log k)) ↔ k ∈ ks := by
    intro k
    rw [hrev.mem, GoneFor]
    constructor
    · rintro ⟨hne, hsome, hnone⟩
      split at hnone
      · rw [hnone] at hsome
        cases hsome
      · rename_i hid
        by_cases heq : leaseOf (versions t.kv.log k) = id
        · exact ⟨hid, heq ▸ hsome, heq⟩
        · rw [Function.update_of_ne heq] at hnone
          rw [hnone] at hsome
          cases hsome
    · rintro ⟨hid, hsome, rfl⟩
      exact ⟨hid, hsome, by rw [if_neg hid, Function.update_self]⟩
  have hlease := versions_tombstones t.kv (r + 1) 0 epoch ks
  rw [← hrev.kv] at hlease
  refine ⟨fun id' => ?_, fun k hgone => ⟨(hrev.records h hr k).1 ((hmem k).mp hgone), ?_⟩,
    fun k hkept => ⟨(hrev.records h hr k).2 (mt (hmem k).mpr hkept), ?_⟩⟩
  · split
    · exact .inr rfl
    · by_cases heq : id' = id
      · exact .inl (by rw [heq, Function.update_self])
      · exact .inr (Function.update_of_ne heq _ _)
  · rcases hlease k with ⟨hnot, -⟩ | ⟨-, v, vs, heq, hitem⟩
    · exact absurd ((hmem k).mp hgone) hnot
    · rw [heq, leaseOf, current_cons, hitem]
      rfl
  · rcases hlease k with ⟨-, heq⟩ | ⟨hin, -⟩
    · rw [heq]
    · exact absurd ((hmem k).mpr hin) hkept

/-- A sweep deletes exactly the keys attached to the leases that are gone. -/
theorem Swept.deletesAttached (h : Swept m m' t t') (hatt : Attached t) (hm : LeaseTables t m)
    (hm' : LeaseTables t' m') : DeletesAttached t t' := by
  have hiff : ∀ k, (∃ id, LeaseGone t t' id ∧
      (t.leaseKey.get (DbLeaseKey.key id k)).isSome = true) ↔
      GoneFor m m' (leaseOf (versions t.kv.log k)) := by
    intro k
    simp only [leaseGone_iff hm hm', hatt.index.get, GoneFor]
    constructor
    · rintro ⟨id, hgone, -, rfl⟩
      exact hgone
    · intro hgone
      exact ⟨_, hgone, hgone.1, rfl⟩
  intro k
  rw [hiff]
  exact ⟨fun hgone => (h.gone k hgone).1, fun hkept => (h.kept k hkept).1⟩

/-- The loop of a tick keeps the tables consistent and is a sweep. -/
theorem expireLoop_consistent {l : List (Bytes × Bytes)} {r' : Nat} {keys keys' : List Bytes}
    (h : Consistent E S U t r) (hm : LeaseTables t m)
    (hloop : expireLoop epoch l t r keys = .ok (t', r', keys')) (hr' : r' < 2 ^ 52) :
    Consistent E S U t' r' ∧ ∃ m', LeaseTables t' m' ∧ Swept m m' t t' := by
  obtain ⟨notes, hexp, -⟩ := expires_of_expireLoop hloop
  clear hloop
  induction hexp generalizing m with
  | done => exact ⟨h, m, hm, .refl m t'⟩
  | @revoke t t₁ r k v id val affected notes _ _ _ hrevoke hrest ih =>
      obtain ⟨t₂, ks, val₂, hrevoke₂, hrev, hcons⟩ := h.revoke hm epoch id
      rw [hrevoke] at hrevoke₂
      obtain ⟨rfl, hout⟩ := Prod.mk.inj (Except.ok.inj hrevoke₂)
      obtain ⟨rfl, -⟩ := Prod.mk.inj hout
      have hlt : revAfter r affected < 2 ^ 52 := hrest.le.trans_lt hr'
      obtain ⟨hcons', m', hm', hswept⟩ := ih (hcons hlt) hrev.lease
      exact ⟨hcons', m', hm', (hrev.swept h hlt).trans hswept⟩

end Gone

section Run

variable {b b' : Batch} {cmd : Cmd} {Q : Batch → Cmd → Prop}

theorem TxnRun.attached {i : Nat} {ops : List RequestOp} {affected : List Bytes}
    (hrun : TxnRun E (r + 1) epoch i ops t t' affected) (hr : r + 1 < 2 ^ 52)
    (hlen : i + ops.length ≤ 1024)
    (hputs : TxnMeets E (fun t req => req.NamesLease t) (r + 1) epoch ops i t)
    (hver : t.kv.Versioned E False False ((r + 1) * 4096 + i * 4)) (hatt : Attached t) :
    Attached t' := by
  induction hrun with
  | nil => exact hatt
  | cons hop _ ih =>
      rw [List.length_cons] at hlen
      have hver' := hver.opStep (A := fun _ => True) (fun _ _ hfalse => hfalse.elim)
        (Nat.succ_pos _) hr (by omega) (hop.opStep hver.recsOk (fun _ _ => trivial)).1
      cases hop with
      | put hput =>
          rw [TxnMeets, hput] at hputs
          exact ih (by omega) hputs.2 hver' (hatt.put hver hputs.1 hput)
      | deleteRange hdel =>
          rw [TxnMeets, hdel] at hputs
          exact ih (by omega) hputs hver' (hatt.deleteRange hver hdel)
      | range => exact ih (by omega) hputs hver' hatt
      | txn => exact ih (by omega) hputs hver' hatt
      | none => exact ih (by omega) hputs hver' hatt

/-- Every command whose puts name their leases keeps the index exact. -/
theorem Effect.attached (h : Consistent E False False b.store.tables b.newRev)
    (hops : cmd.OpsAtMost 1024) (hputs : cmd.PutsMeetIn E (fun t req => req.NamesLease t) b)
    (hrev : b'.newRev + 1 < 2 ^ 52) (heff : Effect E b cmd b') : Attached b'.store.tables := by
  have hle := heff.newRev_le
  obtain ⟨hver, hatt, m, hm⟩ := h
  cases heff with
  | keep => exact hatt
  | put haccept hput => exact hatt.put hver (hputs ⟨haccept.noLease, haccept.noValue⟩) hput
  | deleteRange hdel => exact hatt.deleteRange hver hdel
  | compact hcompact => exact hatt.congr (compact_shrunk hcompact).log rfl
  | @txn req success _ _ _ hcmp htxn =>
      have hlen := branch_length_le hops success
      exact (txnRun_of_txnOps htxn).attached (by omega) (by omega) (hputs success hcmp)
        (hver.mono (by omega)) hatt
  | txnFailed _ _ _ => exact hatt
  | leaseGrant hgrant =>
      obtain ⟨hkv, hkey⟩ := leaseGrant_kv hgrant
      exact hatt.congr (congrArg DbKv.log hkv) hkey
  | leaseRevoke hrevoke =>
      obtain ⟨t', ks, val, hrevoke', hrev'⟩ := hatt.revoke hver hm _ _ _
      rw [hrevoke] at hrevoke'
      obtain ⟨rfl, -⟩ := Prod.mk.inj (Except.ok.inj hrevoke')
      exact hrev'.attached
  | leaseKeepAlive halive =>
      obtain ⟨hkv, hkey⟩ := keepAlive_kv halive
      exact hatt.congr (congrArg DbKv.log hkv) hkey
  | leaseKeepAliveBatch halive =>
      obtain ⟨hkv, hkey⟩ := keepAliveBatch_kv halive
      exact hatt.congr (congrArg DbKv.log hkv) hkey
  | tick _ hloop =>
      simp only at hrev
      exact (expireLoop_consistent ⟨hver, hatt, m, hm⟩ hm hloop (by omega)).1.attached
  | term _ => exact hatt

/-- What keeps the index exact: no transaction is too long, and the puts name their
leases. -/
def Cmd.NamesLeases (E : Env) (b : Batch) (cmd : Cmd) : Prop :=
  cmd.OpsAtMost 1024 ∧ cmd.PutsMeetIn E (fun t req => req.NamesLease t) b

instance [∀ t req, Decidable (P t req)] (cmd : Cmd) : Decidable (cmd.PutsMeetIn E P b) :=
  match cmd with
  | .put req => inferInstanceAs (Decidable (req.Plain → P b.store.tables req))
  | .txn req =>
      inferInstanceAs (Decidable (∀ success,
        txnCompare E b.store.tables.kv req.compare = .ok success →
          TxnMeets E P (b.newRev + 1) b.epoch (req.branch success) 0 b.store.tables))
  | .term _ | .tick _ | .deleteRange _ | .compact _ | .leaseGrant _ | .leaseRevoke _
  | .leaseKeepAlive _ | .leaseKeepAliveBatch _ | .invalid | .unknown | .empty => .isTrue trivial

instance (cmd : Cmd) : Decidable (cmd.NamesLeases E b) := by
  unfold Cmd.NamesLeases
  infer_instance

theorem Consistent.effect (h : Consistent E False False b.store.tables b.newRev)
    (hcmd : cmd.NamesLeases E b) (heff : Effect E b cmd b') (hrev : b'.newRev + 1 < 2 ^ 52) :
    Consistent E False False b'.store.tables b'.newRev where
  kv := heff.versionedTo hcmd.1
    (Cmd.PutsMeet.imp (fun _ _ hfalse => hfalse.elim) (putsMeet_true cmd))
    (fun hfalse => hfalse.elim) (fun _ => h.kv) (by omega)
  attached := heff.attached h hcmd.1 hcmd.2 hrev
  lease := heff.leaseTables h.lease

theorem Consistent.empty : Consistent E False False .empty 1 := ⟨.empty, .empty, _, .empty⟩

theorem Reached.consistent (h : Reached E (Cmd.NamesLeases E) b) (hrev : b.newRev + 1 < 2 ^ 52) :
    Consistent E False False b.store.tables b.newRev := by
  induction h with
  | init => exact .empty
  | entry _ hcmd happly ih =>
      have heff := effect_of_applyEntry happly
      have hle := heff.newRev_le
      exact (ih (by omega)).effect hcmd heff hrev
  | commit index hb ih =>
      obtain ⟨htables, hrev', -⟩ := eq_of_core_eq (core_start_finish hb.synced index)
      rw [hrev'] at hrev ⊢
      rw [htables]
      exact ih hrev

/-- `kr` is the newest record of `k`, no tombstone, and `kv` is stored for it. -/
def HoldsKv (E : Env) (t : Tables) (k : Bytes) (kr : Keyrecord) (kv : Kv) : Prop :=
  (t.kv.records k).head? = some kr ∧ kr.rev.isdel = false ∧ kv.key = k ∧ kv.rev = kr.rev ∧
    t.kv.val.get kr.rev.key = some (kv.bytes E.flags E.codec none)

instance (E : Env) (t : Tables) (k : Bytes) (kr : Keyrecord) (kv : Kv) :
    Decidable (HoldsKv E t k kr kv) := by
  unfold HoldsKv
  infer_instance

structure LeaseKeysExact (E : Env) (t : Tables) : Prop where
  entry : ∀ rk v, t.leaseKey.get rk = some v → ∃ l k, rk = DbLeaseKey.key l k
  index : ∀ l k, (t.leaseKey.get (DbLeaseKey.key l k)).isSome = true ↔
    l ≠ 0 ∧ ∃ kr kv, HoldsKv E t k kr kv ∧ kv.lease = l
  named : ∀ k kr kv, HoldsKv E t k kr kv → kr.lease = kv.lease

/-- What a key holds according to the tables is what it holds according to the log. -/
theorem Consistent.holdsKv (h : Consistent E S U t r) (k : Bytes) :
    (∀ kr kv, HoldsKv E t k kr kv → kr.lease = leaseOf (versions t.kv.log k) ∧
      kv.lease = leaseOf (versions t.kv.log k)) ∧
    (leaseOf (versions t.kv.log k) ≠ 0 → ∃ kr kv, HoldsKv E t k kr kv) := by
  obtain ⟨ch, hrep, hlog, -⟩ := h.kv
  have hlease := h.attached.lease_eq hrep hlog k
  obtain ⟨hdead, hlive⟩ := hrep.head_eq hlog k
  rw [leaseOf, ← hrep.current_eq] at hlease ⊢
  cases hcur : current (ch k) with
  | none =>
      refine ⟨fun kr kv hkv => ?_, fun hne => absurd rfl hne⟩
      obtain ⟨hhead, hdel, -⟩ := hkv
      have hrev := hdead hcur
      rw [List.headD_eq_head?_getD, hhead, Option.getD_some, hdel] at hrev
      rcases hrev with hzero | hfalse
      · obtain ⟨v, hv, rfl⟩ : ∃ v ∈ ch k, v.record k = kr := by
          have hmem := List.mem_of_head? hhead
          rw [hrep.records_eq hlog] at hmem
          exact List.mem_map.mp hmem
        exact absurd hzero (hrep.rev_ne_zero hlog hv)
      · cases hfalse
  | some e =>
      obtain ⟨hrev, hne, hdel, hkey⟩ := hlive e hcur
      rw [hcur] at hlease
      obtain ⟨kr, hhead⟩ : ∃ kr, (t.kv.records k).head? = some kr := by
        cases hrecs : t.kv.records k with
        | nil =>
            rw [hrecs] at hrev
            exact absurd hrev.symm hne
        | cons kr rest => exact ⟨kr, rfl⟩
      rw [List.headD_eq_head?_getD, hhead, Option.getD_some] at hrev hlease
      have hlen : e.key.length < 2 ^ 64 := by
        obtain ⟨v, hv, -⟩ := Option.bind_eq_some_iff.mp (hrep.current_eq k ▸ hcur)
        rw [hkey]
        exact lt_of_le_of_lt (hlog.key_of_mem (List.mem_of_head? hv)).2 (by decide)
      have hfull := hrep.full k e hcur
      refine ⟨fun kr' kv hkv => ?_, fun _ => ⟨kr, e, hhead, by rw [hrev]; exact hdel, hkey,
        hrev.symm, by rw [hrev]; exact hfull⟩⟩
      obtain ⟨hhead', hdel', hkey', hrev', hget⟩ := hkv
      obtain rfl : kr = kr' := Option.some.inj (hhead.symm.trans hhead')
      rw [hrev, hfull] at hget
      refine ⟨hlease, ?_⟩
      exact (Kv.bytes_inj (hrev'.trans hrev) (by rw [hrev']; exact hdel')
        (by rw [hkey', ← hkey]; exact hlen) hlen (Option.some.inj hget).symm).2.2.2

theorem Consistent.leaseKeysExact (h : Consistent E S U t r) : LeaseKeysExact E t where
  entry rk v hget := (h.attached.index.entry rk v hget).1
  index l k := by
    obtain ⟨hsame, hex⟩ := h.holdsKv k
    rw [h.attached.index.get]
    refine and_congr_right (fun hl => ⟨?_, ?_⟩)
    · rintro rfl
      obtain ⟨kr, kv, hkv⟩ := hex hl
      exact ⟨kr, kv, hkv, (hsame kr kv hkv).2⟩
    · rintro ⟨kr, kv, hkv, rfl⟩
      exact (hsame kr kv hkv).2.symm
  named k kr kv hkv := by
    obtain ⟨hkr, hlease⟩ := (h.holdsKv k).1 kr kv hkv
    rw [hkr, hlease]

/-- A revocation removes its lease and deletes exactly the keys attached to it. -/
theorem Consistent.applyLeaseRevoke (h : Consistent E S U b.store.tables b.newRev) {id : Int64}
    {res : Result} (happly : Turbokube.applyLeaseRevoke E b id = .ok (b', res))
    (hrev : b'.newRev < 2 ^ 52) :
    (∀ x, LeaseGone b.store.tables b'.store.tables x ↔
      x = id.toUInt64 ∧ LeaseThere b.store.tables x) ∧
    DeletesAttached b.store.tables b'.store.tables := by
  obtain ⟨m, hm⟩ := h.lease
  obtain ⟨t', ks, val, hrevoke, hsweep, -⟩ := h.revoke hm b.epoch id.toUInt64
  rw [Turbokube.applyLeaseRevoke, hrevoke] at happly
  obtain ⟨rfl, -⟩ := Prod.mk.inj (Except.ok.inj happly)
  have hafter : revAfter b.newRev ks = b.nextRev ks := by
    rw [revAfter, Batch.nextRev]
    cases ks <;> simp
  refine ⟨fun x => ?_, (hsweep.swept h (by rw [hafter]; exact hrev)).deletesAttached h.attached hm
    hsweep.lease⟩
  refine (leaseGone_iff hm hsweep.lease).trans ?_
  rw [leaseThere_iff hm]
  constructor
  · rintro ⟨hx, hsome, hnone⟩
    refine ⟨?_, hx, hsome⟩
    by_contra hne
    rw [ite_apply, Function.update_of_ne hne, ite_self] at hnone
    rw [hnone] at hsome
    cases hsome
  · rintro ⟨rfl, hx, hsome⟩
    exact ⟨hx, hsome, by rw [if_neg hx, Function.update_self]⟩

/-- The leases a tick removes lose exactly the keys attached to them. -/
theorem Consistent.tick (h : Consistent E S U b.store.tables b.newRev) {term : UInt64}
    (heff : Effect E b (.tick term) b') (hrev : b'.newRev < 2 ^ 52) :
    DeletesAttached b.store.tables b'.store.tables := by
  obtain ⟨m, hm⟩ := h.lease
  cases heff with
  | keep => exact (Swept.refl m _).deletesAttached h.attached hm hm
  | tick _ hloop =>
      obtain ⟨-, m', hm', hswept⟩ := expireLoop_consistent h hm hloop hrev
      exact hswept.deletesAttached h.attached hm hm'

end Run

/-- While the puts of a run name their leases, the index of attached keys is exact in every
state, and revoking or expiring leases deletes exactly the keys attached to them. -/
theorem leaseKeys_exact {b : Batch} (h : Reached E (Cmd.NamesLeases E) b)
    (hrev : b.newRev + 1 < 2 ^ 52) :
    LeaseKeysExact E b.store.tables ∧
    ∀ (ent : Entry) (b' : Batch) (res : Result), applyEntry E b ent = .ok (b', res) →
      b'.newRev < 2 ^ 52 →
      (∀ id, ent.cmd = .leaseRevoke id →
        (∀ x, LeaseGone b.store.tables b'.store.tables x ↔
          x = id.toUInt64 ∧ LeaseThere b.store.tables x) ∧
        DeletesAttached b.store.tables b'.store.tables) ∧
      ∀ term, ent.cmd = .tick term → DeletesAttached b.store.tables b'.store.tables := by
  have hcons := h.consistent hrev
  refine ⟨hcons.leaseKeysExact, fun ent b' res happly hrev' => ⟨fun id hcmd => ?_,
    fun term hcmd => ?_⟩⟩
  · rw [applyEntry, hcmd] at happly
    exact hcons.applyLeaseRevoke happly hrev'
  · have heff := effect_of_applyEntry happly
    rw [hcmd] at heff
    exact hcons.tick heff hrev'

theorem leaseKeys_exact_after_puts :
    ∃ s ∈ storeAfter [[.leaseGrant { ttl := 5, id := 7 },
        .put { key := [97], value := [1], lease := 7 },
        .put { key := [98], value := [1] }]],
      LeaseKeysExact .plain s.tables ∧
      ∃ r ∈ (applyEntry .plain (.start s) { index := 2, cmd := .leaseRevoke 7 }).toOption,
        DeletesAttached s.tables r.1.store.tables := by
  refine exists_mem_imp (D := fun s => (Batch.start s).newRev + 1 < 2 ^ 52 ∧
    ∃ r ∈ (applyEntry .plain (.start s) { index := 2, cmd := .leaseRevoke 7 }).toOption,
      r.1.newRev < 2 ^ 52) (by decide +kernel) (fun s hs hD => ?_)
  obtain ⟨hexact, hrun⟩ := leaseKeys_exact (reached_of_storeAfter (by decide +kernel) hs) hD.1
  refine ⟨hexact, exists_mem_imp hD.2 (fun r hr hrev => ?_)⟩
  exact ((hrun _ r.1 r.2 (eq_ok_of_mem_toOption hr) hrev).1 7 rfl).2

/-- A put that keeps the lease of a key leaves a record that names none.  Its deletion then
leaves the key in the index. -/
theorem ignoreLease_loses_lease :
    (∃ s ∈ storeAfter [[.leaseGrant { ttl := 5, id := 7 },
        .put { key := [97], value := [1], lease := 7 },
        .put { key := [97], value := [2], ignoreLease := true }]],
      ¬ LeaseKeysExact .plain s.tables) ∧
    ∃ s ∈ storeAfter [[.leaseGrant { ttl := 5, id := 7 },
        .put { key := [97], value := [1], lease := 7 },
        .put { key := [97], value := [2], ignoreLease := true }, .deleteRange { key := [97] }]],
      (s.tables.leaseKey.get (DbLeaseKey.key 7 [97])).isSome = true ∧
        s.tables.kv.liveRec [97] = none := by
  refine ⟨exists_mem_imp (D := fun s => HoldsKv .plain s.tables [97] ⟨[97], revAt 3 0 false, 0⟩
    ⟨revAt 3 0 false, 2, 2, 7, [97], [2]⟩) (by decide +kernel) (fun s hs hkv hexact => ?_),
    by decide +kernel⟩
  exact absurd (hexact.named _ _ _ hkv) (by decide)

end Turbokube
