import Mathlib.Data.List.Perm.Subperm
import Turbokube.Machine.Expiry
import Turbokube.Machine.Ticks

/-!
# Lease times

A grant adds the time to live of the request, a signed number, to the epoch, an unsigned one, and a
deadline of 0 stands for an absent lease.  `TimesFit` asks for what keeps this arithmetic on
integers: no grant for a negative time, nor for none at epoch 0, and fewer than 2^63 ticks.  A grant
without an id also needs an id above the cursor.

`Timed` says where a lease of the next state comes from, and both the bounds on the times of a lease
and the time between its renewal and its deadline follow from it.
-/

namespace Turbokube

open Encoding Lmdb

/-- The lease is stored under the id. -/
def Tables.HasLease (t : Tables) (id : UInt64) (l : Lease) : Prop :=
  ∃ v ∈ t.lease.get (putUvarint id), Lease.fromBytes (putUvarint id) v = .ok l

/-- From the last renewal to the deadline. -/
def Lease.span (l : Lease) : Int := (l.expires.toNat : Int) - l.renewed.toNat

/-- What is asked of a command in the state it is applied in. -/
def TimesFit (b : Batch) : Cmd → Prop
  | .leaseGrant req =>
      b.epoch.toNat < 2 ^ 63 ∧ 0 ≤ req.ttl ∧ 0 < b.epoch.toNat + req.ttl.toInt ∧
        (req.id = 0 →
          b.store.dbMeta.leaseID.toNat + b.store.tables.lease.entries.length + 1 < 2 ^ 64)
  | _ => b.epoch.toNat < 2 ^ 63

instance (b : Batch) (cmd : Cmd) : Decidable (TimesFit b cmd) :=
  match cmd with
  | .leaseGrant req =>
      inferInstanceAs (Decidable (b.epoch.toNat < 2 ^ 63 ∧ 0 ≤ req.ttl ∧
        0 < b.epoch.toNat + req.ttl.toInt ∧ (req.id = 0 →
          b.store.dbMeta.leaseID.toNat + b.store.tables.lease.entries.length + 1 < 2 ^ 64)))
  | .leaseKeepAlive _ | .leaseKeepAliveBatch _ | .term _ | .tick _ | .put _ | .deleteRange _
  | .compact _ | .txn _ | .leaseRevoke _ | .invalid | .unknown | .empty =>
      inferInstanceAs (Decidable (b.epoch.toNat < 2 ^ 63))

variable {t : Tables} {m : UInt64 → Option Lease} {epoch id : UInt64}

theorem LeaseTables.hasLease_iff (ht : LeaseTables t m) {l : Lease} :
    t.HasLease id l ↔ m id = some l := by
  constructor
  · rintro ⟨v, hv, hl⟩
    obtain ⟨id', x, hx, hid, rfl⟩ := ht.lease.get_eq_some_iff.mp hv
    obtain rfl := putUvarint_inj hid
    rw [← ht.lease.id id x hx, x.fromBytes_bytes] at hl
    rw [hx, Except.ok.inj hl]
  · intro hl
    refine ⟨l.bytes, ht.lease.get_eq_some_iff.mpr ⟨id, l, hl, rfl, rfl⟩, ?_⟩
    rw [← ht.lease.id id l hl, l.fromBytes_bytes]

/-- The difference of two unsigned numbers that is small as an integer. -/
theorem toInt_sub {a b : UInt64} (hle : b.toNat ≤ a.toNat) (hlt : a.toNat < b.toNat + 2 ^ 63) :
    ((a - b).toInt64.toInt : Int) = (a.toNat : Int) - b.toNat := by
  have hsub : (a - b).toNat = a.toNat - b.toNat := UInt64.toNat_sub_of_le _ _ hle
  have hint : (a - b).toInt64.toInt = if 2 * (a - b).toNat < 2 ^ 64 then ((a - b).toNat : Int)
      else ((a - b).toNat : Int) - 2 ^ 64 := (a - b).toBitVec.toInt_eq_toNat_cond
  rw [if_pos (by omega)] at hint
  omega

section Free

/-- Ids after the cursor that are all taken. -/
theorem freeLeaseID_spec (h : Leases t.lease m) {fuel : Nat} (hid : id.toNat + fuel < 2 ^ 64) :
    (∃ id', freeLeaseID t.lease fuel id = .ok id' ∧ id.toNat < id'.toNat ∧ m id' = none) ∨
      ∀ j < fuel, m (id + 1 + UInt64.ofNat j) ≠ none := by
  induction fuel generalizing id with
  | zero => exact .inr (fun j hj => absurd hj (Nat.not_lt_zero j))
  | succ fuel ih =>
      have hone : (id + 1).toNat = id.toNat + 1 := by
        rw [UInt64.toNat_add, UInt64.toNat_one]
        omega
      rw [freeLeaseID, h.dbGet]
      simp only
      cases hm : m (id + 1) with
      | none => exact .inl ⟨id + 1, rfl, by omega, hm⟩
      | some l =>
          have hlid : l.id ≠ 0 := by
            intro hzero
            rw [← h.id _ l hm, hzero] at hone
            exact absurd hone (by simp)
          simp only [Option.getD_some, if_neg hlid]
          rcases @ih (id + 1) (by omega) with ⟨id', hfree, hlt, hnone⟩ | htaken
          · exact .inl ⟨id', hfree, by omega, hnone⟩
          · refine .inr (fun j hj => ?_)
            cases j with
            | zero =>
                rw [show id + 1 + UInt64.ofNat 0 = id + 1 from UInt64.add_zero _, hm]
                exact Option.some_ne_none l
            | succ j =>
                have hnext : id + 1 + UInt64.ofNat (j + 1) = id + 1 + 1 + UInt64.ofNat j := by
                  rw [UInt64.ofNat_add, UInt64.add_comm (UInt64.ofNat j), ← UInt64.add_assoc]
                  rfl
                rw [hnext]
                exact htaken j (by omega)

/-- One more step than there are leases finds a free id. -/
theorem exists_freeLeaseID (h : Leases t.lease m)
    (hid : id.toNat + t.lease.entries.length + 1 < 2 ^ 64) :
    ∃ id', freeLeaseID t.lease (t.lease.entries.length + 1) id = .ok id' ∧
      id.toNat < id'.toNat ∧ m id' = none := by
  rcases freeLeaseID_spec h (show id.toNat + (t.lease.entries.length + 1) < 2 ^ 64 by omega)
    with hfree | htaken
  · exact hfree
  · -- the ids would be one more than the entries
    have hnodup : ((List.range (t.lease.entries.length + 1)).map
        (fun j => putUvarint (id + 1 + UInt64.ofNat j))).Nodup := by
      refine List.Nodup.map_on (fun i hi j hj heq => ?_) List.nodup_range
      have hij := congrArg UInt64.toNat ((UInt64.add_right_inj _).mp (putUvarint_inj heq))
      rw [List.mem_range] at hi hj
      rw [UInt64.toNat_ofNat', UInt64.toNat_ofNat', Nat.mod_eq_of_lt (by omega),
        Nat.mod_eq_of_lt (by omega)] at hij
      exact hij
    have hsub : (List.range (t.lease.entries.length + 1)).map
        (fun j => putUvarint (id + 1 + UInt64.ofNat j)) ⊆ t.lease.entries.map Prod.fst := by
      intro k hk
      obtain ⟨j, hj, rfl⟩ := List.mem_map.mp hk
      obtain ⟨l, hl⟩ := Option.ne_none_iff_exists'.mp (htaken j (List.mem_range.mp hj))
      have hget := h.get_eq_some_iff.mpr ⟨_, l, hl, rfl, rfl⟩
      exact List.mem_map.mpr ⟨_, Table.get_eq_some_iff.mp hget, rfl⟩
    have hlen := (List.Nodup.subperm hnodup hsub).length_le
    simp at hlen

end Free

/-- What the times of every lease keep to, and no lease has the id 0. -/
structure Lease.OnTime (epoch : UInt64) (l : Lease) : Prop where
  id : l.id ≠ 0
  renewed : l.renewed.toNat ≤ epoch.toNat
  ahead : epoch.toNat ≤ l.expires.toNat
  pos : 0 < l.expires.toNat
  short : l.expires.toNat < l.renewed.toNat + 2 ^ 63

/-- Where a lease comes from. -/
inductive Timed (b b' : Batch) (m : UInt64 → Option Lease) (l' : Lease) : Cmd → Prop where
  | kept {cmd : Cmd} (hl : m l'.id = some l') (hepoch : b'.epoch = b.epoch) : Timed b b' m l' cmd
  | ticked {term : UInt64} (hl : m l'.id = some l') (hepoch : b'.epoch = b.epoch + 1)
      (hlater : l'.id ≠ 0 → b'.epoch < l'.expires) : Timed b b' m l' (.tick term)
  | renewed {cmd : Cmd} {l : Lease} (hl : m l'.id = some l) (hepoch : b'.epoch = b.epoch)
      (heq : l' = ⟨l.id, b.epoch + (l.expires - l.renewed), b.epoch⟩) : Timed b b' m l' cmd
  | granted {req : LeaseGrantRequest} {item : Lease} {leaseID : UInt64}
      (hitem : grantItem b.store.tables.lease b.store.dbMeta.leaseID req = .ok (item, leaseID))
      (hepoch : b'.epoch = b.epoch) (heq : l' = ⟨item.id, b.epoch + req.ttl.toUInt64, b.epoch⟩) :
      Timed b b' m l' (.leaseGrant req)

section Step

variable {E : Env} {b b' : Batch} {cmd : Cmd}

theorem Renewals.timed {m' : UInt64 → Option Lease} (h : Renewals b.epoch m m')
    (ht : LeaseTables b.store.tables m) (hepoch : b'.epoch = b.epoch) {l' : Lease}
    (hl' : m' id = some l') (hid : l'.id = id) : Timed b b' m l' cmd := by
  rcases h id l' hl' with hsame | ⟨l, hl, heq⟩
  · exact .kept (by rw [hid]; exact hsame) hepoch
  · exact .renewed (by rw [hid]; exact hl) hepoch (by rw [heq, ht.lease.id id l hl])

theorem Effect.timed (ht : LeaseTables b.store.tables m) (hs : Sweepable b.store.tables)
    (heff : Effect E b cmd b') :
    ∃ m', LeaseTables b'.store.tables m' ∧ ∀ id l', m' id = some l' → Timed b b' m l' cmd := by
  have hkept : ∀ {b₁ : Batch} {cmd : Cmd} id l', m id = some l' → b₁.epoch = b.epoch →
      Timed b b₁ m l' cmd := fun id l' hl' hepoch =>
    .kept (by rw [ht.lease.id id l' hl']; exact hl') hepoch
  by_cases htouch : cmd.onLeases = false
  · obtain ⟨hlease, hexp, hepoch⟩ := heff.lease_congr htouch
    exact ⟨m, ht.congr hlease hexp, fun id l' hl' => hkept id l' hl' hepoch⟩
  · cases heff with
    | keep => exact ⟨m, ht, fun id l' hl' => hkept id l' hl' rfl⟩
    | leaseGrant hgrant =>
        rcases cmdLeaseGrant_inv hgrant with rfl | ⟨item, _, hitem, -, rfl⟩
        · exact ⟨m, ht, fun id l' hl' => hkept id l' hl' rfl⟩
        · refine ⟨_, ht.put _, fun id l' hl' => ?_⟩
          by_cases hid : id = item.id
          · rw [hid, Function.update_self] at hl'
            exact .granted hitem rfl (Option.some.inj hl').symm
          · rw [Function.update_of_ne hid] at hl'
            exact hkept id l' hl' rfl
    | leaseRevoke hrevoke =>
        obtain ⟨m', ht', -, hsub, -⟩ := ht.revoke hrevoke
        exact ⟨m', ht', fun id l' hl' => hkept id l' (hsub id l' hl') rfl⟩
    | leaseKeepAlive halive =>
        obtain ⟨m', ht', hrenewed⟩ := ht.keepAlive halive
        exact ⟨m', ht', fun id l' hl' => hrenewed.timed ht (by rfl) hl' (ht'.lease.id id l' hl')⟩
    | leaseKeepAliveBatch halive =>
        obtain ⟨m', ht', hrenewed⟩ := ht.keepAliveBatch halive
        exact ⟨m', ht', fun id l' hl' => hrenewed.timed ht (by rfl) hl' (ht'.lease.id id l' hl')⟩
    | tick hterm hloop =>
        obtain ⟨t₁, newRev₁, keys₁, m', heq, -, ht', hrevokes, hdue⟩ :=
          @Sweepable.expireLoop _ m (b.epoch + 1) _ b.newRev b.keys ht.entries (Table.sorted _) hs
            ht
        obtain ⟨rfl, -⟩ := Prod.mk.inj (Except.ok.inj (heq.symm.trans hloop))
        refine ⟨m', ht', fun id l' hl' => ?_⟩
        have hid := ht'.lease.id id l' hl'
        have hold : m id = some l' := by
          rcases hrevokes.lease id with hsame | ⟨hnone, -⟩
          · exact hsame ▸ hl'
          · rw [hnone] at hl'
            cases hl'
        refine .ticked (by rw [hid]; exact hold) rfl (fun hid0 => ?_)
        by_contra hle
        obtain ⟨v, hv⟩ := Option.isSome_iff_exists.mp (ht.indexed id l' hold)
        have hgone := hdue (DbLeaseExp.key l', v) (Table.get_eq_some_iff.mp hv) l' rfl
          (UInt64.not_lt.mp hle) hid0 (by rw [hv]; simp)
        rw [hid, hl'] at hgone
        cases hgone
    | _ => exact absurd rfl htouch

/-- The cursor of generated ids does not wrap around: one more step than there are leases keeps
it below 2^64. -/
def Cmd.KeepsCursor (b : Batch) : Cmd → Prop
  | .leaseGrant req => req.id = 0 →
      b.store.dbMeta.leaseID.toNat + b.store.tables.lease.entries.length + 1 < 2 ^ 64
  | _ => True

instance (b : Batch) (cmd : Cmd) : Decidable (cmd.KeepsCursor b) :=
  match cmd with
  | .leaseGrant req =>
      inferInstanceAs (Decidable (req.id = 0 →
        b.store.dbMeta.leaseID.toNat + b.store.tables.lease.entries.length + 1 < 2 ^ 64))
  | .leaseKeepAlive _ | .leaseKeepAliveBatch _ | .term _ | .tick _ | .put _ | .deleteRange _
  | .compact _ | .txn _ | .leaseRevoke _ | .invalid | .unknown | .empty => .isTrue trivial

/-- A grant without an id takes one that is not 0. -/
theorem grantItem_id_ne_zero {req : LeaseGrantRequest} {item : Lease} {leaseID : UInt64}
    (ht : LeaseTables b.store.tables m) (hcursor : Cmd.KeepsCursor b (.leaseGrant req))
    (hitem : grantItem b.store.tables.lease b.store.dbMeta.leaseID req = .ok (item, leaseID)) :
    item.id ≠ 0 := by
  unfold grantItem at hitem
  by_cases hid : req.id.toUInt64 = 0
  · have hreq : req.id = 0 := congrArg UInt64.toInt64 hid
    obtain ⟨id', hfree, hlt, -⟩ := exists_freeLeaseID ht.lease (hcursor hreq)
    rw [if_pos hid, hfree] at hitem
    obtain ⟨rfl, -⟩ := Prod.mk.inj (Except.ok.inj hitem)
    intro hzero
    simp only at hzero
    rw [hzero] at hlt
    exact absurd hlt (by simp)
  · rw [if_neg hid, ht.lease.dbGet] at hitem
    obtain ⟨rfl, -⟩ := Prod.mk.inj (Except.ok.inj hitem)
    exact hid

theorem Timed.id_ne_zero {l' : Lease} (h : Timed b b' m l' cmd)
    (ht : LeaseTables b.store.tables m) (hids : ∀ id l, m id = some l → l.id ≠ 0)
    (hcursor : cmd.KeepsCursor b) : l'.id ≠ 0 := by
  cases h with
  | kept hl _ => exact hids _ l' hl
  | ticked hl _ _ => exact hids _ l' hl
  | @renewed _ l hl _ heq =>
      have hid : l.id ≠ 0 := hids _ l hl
      rw [heq]
      exact hid
  | @granted _ item _ hitem _ heq =>
      have hid : item.id ≠ 0 := grantItem_id_ne_zero ht hcursor hitem
      rw [heq]
      exact hid

/-- No lease of a run whose cursor does not wrap around has the id 0. -/
theorem Reached.lease_zero (h : Reached E (fun b cmd => cmd.KeepsCursor b) b) :
    ∃ m, LeaseTables b.store.tables m ∧ m 0 = none := by
  suffices hinv : ∃ m, LeaseTables b.store.tables m ∧ ∀ id l, m id = some l → l.id ≠ 0 by
    obtain ⟨m, ht, hids⟩ := hinv
    refine ⟨m, ht, Option.eq_none_iff_forall_not_mem.mpr (fun l hl => ?_)⟩
    exact hids 0 l hl (ht.lease.id 0 l hl)
  refine (h.inv (I := fun t _ _ => Sweepable t ∧
    ∃ m, LeaseTables t m ∧ ∀ id l, m id = some l → l.id ≠ 0)
    ⟨.empty, _, .empty, fun _ _ hl => (by cases hl)⟩ (fun hb hcursor heff => ?_)).2
  obtain ⟨hs, m, ht, hids⟩ := hb
  obtain ⟨m', ht', htimed⟩ := heff.timed ht hs
  exact ⟨heff.sweepable ht hs, m', ht', fun id l' hl' =>
    (htimed id l' hl').id_ne_zero ht hids hcursor⟩

/-- A renewal adds the time between the last renewal and the deadline to the epoch. -/
theorem Lease.OnTime.renewed_expires {l : Lease} (h : l.OnTime epoch)
    (hepoch : epoch.toNat < 2 ^ 63) :
    (epoch + (l.expires - l.renewed)).toNat =
      epoch.toNat + (l.expires.toNat - l.renewed.toNat) := by
  have hle : l.renewed.toNat ≤ l.expires.toNat := h.renewed.trans h.ahead
  have hshort := h.short
  rw [UInt64.toNat_add, UInt64.toNat_sub_of_le _ _ hle]
  omega

theorem TimesFit.epoch_lt (hfits : TimesFit b cmd) : b.epoch.toNat < 2 ^ 63 := by
  cases cmd with
  | leaseGrant req => exact hfits.1
  | _ => exact hfits

/-- The deadline of a new lease. -/
theorem TimesFit.expires {req : LeaseGrantRequest} (hfits : TimesFit b (.leaseGrant req)) :
    ((b.epoch + req.ttl.toUInt64).toNat : Int) = b.epoch.toNat + req.ttl.toInt := by
  obtain ⟨hepoch, httl, -, -⟩ := hfits
  obtain ⟨heq, hlt⟩ := toNat_of_nonneg httl
  rw [UInt64.toNat_add]
  omega

/-- One command keeps every lease on time. -/
theorem Timed.onTime {l' : Lease} (h : Timed b b' m l' cmd) (ht : LeaseTables b.store.tables m)
    (htimes : ∀ id l, m id = some l → l.OnTime b.epoch) (hfits : TimesFit b cmd) :
    l'.OnTime b'.epoch := by
  cases h with
  | kept hl hepoch =>
      rw [hepoch]
      exact htimes _ l' hl
  | ticked hl hepoch hlater =>
      have hold := htimes _ l' hl
      have hnat : (b.epoch + 1).toNat = b.epoch.toNat + 1 := by
        have hlt := hfits.epoch_lt
        rw [UInt64.toNat_add, UInt64.toNat_one]
        omega
      have hlt := UInt64.lt_iff_toNat_lt.mp (hlater hold.id)
      have hrenewed := hold.renewed
      rw [hepoch, hnat] at hlt
      rw [hepoch]
      exact ⟨hold.id, by omega, by omega, hold.pos, hold.short⟩
  | @renewed _ l hl hepoch heq =>
      have hold := htimes _ l hl
      have hexp := hold.renewed_expires hfits.epoch_lt
      have hahead := hold.ahead
      have hrenewed := hold.renewed
      have hpos := hold.pos
      have hshort := hold.short
      rw [hepoch, heq]
      constructor
      case id => exact hold.id
      case renewed => exact le_rfl
      case ahead =>
        show b.epoch.toNat ≤ (b.epoch + (l.expires - l.renewed)).toNat
        omega
      case pos =>
        show 0 < (b.epoch + (l.expires - l.renewed)).toNat
        omega
      case short =>
        show (b.epoch + (l.expires - l.renewed)).toNat < b.epoch.toNat + 2 ^ 63
        omega
  | @granted req item _ hitem hepoch heq =>
      have hid := grantItem_id_ne_zero ht hfits.2.2.2 hitem
      have hexp := hfits.expires
      obtain ⟨hlt, httl, hpos, -⟩ := hfits
      obtain ⟨hnat, hsmall⟩ := toNat_of_nonneg httl
      rw [hepoch, heq]
      constructor
      case id => exact hid
      case renewed => exact le_rfl
      case ahead =>
        show b.epoch.toNat ≤ (b.epoch + req.ttl.toUInt64).toNat
        omega
      case pos =>
        show 0 < (b.epoch + req.ttl.toUInt64).toNat
        omega
      case short =>
        show (b.epoch + req.ttl.toUInt64).toNat < b.epoch.toNat + 2 ^ 63
        omega

/-- One command keeps the time between the renewal of a lease and its deadline, or grants the
lease with that time. -/
theorem Timed.span {l' : Lease} (h : Timed b b' m l' cmd)
    (htimes : ∀ id l, m id = some l → l.OnTime b.epoch) (hfits : TimesFit b cmd) :
    (∃ l, m l'.id = some l ∧ l'.span = l.span) ∨
      ∃ req, cmd = .leaseGrant req ∧ l'.span = req.ttl.toInt := by
  cases h with
  | kept hl _ => exact .inl ⟨l', hl, rfl⟩
  | ticked hl _ _ => exact .inl ⟨l', hl, rfl⟩
  | @renewed _ l hl _ heq =>
      have hold := htimes _ l hl
      have hexp := hold.renewed_expires hfits.epoch_lt
      have hle : l.renewed.toNat ≤ l.expires.toNat := hold.renewed.trans hold.ahead
      refine .inl ⟨l, hl, ?_⟩
      rw [heq, Lease.span, Lease.span]
      simp only
      omega
  | @granted req _ _ _ _ heq =>
      have hexp := hfits.expires
      refine .inr ⟨req, rfl, ?_⟩
      rw [heq, Lease.span]
      simp only
      omega

/-- Every lease of a run is on time. -/
theorem Reached.onTime (h : Reached E TimesFit b) :
    ∃ m, LeaseTables b.store.tables m ∧ ∀ id l, m id = some l → l.OnTime b.epoch := by
  have hinv := h.inv (I := fun t _ epoch => Sweepable t ∧
    ∃ m, LeaseTables t m ∧ ∀ id l, m id = some l → l.OnTime epoch)
    ⟨.empty, _, .empty, fun _ _ hl => (by cases hl)⟩ (fun hb hfits heff => ?_)
  · exact hinv.2
  · obtain ⟨hs, m, ht, htimes⟩ := hb
    obtain ⟨m', ht', htimed⟩ := heff.timed ht hs
    exact ⟨heff.sweepable ht hs, m', ht', fun id l' hl' =>
      (htimed id l' hl').onTime ht htimes hfits⟩

/-- A grant of a lease that is stored. -/
theorem grant_stored {ent : Entry} {req : LeaseGrantRequest} {l : Lease}
    (ht : LeaseTables b.store.tables m) (htimes : ∀ id l, m id = some l → l.OnTime b.epoch)
    (hcmd : ent.cmd = .leaseGrant req) (hl : m req.id.toUInt64 = some l) :
    applyEntry E b ent = .ok (b, ⟨0, .leaseGrant
      { header := some (responseHeader E b.newRev), error := Err.grpcLeaseExist.error }⟩) := by
  have hold := htimes _ l hl
  have hlid := ht.lease.id _ l hl
  have hid : req.id.toUInt64 ≠ 0 := hlid ▸ hold.id
  have hpos : 0 < l.expires := UInt64.lt_iff_toNat_lt.mpr hold.pos
  have hitem : grantItem b.store.tables.lease b.store.dbMeta.leaseID req =
      .ok (l, b.store.dbMeta.leaseID) := by
    rw [grantItem, if_neg hid, ht.lease.dbGet, hl, ← hlid]
    rfl
  rw [applyEntry, hcmd]
  simp only [applyLeaseGrant, cmdLeaseGrant, hitem, if_pos hpos]
  rfl

/-- A grant of a lease that is not stored, or of one without an id. -/
theorem grant_new {ent : Entry} {req : LeaseGrantRequest} (ht : LeaseTables b.store.tables m)
    (hfits : TimesFit b (.leaseGrant req)) (hcmd : ent.cmd = .leaseGrant req)
    (hnone : m req.id.toUInt64 = none) :
    ∃ b' res id, applyEntry E b ent = .ok (b', res) ∧ (req.id ≠ 0 → id = req.id.toUInt64) ∧
      m id = none ∧ LeaseTables b'.store.tables
        (Function.update m id (some ⟨id, b.epoch + req.ttl.toUInt64, b.epoch⟩)) := by
  obtain ⟨id, leaseID, hitem, hid, hfree⟩ : ∃ id leaseID,
      grantItem b.store.tables.lease b.store.dbMeta.leaseID req = .ok ({ id := id }, leaseID) ∧
      (req.id ≠ 0 → id = req.id.toUInt64) ∧ m id = none := by
    rw [grantItem]
    by_cases hid : req.id.toUInt64 = 0
    · have hreq : req.id = 0 := congrArg UInt64.toInt64 hid
      obtain ⟨id, hfree, -, hm⟩ := exists_freeLeaseID ht.lease (hfits.2.2.2 hreq)
      rw [if_pos hid, hfree]
      exact ⟨id, id, rfl, fun hne => absurd hreq hne, hm⟩
    · rw [if_neg hid, ht.lease.dbGet, hnone]
      exact ⟨_, _, rfl, fun _ => rfl, hnone⟩
  have hzero : ¬ (0 : UInt64) < ({ id := id } : Lease).expires := by simp
  rw [applyEntry, hcmd]
  simp only [applyLeaseGrant, cmdLeaseGrant, hitem, if_neg hzero]
  exact ⟨_, _, id, rfl, hid, hfree, ht.put _⟩

end Step

/-- In every run whose cursor of generated ids does not wrap around, a tick that is not refused
ends and misses nothing. -/
theorem tick_misses_nothing {E : Env} {b : Batch}
    (h : Reached E (fun b cmd => cmd.KeepsCursor b) b) {ent : Entry} {term : UInt64}
    (hcmd : ent.cmd = .tick term) (hterm : b.store.dbMeta.term ≤ term) :
    ∃ b' res, applyEntry E b ent = .ok (b', res) ∧ b'.epoch = b.epoch + 1 ∧
      MissesNothing (b.epoch + 1) b.store.tables b'.store.tables := by
  obtain ⟨m, ht, hzero⟩ := h.lease_zero
  refine (tick_missesNothing_iff h hcmd hterm).mpr (fun hdue => ?_)
  obtain ⟨l, hl, -⟩ := ht.zeroDue_iff.mp hdue
  rw [hzero] at hl
  cases hl

/-- One lease was granted with an id and one without, and the first is due. -/
theorem tick_misses_nothing_two_leases :
    ∃ s ∈ storeAfter [[.leaseGrant { ttl := 1, id := 7 }, .leaseGrant { ttl := 2 }],
        [.put { key := [97], value := [1], lease := 7 }]],
      s.tables.lease.entries.length = 2 ∧
      ∃ b' res, applyEntry .plain (.start s) { index := 3, cmd := .tick 0 } = .ok (b', res) ∧
        b'.epoch = s.dbMeta.epoch + 1 ∧
        MissesNothing (s.dbMeta.epoch + 1) s.tables b'.store.tables := by
  refine exists_mem_imp (D := fun s => s.tables.lease.entries.length = 2 ∧ s.dbMeta.term ≤ 0)
    (by decide +kernel) (fun s hs hD => ?_)
  exact ⟨hD.1, tick_misses_nothing (reached_of_storeAfter (by decide +kernel) hs) rfl hD.2⟩

/-- What the leases of a state and the commands on them keep to. -/
structure LeaseTimes (E : Env) (b : Batch) : Prop where
  /-- Renewed in the past, with a deadline after that. -/
  bounds : ∀ id l, b.store.tables.HasLease id l →
    l.renewed.toNat ≤ b.epoch.toNat ∧ l.renewed.toNat ≤ l.expires.toNat
  /-- The time to live is what is left, and it is not negative. -/
  timeToLive : ∀ (id : Int64) l, b.store.tables.HasLease id.toUInt64 l →
    ∃ ttl, queryLeaseTimeToLive b.store id = .ok ttl ∧
      ttl.toInt = (l.expires.toNat : Int) - b.epoch.toNat ∧ 0 ≤ ttl.toInt
  /-- A grant of a stored lease reports that and changes nothing. -/
  stored : ∀ ent req l, ent.cmd = .leaseGrant req →
    b.store.tables.HasLease req.id.toUInt64 l →
    applyEntry E b ent = .ok (b, ⟨0, .leaseGrant
      { header := some (responseHeader E b.newRev), error := Err.grpcLeaseExist.error }⟩)
  /-- Any other grant stores one lease more, with the deadline that was asked for. -/
  granted : ∀ ent req, ent.cmd = .leaseGrant req → TimesFit b ent.cmd →
    (∀ l, ¬ b.store.tables.HasLease req.id.toUInt64 l) →
    ∃ b' res id l, applyEntry E b ent = .ok (b', res) ∧ (req.id ≠ 0 → id = req.id.toUInt64) ∧
      (l.expires.toNat : Int) = b.epoch.toNat + req.ttl.toInt ∧ l.renewed = b.epoch ∧
      (∀ l', ¬ b.store.tables.HasLease id l') ∧
      ∀ id' l', b'.store.tables.HasLease id' l' ↔
        if id' = id then l' = l else b.store.tables.HasLease id' l'
  /-- The time from renewal to deadline is the one granted, and keep-alives keep it. -/
  span : ∀ ent b' res, applyEntry E b ent = .ok (b', res) → TimesFit b ent.cmd →
    ∀ id l', b'.store.tables.HasLease id l' →
      (∃ l, b.store.tables.HasLease id l ∧ l'.span = l.span) ∨
        ∃ req, ent.cmd = .leaseGrant req ∧ l'.span = req.ttl.toInt

/-- In every run whose grants fit, lease times are those of the integers and no grant overwrites a
lease. -/
theorem leaseTimes_of_timesFit {E : Env} {b : Batch} (h : Reached E TimesFit b) :
    LeaseTimes E b := by
  obtain ⟨m, ht, htimes⟩ := h.onTime
  have hs := h.sweepable.2
  have hepoch := h.synced.epoch
  constructor
  case bounds =>
    intro id l hl
    have hold := htimes id l (ht.hasLease_iff.mp hl)
    exact ⟨hold.renewed, hold.renewed.trans hold.ahead⟩
  case timeToLive =>
    intro id l hl
    have hm := ht.hasLease_iff.mp hl
    have hold := htimes _ l hm
    have hshort := hold.short
    have hrenewed := hold.renewed
    have hint := toInt_sub hold.ahead (by omega)
    have hahead := hold.ahead
    have hpos : 0 < l.expires := UInt64.lt_iff_toNat_lt.mpr hold.pos
    rw [queryLeaseTimeToLive, ht.lease.dbGet, hm, ← hepoch]
    simp only [Option.getD_some, if_pos hpos]
    exact ⟨_, rfl, hint, by omega⟩
  case stored =>
    intro ent req l hcmd hl
    exact grant_stored ht htimes hcmd (ht.hasLease_iff.mp hl)
  case granted =>
    intro ent req hcmd hfits hnone
    rw [hcmd] at hfits
    have hm : m req.id.toUInt64 = none := by
      by_contra hsome
      obtain ⟨l, hl⟩ := Option.ne_none_iff_exists'.mp hsome
      exact hnone l (ht.hasLease_iff.mpr hl)
    obtain ⟨b', res, id, happly, hid, hfree, ht'⟩ := grant_new ht hfits hcmd hm
    refine ⟨b', res, id, ⟨id, b.epoch + req.ttl.toUInt64, b.epoch⟩, happly, hid, hfits.expires, rfl,
      fun l' hl' => ?_, fun id' l' => ?_⟩
    · rw [ht.hasLease_iff, hfree] at hl'
      cases hl'
    · rw [ht'.hasLease_iff, ht.hasLease_iff]
      by_cases heq : id' = id
      · rw [heq, Function.update_self, if_pos rfl, Option.some.injEq, eq_comm]
      · rw [Function.update_of_ne heq, if_neg heq]
  case span =>
    intro ent b' res happly hfits id l' hl'
    obtain ⟨m', ht', htimed⟩ := (effect_of_applyEntry happly).timed ht hs
    rw [ht'.hasLease_iff] at hl'
    have hid := ht'.lease.id id l' hl'
    rcases (htimed id l' hl').span htimes hfits with ⟨l, hl, hspan⟩ | hgrant
    · rw [hid] at hl
      exact .inl ⟨l, ht.hasLease_iff.mpr hl, hspan⟩
    · exact .inr hgrant

theorem leaseTimes_after_renewal :
    ∃ s ∈ storeAfter [[.leaseGrant { ttl := 5, id := 7 }], [.tick 0, .tick 0],
        [.leaseKeepAlive 7], [.leaseGrant { ttl := 0 }]],
      DbLease.get s.tables.lease 7 = .ok ⟨7, 7, 2⟩ ∧ LeaseTimes .plain (.start s) := by
  refine exists_mem_imp (D := fun s => DbLease.get s.tables.lease 7 = .ok ⟨7, 7, 2⟩)
    (by decide +kernel) (fun s hs hget => ?_)
  exact ⟨hget, leaseTimes_of_timesFit (reached_of_storeAfter (by decide +kernel) hs)⟩

/-- A grant for -1 epochs at epoch 0 stores the deadline 2^64 - 1, and one for 0 epochs stores the
deadline 0, over which the next grant writes. -/
theorem grant_wraps_and_overwrites :
    (∃ s ∈ storeAfter [[.leaseGrant { ttl := -1, id := 7 }]],
      DbLease.get s.tables.lease 7 = .ok ⟨7, 18446744073709551615, 0⟩) ∧
    ∃ s ∈ storeAfter [[.leaseGrant { ttl := 0, id := 7 }]],
      DbLease.get s.tables.lease 7 = .ok ⟨7, 0, 0⟩ ∧
      queryLeaseTimeToLive s 7 = .ok (-1) ∧
      ∃ r ∈ (applyEntry .plain (.start s)
          { index := 1, cmd := .leaseGrant { ttl := 9, id := 7 } }).toOption,
        r.2 = ⟨1, .leaseGrant { header := some (responseHeader .plain 1), id := 7, ttl := 9 }⟩ ∧
        DbLease.get r.1.store.tables.lease 7 = .ok ⟨7, 9, 0⟩ := by
  decide +kernel

end Turbokube
