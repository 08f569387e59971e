import Turbokube.Lease.Sweeping
import Turbokube.Machine.Leases

/-!
# A tick misses nothing

A tick walks the index of deadlines, which its own revocations shrink.  Every lease has
the entry of its deadline in the index, so a lease that is due is met, or was revoked
through the entry of an earlier deadline before the walk came to it.

The id 0 is the exception.  Revoking reads it as "no such lease", and the cursor of
generated ids would pass it when it wraps around, after 2^64 grants.
-/

namespace Turbokube

open Encoding Lmdb DbKv

variable {t t' t'' : Tables} {m m' m'' : UInt64 → Option Lease} {epoch id : UInt64}

/-- The index has no entry of the lease that is due. -/
def NoneDue (epoch : UInt64) (t : Tables) (id : UInt64) : Prop :=
  ∀ l : Lease, l.id = id → l.expires ≤ epoch → t.leaseExp.get (DbLeaseExp.key l) = none

/-- What any number of revocations may do. -/
structure Revokes (epoch : UInt64) (t t' : Tables) (m m' : UInt64 → Option Lease) : Prop where
  lease : ∀ id, m' id = m id ∨ m' id = none ∧ ∀ k, t'.leaseKey.get (DbLeaseKey.key id k) = none
  zero : m' 0 = m 0
  keys : ∀ rk v, t'.leaseKey.get rk = some v → t.leaseKey.get rk = some v
  entry : ∀ l : Lease, t'.leaseExp.get (DbLeaseExp.key l) = t.leaseExp.get (DbLeaseExp.key l) ∨
    t'.leaseExp.get (DbLeaseExp.key l) = none ∧ m' l.id = none
  kept : ∀ id, NoneDue epoch t id → m' id = m id ∧
    (∀ l : Lease, l.id = id →
      t'.leaseExp.get (DbLeaseExp.key l) = t.leaseExp.get (DbLeaseExp.key l)) ∧
    ∀ k, t'.leaseKey.get (DbLeaseKey.key id k) = t.leaseKey.get (DbLeaseKey.key id k)

namespace Revokes

theorem refl (epoch : UInt64) (t : Tables) (m : UInt64 → Option Lease) : Revokes epoch t t m m where
  lease _ := .inl rfl
  zero := rfl
  keys _ _ h := h
  entry _ := .inl rfl
  kept _ _ := ⟨rfl, fun _ _ => rfl, fun _ => rfl⟩

theorem none_of_none (h : Revokes epoch t t' m m') (hid : m id = none) : m' id = none := by
  rcases h.lease id with heq | ⟨hnone, -⟩
  · rw [heq, hid]
  · exact hnone

theorem noneDue (h : Revokes epoch t t' m m') (hid : NoneDue epoch t id) : NoneDue epoch t' id := by
  intro l hl hdue
  rw [(h.kept id hid).2.1 l hl]
  exact hid l hl hdue

theorem trans (h : Revokes epoch t t' m m') (h' : Revokes epoch t' t'' m' m'') :
    Revokes epoch t t'' m m'' where
  lease id := by
    rcases h'.lease id with heq' | hgone
    · rcases h.lease id with heq | ⟨hnone, hkeys⟩
      · exact .inl (heq'.trans heq)
      · refine .inr ⟨heq'.trans hnone, fun k => ?_⟩
        by_contra hsome
        obtain ⟨v, hv⟩ := Option.ne_none_iff_exists'.mp hsome
        have hold := h'.keys _ v hv
        rw [hkeys k] at hold
        cases hold
    · exact .inr hgone
  zero := h'.zero.trans h.zero
  keys rk v hget := h.keys rk v (h'.keys rk v hget)
  entry l := by
    rcases h'.entry l with heq' | hgone
    · rcases h.entry l with heq | ⟨hnone, hm⟩
      · exact .inl (heq'.trans heq)
      · exact .inr ⟨heq'.trans hnone, h'.none_of_none hm⟩
    · exact .inr hgone
  kept id hid := by
    obtain ⟨hm, hexp, hkeys⟩ := h.kept id hid
    obtain ⟨hm', hexp', hkeys'⟩ := h'.kept id (h.noneDue hid)
    exact ⟨hm'.trans hm, fun l hl => (hexp' l hl).trans (hexp l hl),
      fun k => (hkeys' k).trans (hkeys k)⟩

end Revokes

theorem get_of_leaseExp_del {s s' : Table Bytes Bytes} {l : Lease}
    (h : DbLeaseExp.del s l = .ok s') : s' = s.del (DbLeaseExp.key l) := by
  unfold DbLeaseExp.del Table.remove at h
  split at h
  · cases h
  · rename_i hremove
    split at hremove
    · cases hremove
    · obtain rfl := Except.ok.inj h
      exact (Except.ok.inj hremove).symm

/-- A revocation succeeds, and then the lease is gone. -/
theorem Sweepable.revoke (h : Sweepable t) (ht : LeaseTables t m) (rev : Nat) (epoch id : UInt64) :
    ∃ t' keys val m', cmdLeaseRevoke t rev epoch id = .ok (t', keys, val) ∧ Sweepable t' ∧
      LeaseTables t' m' ∧ (¬ NoneDue epoch t id → Revokes epoch t t' m m') ∧
      (id ≠ 0 → m' id = none) := by
  rw [cmdLeaseRevoke, ht.lease.dbGet]
  cases hm : m id with
  | none => exact ⟨t, [], codeNotFound, m, rfl, h, ht, fun _ => .refl epoch t m, fun _ => hm⟩
  | some x =>
      have hxid := ht.lease.id id x hm
      simp only [Option.getD_some, hxid]
      by_cases hid : id = 0
      · rw [if_pos hid]
        exact ⟨t, [], codeNotFound, m, rfl, h, ht, fun _ => .refl epoch t m,
          fun hne => absurd hid hne⟩
      · rw [if_neg hid]
        obtain ⟨t₁, keys, hkeys, h₁, hgone⟩ := @Sweepable.revokeKeys t rev epoch id _ [] h
          (Nat.lt_succ_self t.leaseKey.entries.length)
        obtain ⟨hlease, hexp, hframe⟩ := revokeKeys_frame hkeys
        obtain ⟨lease, leaseExp, hdel, hdelExp, h₂, -⟩ := (ht.congr hlease hexp).del hm
        obtain rfl := get_of_leaseExp_del hdelExp
        simp only [hkeys, hdelExp, hdel]
        refine ⟨_, keys, 1, _, rfl, h₁.congr rfl rfl, h₂, fun hdue => ?_,
          fun _ => Function.update_self _ _ _⟩
        have hother : ∀ x' : Lease, x'.id ≠ id →
            (t₁.leaseExp.del (DbLeaseExp.key x)).get (DbLeaseExp.key x') =
              t.leaseExp.get (DbLeaseExp.key x') := by
          intro x' hne
          rw [Table.get_del, hexp, if_neg (fun heq => hne ?_)]
          exact (DbLeaseExp.key_inj heq).2.trans hxid
        constructor
        case lease =>
          intro id'
          by_cases hid' : id' = id
          · rw [hid', Function.update_self]
            exact .inr ⟨rfl, hgone⟩
          · exact .inl (Function.update_of_ne hid' _ _)
        case zero => exact Function.update_of_ne (fun hzero => hid hzero.symm) _ _
        case keys =>
          intro rk v hget
          obtain ⟨⟨id', k, hrk⟩, -⟩ := h₁.indexed rk v hget
          by_cases hid' : id' = id
          · simp only [hrk, hid', hgone k] at hget
            cases hget
          · rw [hrk, ← hframe id' hid' k, ← hrk]
            exact hget
        case entry =>
          intro x'
          by_cases hid' : x'.id = id
          · simp only [hid', Function.update_self, and_true]
            rw [Table.get_del, hexp]
            split
            · exact .inr rfl
            · exact .inl rfl
          · exact .inl (hother x' hid')
        case kept =>
          intro id' hnone
          have hid' : id' ≠ id := fun heq => hdue (heq ▸ hnone)
          exact ⟨Function.update_of_ne hid' _ _, fun x' hx' => hother x' (hx' ▸ hid'),
            hframe id' hid'⟩

/-- The index is in the order of the deadlines. -/
theorem DbLeaseExp.expires_le_of_key_lt {a b : Lease}
    (h : DbLeaseExp.key a < DbLeaseExp.key b) : a.expires ≤ b.expires := by
  by_contra hlt
  rw [UInt64.not_le] at hlt
  exact lt_asymm h (append_lt_append_of_lt (by simp) (putUint64_lt_iff.mpr hlt) _ _)

/-- The loop of a tick ends, and it revokes the lease of every due entry it was given. -/
theorem Sweepable.expireLoop {l : List (Bytes × Bytes)} (newRev : Nat) (keys : List Bytes)
    (hl : ∀ p ∈ l, ∃ x : Lease, p.1 = DbLeaseExp.key x ∧ p.2 = withChecksum p.1 [])
    (hsorted : l.Pairwise (fun p q => p.1 < q.1)) (h : Sweepable t) (ht : LeaseTables t m) :
    ∃ t' newRev' keys' m', Turbokube.expireLoop epoch l t newRev keys = .ok (t', newRev', keys') ∧
      Sweepable t' ∧ LeaseTables t' m' ∧ Revokes epoch t t' m m' ∧
      ∀ p ∈ l, ∀ x : Lease, p.1 = DbLeaseExp.key x → x.expires ≤ epoch → x.id ≠ 0 →
        t.leaseExp.get p.1 ≠ none → m' x.id = none := by
  induction l generalizing t m newRev keys with
  | nil => exact ⟨t, newRev, keys, m, rfl, h, ht, .refl epoch t m, fun p hp => (by cases hp)⟩
  | cons p rest ih =>
      obtain ⟨k, v⟩ := p
      obtain ⟨y, hk, hv⟩ := hl (k, v) List.mem_cons_self
      obtain ⟨hlater, hsorted⟩ := List.pairwise_cons.mp hsorted
      have hrest := fun p hp => hl p (List.mem_cons_of_mem _ hp)
      simp only at hk hv
      rw [Turbokube.expireLoop]
      by_cases hget : t.leaseExp.get k = none
      · rw [if_pos hget]
        obtain ⟨t', newRev', keys', m', hloop, h', ht', hrevokes, hdue⟩ :=
          ih newRev keys hrest hsorted h ht
        refine ⟨t', newRev', keys', m', hloop, h', ht', hrevokes, fun p hp x hx hle hid hin => ?_⟩
        rcases List.mem_cons.mp hp with rfl | hp
        · exact absurd hget hin
        · exact hdue p hp x hx hle hid hin
      · rw [if_neg hget, hv, hk, DbLeaseExp.due_key]
        by_cases hnot : epoch < y.expires
        · rw [if_pos hnot]
          refine ⟨t, newRev, keys, m, rfl, h, ht, .refl epoch t m, fun p hp x hx hle => ?_⟩
          -- every entry from here on is due later
          have hyx : y.expires ≤ x.expires := by
            rcases List.mem_cons.mp hp with rfl | hp
            · rw [(DbLeaseExp.key_inj hx).1]
              exact UInt64.le_refl _
            · refine DbLeaseExp.expires_le_of_key_lt ?_
              rw [← hk, ← hx]
              exact hlater p hp
          exact absurd hnot (UInt64.not_lt.mpr (UInt64.le_trans hyx hle))
        · rw [if_neg hnot]
          rw [hk] at hget
          obtain ⟨t₁, affected, val, m₁, hrevoke, h₁, ht₁, hrevokes₁, hgone⟩ :=
            h.revoke ht (newRev + 1) epoch y.id
          have hdue₁ : ¬ NoneDue epoch t y.id := fun hnone =>
            hget (hnone y rfl (UInt64.not_lt.mp hnot))
          simp only [hrevoke]
          have hgo : ∀ newRev₁ keys₁, ∃ t' newRev' keys' m',
              Turbokube.expireLoop epoch rest t₁ newRev₁ keys₁ = .ok (t', newRev', keys') ∧
              Sweepable t' ∧ LeaseTables t' m' ∧ Revokes epoch t t' m m' ∧
              ∀ p ∈ (DbLeaseExp.key y, withChecksum (DbLeaseExp.key y) []) :: rest, ∀ x : Lease,
                p.1 = DbLeaseExp.key x → x.expires ≤ epoch → x.id ≠ 0 →
                t.leaseExp.get p.1 ≠ none → m' x.id = none := by
            intro newRev₁ keys₁
            obtain ⟨t', newRev', keys', m', hloop, h', ht', hrevokes, hdue⟩ :=
              ih newRev₁ keys₁ hrest hsorted h₁ ht₁
            refine ⟨t', newRev', keys', m', hloop, h', ht', (hrevokes₁ hdue₁).trans hrevokes,
              fun p hp x hx hle hid hin => ?_⟩
            rcases List.mem_cons.mp hp with rfl | hp
            · rw [← (DbLeaseExp.key_inj hx).2] at hid ⊢
              exact hrevokes.none_of_none (hgone hid)
            · rw [hx] at hin
              rcases (hrevokes₁ hdue₁).entry x with heq | ⟨-, hnone⟩
              · exact hdue p hp x hx hle hid (by rw [hx, heq]; exact hin)
              · exact hrevokes.none_of_none hnone
          split
          · exact hgo _ _
          · exact hgo _ _

theorem LeaseTables.entries (ht : LeaseTables t m) :
    ∀ p ∈ t.leaseExp.entries, ∃ x : Lease, p.1 = DbLeaseExp.key x ∧ p.2 = withChecksum p.1 [] :=
  fun p hp => ht.entry p.1 p.2 (Table.get_eq_some_iff.mpr hp)

/-- Whatever is asked for, attached keys keep a record. -/
theorem Effect.sweepable {E : Env} {b b' : Batch} {cmd : Cmd}
    (ht : LeaseTables b.store.tables m) (h : Sweepable b.store.tables)
    (heff : Effect E b cmd b') : Sweepable b'.store.tables := by
  cases heff with
  | keep => exact h
  | put _ hput => exact h.put hput
  | deleteRange hdel => exact h.deleteRange hdel
  | compact hcompact =>
      exact h.of_subset ((compact_shrunk hcompact).recsOk h.recs) (h.anchored.compact hcompact)
        (fun _ _ hk => compact_reaches h.anchored hcompact hk) (fun _ _ hget => hget)
  | txn _ htxn =>
      refine (txnRun_of_txnOps htxn).keeps (fun hop ht => ?_) h
      cases hop with
      | put hput => exact ht.put hput
      | deleteRange hdel => exact ht.deleteRange hdel
      | _ => exact ht
  | txnFailed _ _ _ => exact h
  | leaseGrant hgrant =>
      obtain ⟨hkv, hkey⟩ := leaseGrant_kv hgrant
      exact h.congr hkv hkey
  | leaseRevoke hrevoke =>
      obtain ⟨t₁, _, _, _, heq, h₁, -⟩ := h.revoke ht _ _ _
      obtain ⟨rfl, -⟩ := Prod.mk.inj (Except.ok.inj (heq.symm.trans hrevoke))
      exact h₁
  | leaseKeepAlive halive =>
      obtain ⟨hkv, hkey⟩ := keepAlive_kv halive
      exact h.congr hkv hkey
  | leaseKeepAliveBatch halive =>
      obtain ⟨hkv, hkey⟩ := keepAliveBatch_kv halive
      exact h.congr hkv hkey
  | tick _ hloop =>
      obtain ⟨t₁, _, _, _, heq, h₁, -⟩ := h.expireLoop _ _ ht.entries (Table.sorted _) ht
      obtain ⟨rfl, -⟩ := Prod.mk.inj (Except.ok.inj (heq.symm.trans hloop))
      exact h₁
  | term _ => exact h

theorem Reached.sweepable {E : Env} {Q : Batch → Cmd → Prop} {b : Batch} (h : Reached E Q b) :
    (∃ m, LeaseTables b.store.tables m) ∧ Sweepable b.store.tables :=
  h.inv (I := fun t _ _ => (∃ m, LeaseTables t m) ∧ Sweepable t) ⟨⟨_, .empty⟩, .empty⟩
    (fun ⟨⟨m, ht⟩, hs⟩ _ heff => ⟨heff.leaseTables ⟨m, ht⟩, heff.sweepable ht hs⟩)

/-- What is asked of a tick that advances the epoch. -/
structure MissesNothing (epoch : UInt64) (t t' : Tables) : Prop where
  later : ∀ p ∈ t'.lease.entries, ∃ l, Lease.fromBytes p.1 p.2 = .ok l ∧ epoch < l.expires
  swept : ∀ id, t.lease.get (putUvarint id) ≠ none → t'.lease.get (putUvarint id) = none →
    ∀ k, t'.leaseKey.get (DbLeaseKey.key id k) = none
  kept : ∀ id, NoneDue epoch t id →
    t'.lease.get (putUvarint id) = t.lease.get (putUvarint id) ∧
    (∀ l : Lease, l.id = id →
      t'.leaseExp.get (DbLeaseExp.key l) = t.leaseExp.get (DbLeaseExp.key l)) ∧
    ∀ k, t'.leaseKey.get (DbLeaseKey.key id k) = t.leaseKey.get (DbLeaseKey.key id k)

/-- The cursor of generated ids has wrapped around, and the lease it found there is due at
the next epoch. -/
def Batch.ZeroDue (b : Batch) : Prop :=
  ∃ v ∈ b.store.tables.lease.get (putUvarint 0), ∃ l ∈ (Lease.fromBytes (putUvarint 0) v).toOption,
    l.expires ≤ b.epoch + 1

instance (b : Batch) : Decidable b.ZeroDue := by
  unfold Batch.ZeroDue
  infer_instance

theorem Leases.get_eq_some_iff {s : Table Bytes Bytes} (h : Leases s m) {rk v : Bytes} :
    s.get rk = some v ↔ ∃ id l, m id = some l ∧ rk = putUvarint id ∧ v = l.bytes := by
  constructor
  · intro hget
    obtain ⟨id, rfl⟩ := h.key rk v hget
    rw [h.get, Option.map_eq_some_iff] at hget
    obtain ⟨l, hl, rfl⟩ := hget
    exact ⟨id, l, hl, rfl, rfl⟩
  · rintro ⟨id, l, hl, rfl, rfl⟩
    rw [h.get, hl]
    rfl

theorem LeaseTables.zeroDue_iff {b : Batch} (ht : LeaseTables b.store.tables m) :
    b.ZeroDue ↔ ∃ l ∈ m 0, l.expires ≤ b.epoch + 1 := by
  constructor
  · rintro ⟨v, hv, l, hl, hdue⟩
    obtain ⟨id, x, hx, hid, rfl⟩ := ht.lease.get_eq_some_iff.mp hv
    obtain rfl := putUvarint_inj hid
    rw [← ht.lease.id 0 x hx, x.fromBytes_bytes] at hl
    obtain rfl := Option.some.inj hl
    exact ⟨x, hx, hdue⟩
  · rintro ⟨l, hl, hdue⟩
    have hlid := ht.lease.id 0 l hl
    refine ⟨l.bytes, ht.lease.get_eq_some_iff.mpr ⟨0, l, hl, rfl, rfl⟩, l, ?_, hdue⟩
    rw [← hlid, l.fromBytes_bytes]
    rfl

/-- A tick that is not refused is applied, whatever the state. -/
theorem LeaseTables.tick {E : Env} {b : Batch} (ht : LeaseTables b.store.tables m)
    (hs : Sweepable b.store.tables) {ent : Entry} {term : UInt64} (hcmd : ent.cmd = .tick term)
    (hterm : b.store.dbMeta.term ≤ term) :
    ∃ b' res m', applyEntry E b ent = .ok (b', res) ∧ b'.epoch = b.epoch + 1 ∧
      LeaseTables b'.store.tables m' ∧
      Revokes (b.epoch + 1) b.store.tables b'.store.tables m m' ∧
      ∀ id, ∀ l ∈ m id, id ≠ 0 → l.expires ≤ b.epoch + 1 → m' id = none := by
  obtain ⟨t', newRev', keys', m', hloop, -, ht', hrevokes, hdue⟩ :=
    @Sweepable.expireLoop _ m (b.epoch + 1) _ b.newRev b.keys ht.entries (Table.sorted _) hs ht
  obtain ⟨b', res, happly, hepoch, rfl⟩ : ∃ b' res, applyEntry E b ent = .ok (b', res) ∧
      b'.epoch = b.epoch + 1 ∧ b'.store.tables = t' := by
    rw [applyEntry, hcmd]
    simp only [applyTick, if_neg (UInt64.not_lt.mpr hterm), hloop]
    exact ⟨_, _, rfl, rfl, rfl⟩
  refine ⟨b', res, m', happly, hepoch, ht', hrevokes, fun id l hl hid hle => ?_⟩
  have hlid := ht.lease.id id l hl
  obtain ⟨v, hv⟩ := Option.isSome_iff_exists.mp (ht.indexed id l hl)
  have hgone := hdue (DbLeaseExp.key l, v) (Table.get_eq_some_iff.mp hv) l rfl hle
    (by rw [hlid]; exact hid) (by rw [hv]; simp)
  rw [← hlid]
  exact hgone

theorem Revokes.missesNothing_iff (ht : LeaseTables t m) (ht' : LeaseTables t' m')
    (h : Revokes epoch t t' m m')
    (hdue : ∀ id, ∀ l ∈ m id, id ≠ 0 → l.expires ≤ epoch → m' id = none) :
    MissesNothing epoch t t' ↔ ¬ ∃ l ∈ m 0, l.expires ≤ epoch := by
  constructor
  · rintro hmiss ⟨l, hl, hle⟩
    have hl' : m' 0 = some l := h.zero.trans hl
    have hget := ht'.lease.get_eq_some_iff.mpr ⟨0, l, hl', rfl, rfl⟩
    obtain ⟨x, hx, hlater⟩ := hmiss.later _ (Table.get_eq_some_iff.mp hget)
    simp only [← ht'.lease.id 0 l hl', l.fromBytes_bytes, Except.ok.injEq] at hx
    rw [hx] at hle
    exact absurd hlater (UInt64.not_lt.mpr hle)
  · intro hzero
    constructor
    case later =>
      intro p hp
      obtain ⟨id, l, hl, hrk, hv⟩ :=
        ht'.lease.get_eq_some_iff.mp (Table.get_eq_some_iff.mpr hp)
      refine ⟨l, by rw [hrk, hv, ← ht'.lease.id id l hl, l.fromBytes_bytes], ?_⟩
      by_contra hle
      rw [UInt64.not_lt] at hle
      have hold : m id = some l := by
        rcases h.lease id with heq | ⟨hnone, -⟩
        · exact heq ▸ hl
        · rw [hnone] at hl
          cases hl
      by_cases hid : id = 0
      · exact hzero ⟨l, hid ▸ hold, hle⟩
      · rw [hdue id l hold hid hle] at hl
        cases hl
    case swept =>
      intro id hin hout k
      rw [ht.lease.get] at hin
      rw [ht'.lease.get, Option.map_eq_none_iff] at hout
      rcases h.lease id with heq | ⟨-, hkeys⟩
      · rw [← heq, hout] at hin
        exact absurd rfl hin
      · exact hkeys k
    case kept =>
      intro id hnone
      obtain ⟨hm, hexp, hkeys⟩ := h.kept id hnone
      refine ⟨?_, hexp, hkeys⟩
      rw [ht'.lease.get, ht.lease.get, hm]

/-- In every reached state, a tick that is not refused ends and misses nothing, unless a lease
with the id 0 is due. -/
theorem tick_missesNothing_iff {E : Env} {Q : Batch → Cmd → Prop} {b : Batch} (h : Reached E Q b)
    {ent : Entry} {term : UInt64} (hcmd : ent.cmd = .tick term)
    (hterm : b.store.dbMeta.term ≤ term) :
    (∃ b' res, applyEntry E b ent = .ok (b', res) ∧ b'.epoch = b.epoch + 1 ∧
      MissesNothing (b.epoch + 1) b.store.tables b'.store.tables) ↔ ¬ b.ZeroDue := by
  obtain ⟨⟨m, ht⟩, hs⟩ := h.sweepable
  obtain ⟨b', res, m', happly, hepoch, ht', hrevokes, hdue⟩ := ht.tick (E := E) hs hcmd hterm
  rw [ht.zeroDue_iff, ← hrevokes.missesNothing_iff ht ht' hdue]
  constructor
  · rintro ⟨b₁, res₁, happly₁, -, hmiss⟩
    obtain ⟨rfl, -⟩ := Prod.mk.inj (Except.ok.inj (happly.symm.trans happly₁))
    exact hmiss
  · exact fun hmiss => ⟨b', res, happly, hepoch, hmiss⟩

section Wrap

/-- A grant without an id takes the one after the cursor when it is free. -/
theorem cmdLeaseGrant_next (ht : LeaseTables t m) {leaseID : UInt64}
    (hfree : m (leaseID + 1) = none) :
    cmdLeaseGrant t leaseID epoch { ttl := 1 } =
      .ok ({ t with
          lease := DbLease.put t.lease ⟨leaseID + 1, epoch + 1, epoch⟩
          leaseExp := DbLeaseExp.put t.leaseExp ⟨leaseID + 1, epoch + 1, epoch⟩ },
        leaseID + 1, { id := (leaseID + 1).toInt64, ttl := 1 }, 1) := by
  have hitem : grantItem t.lease leaseID { ttl := 1 } =
      .ok ({ id := leaseID + 1 }, leaseID + 1) := by
    rw [grantItem, if_pos (by decide), freeLeaseID, ht.lease.dbGet, hfree]
    rfl
  rw [cmdLeaseGrant, hitem]
  rfl

/-- One more grant without an id. -/
theorem Reached.grant_next {Q : Batch → Cmd → Prop} {b : Batch} (h : Reached .plain Q b)
    (hQ : Q b (.leaseGrant { ttl := 1 })) (ht : LeaseTables b.store.tables m)
    (hfree : m (b.store.dbMeta.leaseID + 1) = none) :
    ∃ b', Reached .plain Q b' ∧ b'.epoch = b.epoch ∧ b'.store.dbMeta.term = b.store.dbMeta.term ∧
      b'.store.dbMeta.leaseID = b.store.dbMeta.leaseID + 1 ∧
      LeaseTables b'.store.tables (Function.update m (b.store.dbMeta.leaseID + 1)
        (some ⟨b.store.dbMeta.leaseID + 1, b.epoch + 1, b.epoch⟩)) := by
  have happly : ∃ b' res, applyEntry .plain b { index := 1, cmd := .leaseGrant { ttl := 1 } } =
      .ok (b', res) ∧ b'.epoch = b.epoch ∧ b'.store.dbMeta.term = b.store.dbMeta.term ∧
      b'.store.dbMeta.leaseID = b.store.dbMeta.leaseID + 1 ∧
      LeaseTables b'.store.tables (Function.update m (b.store.dbMeta.leaseID + 1)
        (some ⟨b.store.dbMeta.leaseID + 1, b.epoch + 1, b.epoch⟩)) := by
    simp only [applyEntry, applyLeaseGrant, cmdLeaseGrant_next ht hfree]
    exact ⟨_, _, rfl, rfl, rfl, rfl, ht.put _⟩
  obtain ⟨b', res, happly, hrest⟩ := happly
  exact ⟨b', h.entry hQ happly, hrest⟩

/-- After `n` grants without an id the cursor is at `n`. -/
theorem reached_grants {n : Nat} (hn : n < 2 ^ 64) :
    ∃ b m, Reached .plain (fun _ _ => True) b ∧ LeaseTables b.store.tables m ∧ b.epoch = 0 ∧
      b.store.dbMeta.term = 0 ∧ b.store.dbMeta.leaseID = UInt64.ofNat n ∧
      ∀ id, m id ≠ none → 0 < id.toNat ∧ id.toNat ≤ n := by
  induction n with
  | zero => exact ⟨_, _, .init, .empty, rfl, rfl, rfl, fun _ hid => absurd rfl hid⟩
  | succ n ih =>
      obtain ⟨b, m, h, ht, hepoch, hterm, hcursor, hids⟩ := ih (by omega)
      have hnext : b.store.dbMeta.leaseID + 1 = UInt64.ofNat (n + 1) := by
        rw [hcursor, UInt64.ofNat_add]
        rfl
      have hnat : (UInt64.ofNat (n + 1)).toNat = n + 1 := by
        rw [UInt64.toNat_ofNat', Nat.mod_eq_of_lt hn]
      have hfree : m (b.store.dbMeta.leaseID + 1) = none := by
        by_contra hsome
        have hle := (hids _ hsome).2
        rw [hnext, hnat] at hle
        omega
      obtain ⟨b', h', hepoch', hterm', hcursor', ht'⟩ := h.grant_next trivial ht hfree
      refine ⟨b', _, h', ht', hepoch'.trans hepoch, hterm'.trans hterm, hcursor'.trans hnext,
        fun id hid => ?_⟩
      by_cases heq : id = b.store.dbMeta.leaseID + 1
      · rw [heq, hnext, hnat]
        omega
      · rw [Function.update_of_ne heq] at hid
        have := hids id hid
        omega

/-- The grant after 2^64 - 1 others without an id hands out the id 0, and the tick that
reaches its deadline leaves the lease in the table. -/
theorem tick_misses_lease_zero :
    ∃ b, Reached .plain (fun _ _ => True) b ∧ b.store.dbMeta.term ≤ 0 ∧
      ∃ b' res, applyEntry .plain b { index := 1, cmd := .tick 0 } = .ok (b', res) ∧
        b'.epoch = b.epoch + 1 ∧ ∃ p ∈ b'.store.tables.lease.entries, ∃ l,
          Lease.fromBytes p.1 p.2 = .ok l ∧ l.expires ≤ b'.epoch := by
  obtain ⟨b, m, h, ht, -, hterm, hcursor, hids⟩ := @reached_grants (2 ^ 64 - 1) (by decide)
  have hnext : b.store.dbMeta.leaseID + 1 = 0 := by
    rw [hcursor]
    decide
  have hfree : m (b.store.dbMeta.leaseID + 1) = none := by
    by_contra hsome
    have hpos := (hids _ hsome).1
    rw [hnext] at hpos
    exact absurd hpos (by decide)
  obtain ⟨b₀, h₀, hepoch₀, hterm₀, -, ht₀⟩ := h.grant_next trivial ht hfree
  have hle : b₀.store.dbMeta.term ≤ 0 := by
    rw [hterm₀, hterm]
    exact UInt64.le_refl _
  obtain ⟨b', res, m', happly, hepoch, ht', hrevokes, -⟩ :=
    @LeaseTables.tick _ .plain b₀ ht₀ h₀.sweepable.2 { index := 1, cmd := .tick 0 } 0 rfl hle
  rw [hnext] at ht₀ hrevokes
  have hzero := hrevokes.zero
  rw [Function.update_self] at hzero
  refine ⟨b₀, h₀, hle, b', res, happly, hepoch, _, Table.get_eq_some_iff.mp
    (ht'.lease.get_eq_some_iff.mpr ⟨0, _, hzero, rfl, rfl⟩), _, Lease.fromBytes_bytes _, ?_⟩
  rw [hepoch, hepoch₀]
  exact UInt64.le_refl _

end Wrap

end Turbokube
