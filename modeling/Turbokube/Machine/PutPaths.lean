import Turbokube.Lease.KeyIndex
import Turbokube.Machine.Runs
import Turbokube.Store.Rep

/-!
# A put alone and in a transaction

Both paths end in `cmdPut`, but only a plain put is checked before: that its lease exists,
and that it does not name a lease or send a value it asks to be ignored.  So the two paths
agree on a request exactly when it passes these checks, or when `cmdPut` turns it down
anyway.  `PutRequest.Blocked` says when that is.
-/

namespace Turbokube

open Encoding Lmdb DbKv

/-- The record stored for a revision, if it can be read. -/
def DbKv.storedKv (E : Env) (db : DbKv) (kr : Keyrev) : Option Kv :=
  match db.val.get kr.key with
  | none => none
  | some v =>
      match Kv.fromBytes E.codec {} kr.key v none false with
      | (kv, none) => some kv
      | (_, some _) => none

/-- What stands in the way of a put at revision `rev`: its key, or a live version of the key
that was written at the same revision, cannot be read, or is attached to a lease without an
entry in the index. -/
def PutRequest.Blocked (E : Env) (t : Tables) (rev : Nat) (req : PutRequest) : Prop :=
  req.key = [] ∨ limitKeyLength < req.key.length ∨
    ∃ kr ∈ t.kv.liveRec req.key, kr.rev ≠ .zero ∧
      ((kr.rev.upper = UInt64.ofNat rev ∧ !E.flags.txnMultiWriteEnabled) ∨
        t.kv.storedKv E kr.rev = none ∨
        ∃ prev ∈ t.kv.storedKv E kr.rev, req.ignoreLease = false ∧
          prev.lease.toInt64 ≠ req.lease ∧ 0 < prev.lease ∧
          t.leaseKey.get (DbLeaseKey.key prev.lease req.key) = none)

instance (E : Env) (t : Tables) (rev : Nat) (req : PutRequest) :
    Decidable (req.Blocked E t rev) := by
  unfold PutRequest.Blocked
  infer_instance

variable {E : Env} {t : Tables} {rev i : Nat} {epoch : UInt64} {req : PutRequest}

theorem putOver_eq {db : DbKv} {kr : Keyrecord} {lease : UInt64} {key val : Bytes}
    {ignoreValue ignoreLease : Bool} :
    (db.storedKv E kr.rev = none ∧
      ∃ e, db.putOver E rev i lease epoch key val ignoreValue ignoreLease kr = .error e) ∨
    ∃ prev, db.storedKv E kr.rev = some prev ∧ ∃ db' next patched,
      db.putOver E rev i lease epoch key val ignoreValue ignoreLease kr =
        .ok (db', prev, next, patched) := by
  rw [storedKv, putOver, Table.fetch]
  cases db.val.get kr.rev.key with
  | none => exact .inl ⟨rfl, _, rfl⟩
  | some v =>
      simp only
      cases hdecode : Kv.fromBytes E.codec {} kr.rev.key v none false with
      | mk kv err =>
          cases err with
          | some e => exact .inl ⟨rfl, e, rfl⟩
          | none => exact .inr ⟨kv, rfl, _, _, _, rfl⟩

/-- Moving a key to another lease fails when the old one has no entry. -/
theorem moveLease_error_iff {s : Table Bytes Bytes} {prevLease : UInt64} :
    (∃ e, moveLease s req prevLease = .error e) ↔
      req.ignoreLease = false ∧ prevLease.toInt64 ≠ req.lease ∧ 0 < prevLease ∧
        s.get (DbLeaseKey.key prevLease req.key) = none := by
  unfold moveLease
  by_cases hmove : req.ignoreLease = false ∧ prevLease.toInt64 ≠ req.lease
  · rw [if_pos (by simpa using hmove)]
    by_cases hpos : 0 < prevLease
    · rw [if_pos hpos]
      have hget : (if 0 < req.lease then DbLeaseKey.put s req.lease.toUInt64 req.key else s).get
          (DbLeaseKey.key prevLease req.key) = s.get (DbLeaseKey.key prevLease req.key) := by
        split
        · rw [DbLeaseKey.put, Table.get_put, if_neg]
          intro hkey
          apply hmove.2
          rw [(DbLeaseKey.key_inj hkey).1, Int64.toInt64_toUInt64]
        · rfl
      rw [DbLeaseKey.del, Table.remove, hget]
      cases s.get (DbLeaseKey.key prevLease req.key) with
      | none => exact ⟨fun _ => ⟨hmove.1, hmove.2, hpos, rfl⟩, fun _ => ⟨_, rfl⟩⟩
      | some v => simp
    · rw [if_neg hpos]
      simp [hpos]
  · rw [if_neg (by simpa using hmove)]
    constructor
    · rintro ⟨e, he⟩
      cases he
    · exact fun h => absurd ⟨h.1, h.2.1⟩ hmove

theorem put_cases {db : DbKv} (hok : db.RecsOk) {lease : UInt64} {key val : Bytes}
    {ignoreValue ignoreLease : Bool} (hkey : key ≠ []) (hlen : key.length ≤ limitKeyLength) :
    (∃ kr ∈ db.liveRec key, kr.rev ≠ .zero ∧
      db.put E rev i lease epoch key val ignoreValue ignoreLease =
        if kr.rev.upper = UInt64.ofNat rev ∧ !E.flags.txnMultiWriteEnabled then
          .error .grpcDuplicateKey
        else db.putOver E rev i lease epoch key val ignoreValue ignoreLease kr) ∨
    (∀ kr ∈ db.liveRec key, kr.rev = .zero) ∧ ∃ db' next,
      db.put E rev i lease epoch key val ignoreValue ignoreLease = .ok (db', {}, next, false) := by
  rw [put_eq hok hkey hlen]
  by_cases hfresh : ((db.records key).headD {}).rev = .zero ∨ ((db.records key).headD {}).rev.isdel
  · rw [if_pos hfresh]
    refine .inr ⟨fun kr hkr => ?_, _, _, rfl⟩
    obtain ⟨hhead, hdel⟩ := liveRec_eq_some_iff.mp hkr
    rw [List.headD_eq_head?_getD, hhead, Option.getD_some, hdel] at hfresh
    simpa using hfresh
  · rw [if_neg hfresh]
    left
    cases hrecs : db.records key with
    | nil =>
        rw [hrecs] at hfresh
        exact absurd (.inl rfl) hfresh
    | cons kr rest =>
        rw [hrecs, List.headD_cons, not_or, Bool.not_eq_true] at hfresh
        exact ⟨kr, liveRec_eq_some_iff.mpr ⟨by rw [hrecs]; rfl, hfresh.2⟩, hfresh.1, rfl⟩

theorem cmdPut_of_put {kv : DbKv} {prev next : Kv} {patched : Bool}
    (hput : t.kv.put E rev i req.lease.toUInt64 epoch req.key req.value req.ignoreValue
      req.ignoreLease = .ok (kv, prev, next, patched)) :
    (∃ e, cmdPut E t rev i epoch req = .error e) ↔
      ∃ e, moveLease t.leaseKey req prev.lease = .error e := by
  rw [cmdPut, hput]
  simp only
  cases moveLease t.leaseKey req prev.lease with
  | error e => exact ⟨fun _ => ⟨e, rfl⟩, fun _ => ⟨e, rfl⟩⟩
  | ok s => exact ⟨fun ⟨e, he⟩ => (by cases he), fun ⟨e, he⟩ => (by cases he)⟩

theorem cmdPut_error_iff (hok : t.kv.RecsOk) :
    (∃ e, cmdPut E t rev i epoch req = .error e) ↔ req.Blocked E t rev := by
  by_cases hkey : req.key = []
  · refine ⟨fun _ => .inl hkey, fun _ => ⟨.grpcEmptyKey, ?_⟩⟩
    rw [cmdPut, put, if_pos (by rw [hkey]; rfl)]
  by_cases hlen : limitKeyLength < req.key.length
  · refine ⟨fun _ => .inr (.inl hlen), fun _ => ⟨.grpcKeyTooLong, ?_⟩⟩
    rw [cmdPut, put, if_neg (fun h => hkey (List.length_eq_zero_iff.mp h)), if_pos hlen]
  have hblocked : req.Blocked E t rev ↔ ∃ kr ∈ t.kv.liveRec req.key, kr.rev ≠ .zero ∧
      ((kr.rev.upper = UInt64.ofNat rev ∧ !E.flags.txnMultiWriteEnabled) ∨
        t.kv.storedKv E kr.rev = none ∨
        ∃ prev ∈ t.kv.storedKv E kr.rev, req.ignoreLease = false ∧
          prev.lease.toInt64 ≠ req.lease ∧ 0 < prev.lease ∧
          t.leaseKey.get (DbLeaseKey.key prev.lease req.key) = none) := by
    rw [PutRequest.Blocked, or_iff_right hkey, or_iff_right hlen]
  rw [hblocked]
  rcases @put_cases E rev i epoch t.kv hok req.lease.toUInt64 req.key req.value req.ignoreValue
    req.ignoreLease hkey (Nat.not_lt.mp hlen) with
    ⟨kr, hkr, hzero, hput⟩ | ⟨hzero, kv, next, hput⟩
  · have hunique : ∀ kr' ∈ t.kv.liveRec req.key, kr' = kr := fun kr' hkr' =>
      Option.some.inj (hkr'.symm.trans hkr)
    by_cases hdup : kr.rev.upper = UInt64.ofNat rev ∧ !E.flags.txnMultiWriteEnabled
    · rw [if_pos hdup] at hput
      exact ⟨fun _ => ⟨kr, hkr, hzero, .inl hdup⟩,
        fun _ => ⟨.grpcDuplicateKey, by rw [cmdPut, hput]⟩⟩
    · rw [if_neg hdup] at hput
      rcases @putOver_eq E rev i epoch t.kv kr req.lease.toUInt64 req.key req.value req.ignoreValue
        req.ignoreLease with ⟨hnone, e, hover⟩ | ⟨prev, hprev, kv, next, patched, hover⟩
      · exact ⟨fun _ => ⟨kr, hkr, hzero, .inr (.inl hnone)⟩,
          fun _ => ⟨e, by rw [cmdPut, hput, hover]⟩⟩
      · rw [cmdPut_of_put (hput.trans hover), moveLease_error_iff]
        constructor
        · intro hmove
          exact ⟨kr, hkr, hzero, .inr (.inr ⟨prev, hprev, hmove⟩)⟩
        · rintro ⟨kr', hkr', -, hbad⟩
          obtain rfl := hunique kr' hkr'
          rcases hbad with hdup' | hnone | ⟨prev', hprev', hmove⟩
          · exact absurd hdup' hdup
          · rw [hnone] at hprev
            cases hprev
          · obtain rfl : prev' = prev := Option.some.inj (hprev'.symm.trans hprev)
            exact hmove
  · rw [cmdPut_of_put hput, moveLease_error_iff]
    constructor
    · intro hmove
      exact absurd hmove.2.2.1 (by decide)
    · rintro ⟨kr, hkr, hne, -⟩
      exact absurd (hzero kr hkr) hne

section Paths

variable {b : Batch} {ent ent' : Entry} {failure : List RequestOp}

/-- The two ways of a plain put through `cmdPut` when the checks pass. -/
theorem applyPut_of_accepted (haccept : req.Accepted b.store.tables.lease) :
    (∃ e, cmdPut E b.store.tables (b.newRev + 1) 0 b.epoch req = .error e ∧
      ∀ r x, applyPut E b ent req = .ok r → r.2.data ≠ .put x) ∨
    ∃ t res, cmdPut E b.store.tables (b.newRev + 1) 0 b.epoch req = .ok (t, res, [req.key]) ∧
      ∃ r x, applyPut E b ent req = .ok r ∧ r.2.data = .put x ∧
        r.1 = { b.setTables t with newRev := b.newRev + 1, keys := b.keys ++ [req.key] } := by
  have hlease : ¬ (req.ignoreLease = true ∧ req.lease ≠ 0) := fun hc => hc.2 (haccept.noLease hc.1)
  have hvalue : ¬ (req.ignoreValue = true ∧ req.value ≠ []) := fun hc => hc.2 (haccept.noValue hc.1)
  rw [applyPut, if_neg hlease, if_neg hvalue, haccept.known]
  simp only
  cases hput : cmdPut E b.store.tables (b.newRev + 1) 0 b.epoch req with
  | error e =>
      refine .inl ⟨e, rfl, fun r x hr => ?_⟩
      split at hr
      · obtain rfl := Except.ok.inj hr
        exact Data.noConfusion
      · obtain rfl := Except.ok.inj hr
        exact Data.noConfusion
      · cases hr
      · rename_i hok
        cases hok
  | ok out =>
      obtain ⟨t, res, affected⟩ := out
      obtain ⟨-, -, -, -, -, -, -, rfl⟩ := cmdPut_inv hput
      exact .inr ⟨t, res, rfl, _, _, rfl, rfl, rfl⟩

theorem applyPut_of_not_accepted
    (haccept : ¬ req.Accepted b.store.tables.lease) :
    ∀ r x, applyPut E b ent req = .ok r → r.2.data ≠ .put x := by
  intro r x hr
  rw [applyPut] at hr
  split at hr
  · obtain rfl := Except.ok.inj hr
    exact Data.noConfusion
  · rename_i hlease
    split at hr
    · obtain rfl := Except.ok.inj hr
      exact Data.noConfusion
    · rename_i hvalue
      split at hr
      · cases hr
      · obtain rfl := Except.ok.inj hr
        exact Data.noConfusion
      · rename_i hknown
        refine absurd ⟨fun hi => ?_, fun hi => ?_, hknown⟩ haccept
        · by_contra hne
          exact hlease ⟨hi, hne⟩
        · by_contra hne
          exact hvalue ⟨hi, hne⟩

/-- A transaction of one put is decided by `cmdPut` alone. -/
theorem applyTxn_of_put :
    (∃ e, cmdPut E b.store.tables (b.newRev + 1) 0 b.epoch req = .error e ∧
      ∀ r x, applyTxn E b ent ⟨[], [.put req], failure⟩ = .ok r → r.2.data ≠ .txn x) ∨
    ∃ t res, cmdPut E b.store.tables (b.newRev + 1) 0 b.epoch req = .ok (t, res, [req.key]) ∧
      ∃ r x, applyTxn E b ent ⟨[], [.put req], failure⟩ = .ok r ∧ r.2.data = .txn x ∧
        r.1 = { b.setTables t with newRev := b.newRev + 1, keys := b.keys ++ [req.key] } := by
  rw [applyTxn, txnCompare]
  simp only [if_true, txnOps, txnLoop]
  cases hput : cmdPut E b.store.tables (b.newRev + 1) 0 b.epoch req with
  | error e =>
      refine .inl ⟨e, rfl, fun r x hr => ?_⟩
      simp only at hr
      split at hr
      · obtain rfl := Except.ok.inj hr
        exact Data.noConfusion
      · obtain rfl := Except.ok.inj hr
        exact Data.noConfusion
      · obtain rfl := Except.ok.inj hr
        exact Data.noConfusion
      · cases hr
      · rename_i hnone
        cases hnone
  | ok out =>
      obtain ⟨t, res, affected⟩ := out
      obtain ⟨-, -, -, -, -, -, -, rfl⟩ := cmdPut_inv hput
      exact .inr ⟨t, res, rfl, _, _, rfl, rfl, rfl⟩

end Paths

/-- The put of `ent` and the transaction of `ent'` with nothing but this put do the same. -/
structure SamePut (E : Env) (b : Batch) (ent ent' : Entry) (req : PutRequest) : Prop where
  succeeds : (∃ r x, applyEntry E b ent = .ok r ∧ r.2.data = .put x) ↔
    ∃ r x, applyEntry E b ent' = .ok r ∧ r.2.data = .txn x
  batch : ∀ r x r' x', applyEntry E b ent = .ok r → r.2.data = .put x →
    applyEntry E b ent' = .ok r' → r'.2.data = .txn x' → r'.1 = r.1
  lease : ∀ r x, applyEntry E b ent' = .ok r → r.2.data = .txn x →
    leaseKnown b.store.tables.lease req.lease = .ok true
  value : ∀ r x, applyEntry E b ent' = .ok r → r.2.data = .txn x →
    req.ignoreValue = true → req.value = []

/-- A put in a transaction is the same as a plain put exactly when it passes the checks of
the plain one or cannot be done at all. -/
theorem samePut_iff {Q : Batch → Cmd → Prop} {b : Batch} (h : Reached E Q b) {ent ent' : Entry}
    {failure : List RequestOp} (hcmd : ent.cmd = .put req)
    (hcmd' : ent'.cmd = .txn ⟨[], [.put req], failure⟩) :
    SamePut E b ent ent' req ↔
      req.Accepted b.store.tables.lease ∨ req.Blocked E b.store.tables (b.newRev + 1) := by
  have hput : applyEntry E b ent = applyPut E b ent req := by rw [applyEntry, hcmd]
  have htxn : applyEntry E b ent' = applyTxn E b ent' ⟨[], [.put req], failure⟩ := by
    rw [applyEntry, hcmd']
  have hblocked := @cmdPut_error_iff E b.store.tables (b.newRev + 1) 0 b.epoch req h.recsOk
  rcases @applyTxn_of_put E req b ent' failure with ⟨e, he, hfail⟩ |
    ⟨t, res, hcmdPut, r, x, hr, hx, hr1⟩
  · -- the put cannot be done
    have hplain : ∀ r x, applyPut E b ent req = .ok r → r.2.data ≠ .put x := by
      by_cases haccept : req.Accepted b.store.tables.lease
      · rcases @applyPut_of_accepted E req b ent haccept with ⟨-, -, hno⟩ | ⟨t, res, hok, -⟩
        · exact hno
        · rw [he] at hok
          cases hok
      · exact applyPut_of_not_accepted haccept
    refine ⟨fun _ => .inr (hblocked.mp ⟨e, he⟩), fun _ => ?_⟩
    constructor
    case succeeds =>
      rw [hput, htxn]
      constructor
      · rintro ⟨r, x, hr, hx⟩
        exact absurd hx (hplain r x hr)
      · rintro ⟨r, x, hr, hx⟩
        exact absurd hx (hfail r x hr)
    case batch =>
      intro r x _ _ hr hx
      exact absurd hx (hplain r x (hput ▸ hr))
    case lease =>
      intro r x hr hx
      exact absurd hx (hfail r x (htxn ▸ hr))
    case value =>
      intro r x hr hx
      exact absurd hx (hfail r x (htxn ▸ hr))
  · have hnot : ¬ req.Blocked E b.store.tables (b.newRev + 1) := by
      rw [← hblocked, hcmdPut]
      rintro ⟨e, he⟩
      cases he
    rw [or_iff_left hnot]
    constructor
    · intro hsame
      obtain ⟨r₁, x₁, hr₁, hx₁⟩ := hsame.succeeds.mpr ⟨r, x, htxn.trans hr, hx⟩
      by_contra haccept
      exact applyPut_of_not_accepted haccept r₁ x₁ (hput ▸ hr₁) hx₁
    · intro haccept
      rcases @applyPut_of_accepted E req b ent haccept with ⟨e, he, -⟩ |
        ⟨t', res', hcmdPut', r', x', hr', hx', hr1'⟩
      · rw [hcmdPut] at he
        cases he
      · obtain rfl : t = t' := by
          rw [hcmdPut] at hcmdPut'
          exact (Prod.mk.inj (Except.ok.inj hcmdPut')).1
        constructor
        case succeeds =>
          exact ⟨fun _ => ⟨r, x, htxn.trans hr, hx⟩, fun _ => ⟨r', x', hput.trans hr', hx'⟩⟩
        case batch =>
          intro r₁ _ r₂ _ hr₁ _ hr₂ _
          rw [hput, hr'] at hr₁
          rw [htxn, hr] at hr₂
          rw [← Except.ok.inj hr₁, ← Except.ok.inj hr₂, hr1, hr1']
        case lease => exact fun _ _ _ _ => haccept.known
        case value => exact fun _ _ _ _ => haccept.noValue

/-- A live key that the put moves from one lease to another. -/
theorem samePut_moves_lease :
    ∃ s ∈ storeAfter [[.leaseGrant { ttl := 60, id := 7 }, .leaseGrant { ttl := 60, id := 9 },
        .put { key := [97], value := [1], lease := 7 }]],
      (s.tables.kv.liveRec [97]).isSome ∧
      s.tables.leaseKey.get (DbLeaseKey.key 7 [97]) ≠ none ∧
      (∃ r ∈ (applyEntry .plain (.start s)
          { index := 2, cmd := .put { key := [97], value := [2], lease := 9 } }).toOption,
        r.1.store.tables.leaseKey.get (DbLeaseKey.key 7 [97]) = none ∧
        r.1.store.tables.leaseKey.get (DbLeaseKey.key 9 [97]) ≠ none) ∧
      SamePut .plain (.start s)
        { index := 2, cmd := .put { key := [97], value := [2], lease := 9 } }
        { index := 2, cmd := .txn { success := [.put { key := [97], value := [2], lease := 9 }] } }
        { key := [97], value := [2], lease := 9 } := by
  refine ⟨_, Option.get_mem (by decide +kernel), by decide +kernel, by decide +kernel,
    by decide +kernel, (samePut_iff (Q := fun _ _ => True) (reached_of_storeAfter
      (by decide +kernel) (Option.get_mem _)) rfl rfl).mpr (.inl ⟨by decide, by decide, ?_⟩)⟩
  decide +kernel

/-- A put that names a lease nobody granted is turned down alone and done in a
transaction. -/
theorem txn_put_takes_unknown_lease :
    ¬ SamePut .plain (.start .init)
      { index := 1, cmd := .put { key := [97], value := [1], lease := 9 } }
      { index := 1, cmd := .txn { success := [.put { key := [97], value := [1], lease := 9 }] } }
      { key := [97], value := [1], lease := 9 } := by
  intro hsame
  exact absurd (hsame.lease _ _ rfl rfl) (by decide +kernel)

end Turbokube
