import Turbokube.Machine.Histories
import Turbokube.Machine.PutPaths
import Turbokube.Machine.TxnReject
import Turbokube.Store.Failures

/-!
# Duplicate keys in a transaction

A put and a range deletion compare the newest record of a key with the revision of the
transaction, which tells whether an operation before them wrote the key.  They do so for live
records only, so a put of a key that was deleted before passes, and an operation from index 1024 on
stores its records under a later revision.  `Clash` says that two operations would write one key,
and `Noticed` that the first of them left a record that shows it.
-/

namespace Turbokube

open Encoding Lmdb DbKv

variable {E : Env} {t t' : Tables} {revMin : UInt64} {rev i : Nat} {epoch : UInt64}

section Reads

theorem queryRange_err_ne (kv : DbKv) (req : RangeRequest) :
    queryRange E kv revMin rev req ≠ .error .grpcDuplicateKey := by
  intro h
  unfold queryRange at h
  split at h
  · cases h
  · split at h
    · cases h
    · split at h
      · rename_i herr
        cases h
        cases getRange_internal herr
      · cases h

theorem prevKvs_internal {kv : DbKv} {l : List Keyrecord} {err : Option Err} {e : Err}
    (herr : ∀ e ∈ err, e.isInternal = true) (h : prevKvs E kv l err = .error e) :
    e.isInternal = true := by
  induction l generalizing err with
  | nil =>
      cases err with
      | none => cases h
      | some e' =>
          cases h
          exact herr e rfl
  | cons prec rest ih =>
      unfold prevKvs at h
      split at h
      · cases h
        rfl
      · rename_i item prev err' hread
        split at h
        · rename_i hrest
          cases h
          refine ih (fun e' he' => ?_) hrest
          obtain rfl := he'
          exact getRev_internal hread
        · cases h

theorem DbLeaseKey.del_internal {s : Table Bytes Bytes} {id : UInt64} {k : Bytes} {e : Err}
    (h : DbLeaseKey.del s id k = .error e) : e.isInternal = true := by
  unfold DbLeaseKey.del at h
  split at h
  · cases h
    rfl
  · cases h

theorem detachAll_internal {l : List Keyrecord} {s : Table Bytes Bytes} {e : Err}
    (h : detachAll l s = .error e) : e.isInternal = true := by
  induction l generalizing s with
  | nil => cases h
  | cons krec rest ih =>
      rw [detachAll] at h
      split at h
      · split at h
        · rename_i hdel
          cases h
          exact DbLeaseKey.del_internal hdel
        · exact ih h
      · exact ih h

theorem moveLease_internal {s : Table Bytes Bytes} {req : PutRequest} {prevLease : UInt64} {e : Err}
    (h : moveLease s req prevLease = .error e) : e.isInternal = true := by
  unfold moveLease at h
  split at h
  · simp only at h
    split at h
    · exact DbLeaseKey.del_internal h
    · cases h
  · cases h

theorem DbKv.putOver_internal {db : DbKv} {lease : UInt64} {key val : Bytes}
    {ignoreValue ignoreLease : Bool} {krec : Keyrecord} {e : Err}
    (h : db.putOver E rev i lease epoch key val ignoreValue ignoreLease krec = .error e) :
    e.isInternal = true := by
  unfold putOver at h
  split at h
  · cases h
    rfl
  · split at h
    · rename_i hread
      cases h
      exact Kv.fromBytes_internal hread
    · cases h

end Reads

section Operations

/-- The newest record of the key is live and has the revision of the transaction. -/
def DbKv.Marked (db : DbKv) (rev : Nat) (k : Bytes) : Prop :=
  ∃ kr ∈ db.liveRec k, kr.rev.upper = UInt64.ofNat rev

/-- The operation writes the key if it succeeds. -/
def RequestOp.WouldWrite (kv : DbKv) (k : Bytes) : RequestOp → Prop
  | .put req => req.key = k
  | .deleteRange req =>
      ValidKey req.key ∧ req.key ≤ k ∧ deleteRangeHas req.key req.rangeEnd k = true ∧ kv.Live k
  | _ => False

theorem DbKv.Marked.live {db : DbKv} {k : Bytes} (h : db.Marked rev k) : db.Live k := by
  obtain ⟨kr, hkr, -⟩ := h
  exact live_iff_liveRec.mpr ⟨kr, hkr⟩

theorem put_duplicate_iff {db : DbKv} {lease : UInt64} {key val : Bytes}
    {ignoreValue ignoreLease : Bool} (hE : E.flags.txnMultiWriteEnabled = false) (hok : db.RecsOk)
    (hpos : UInt64.ofNat rev ≠ 0) (hkeys : db.Live key → key ≠ [] ∧ key.length ≤ limitKeyLength) :
    db.put E rev i lease epoch key val ignoreValue ignoreLease = .error .grpcDuplicateKey ↔
      db.Marked rev key := by
  by_cases hvalid : key ≠ [] ∧ key.length ≤ limitKeyLength
  · rcases @put_cases E rev i epoch db hok lease key val ignoreValue ignoreLease hvalid.1
      hvalid.2 with ⟨kr, hkr, -, hput⟩ | ⟨hzero, kv, next, hput⟩
    · have hmark : db.Marked rev key ↔ kr.rev.upper = UInt64.ofNat rev := by
        constructor
        · rintro ⟨kr', hkr', hupper⟩
          rwa [Option.some.inj (hkr'.symm.trans hkr)] at hupper
        · exact fun hupper => ⟨kr, hkr, hupper⟩
      rw [hmark, hput, hE]
      by_cases hupper : kr.rev.upper = UInt64.ofNat rev
      · simp [hupper]
      · simp only [hupper, false_and, if_false, iff_false]
        exact fun herr => by cases putOver_internal herr
    · have hmark : ¬ db.Marked rev key := by
        rintro ⟨kr, hkr, hupper⟩
        rw [hzero kr hkr] at hupper
        exact hpos hupper.symm
      rw [hput]
      exact iff_of_false (by simp) hmark
  · refine iff_of_false (fun h => ?_) (fun h => hvalid (hkeys h.live))
    rw [put] at h
    by_cases hempty : key.length = 0
    · rw [if_pos hempty] at h
      cases h
    · have hlong : limitKeyLength < key.length := by
        by_contra hle
        exact hvalid ⟨fun hnil => hempty (by rw [hnil]; rfl), Nat.not_lt.mp hle⟩
      rw [if_neg hempty, if_pos hlong] at h
      cases h

theorem cmdPut_duplicate_iff {req : PutRequest} (hE : E.flags.txnMultiWriteEnabled = false)
    (hok : t.kv.RecsOk) (hpos : UInt64.ofNat rev ≠ 0)
    (hkeys : t.kv.Live req.key → req.key ≠ [] ∧ req.key.length ≤ limitKeyLength) :
    cmdPut E t rev i epoch req = .error .grpcDuplicateKey ↔ t.kv.Marked rev req.key := by
  rw [← put_duplicate_iff hE hok hpos hkeys, cmdPut]
  cases t.kv.put E rev i req.lease.toUInt64 epoch req.key req.value req.ignoreValue
      req.ignoreLease with
  | error e => simp
  | ok r =>
      refine iff_of_false ?_ (by simp)
      simp only
      split
      · rename_i hmove
        exact fun heq => by cases heq; cases moveLease_internal hmove
      · simp

theorem cmdDeleteRange_duplicate_iff {req : DeleteRangeRequest}
    (hE : E.flags.txnMultiWriteEnabled = false) (hok : t.kv.RecsOk) :
    cmdDeleteRange E t rev i epoch req = .error .grpcDuplicateKey ↔
      ValidKey req.key ∧ ∃ k, req.key ≤ k ∧ deleteRangeHas req.key req.rangeEnd k = true ∧
        t.kv.Marked rev k := by
  by_cases hkey : ValidKey req.key
  · have hany : (t.kv.deleteTargets req.key req.rangeEnd).any (isDup E rev) = true ↔
        ∃ k, req.key ≤ k ∧ deleteRangeHas req.key req.rangeEnd k = true ∧ t.kv.Marked rev k := by
      simp only [List.any_eq_true, isDup, hE, Bool.not_false, Bool.and_true, decide_eq_true_eq]
      constructor
      · rintro ⟨kr, hkr, hupper⟩
        obtain ⟨hlive, hle, hin⟩ := (mem_deleteTargets hok).mp hkr
        exact ⟨kr.key, hle, hin, kr, hlive, hupper⟩
      · rintro ⟨k, hle, hin, kr, hlive, hupper⟩
        obtain rfl := hok.key_of_liveRec hlive
        exact ⟨kr, (mem_deleteTargets hok).mpr ⟨hlive, hle, hin⟩, hupper⟩
    rw [and_iff_right hkey, ← hany, cmdDeleteRange, deleteRange_eq hok hkey]
    by_cases hdup : (t.kv.deleteTargets req.key req.rangeEnd).any (isDup E rev) = true
    · simp [hdup]
    · simp only [hdup, if_false, Bool.false_eq_true, iff_false]
      split
      · rename_i hdetach
        exact fun heq => by cases heq; cases detachAll_internal hdetach
      · split
        · rename_i hprev
          intro heq
          cases heq
          split at hprev
          · cases prevKvs_internal (by simp) hprev
          · cases hprev
        · simp
  · refine iff_of_false (fun h => ?_) (fun h => hkey h.1)
    rw [cmdDeleteRange, not_not.mp hkey, deleteRange_nil] at h
    cases h

theorem txnLoop_duplicate_iff {op : RequestOp} {acc : TxnAcc}
    (hE : E.flags.txnMultiWriteEnabled = false) (hok : acc.tables.kv.RecsOk)
    (hpos : UInt64.ofNat rev ≠ 0)
    (hkeys : ∀ k, acc.tables.kv.Live k → k ≠ [] ∧ k.length ≤ limitKeyLength) :
    (txnLoop E revMin rev epoch [op] i acc).2 = some .grpcDuplicateKey ↔
      ∃ k, op.WouldWrite acc.tables.kv k ∧ acc.tables.kv.Marked rev k := by
  cases op with
  | put req =>
      have hiff := @cmdPut_duplicate_iff E acc.tables rev i epoch req hE hok hpos (hkeys req.key)
      simp only [RequestOp.WouldWrite, exists_eq_left']
      rw [← hiff, txnLoop]
      cases cmdPut E acc.tables rev i epoch req with
      | error e => simp
      | ok r => simp [txnLoop]
  | deleteRange req =>
      have hiff := @cmdDeleteRange_duplicate_iff E acc.tables rev i epoch req hE hok
      have hwrite : (∃ k, (RequestOp.deleteRange req).WouldWrite acc.tables.kv k ∧
          acc.tables.kv.Marked rev k) ↔ ValidKey req.key ∧ ∃ k, req.key ≤ k ∧
            deleteRangeHas req.key req.rangeEnd k = true ∧ acc.tables.kv.Marked rev k := by
        constructor
        · rintro ⟨k, ⟨hkey, hle, hin, -⟩, hmark⟩
          exact ⟨hkey, k, hle, hin, hmark⟩
        · rintro ⟨hkey, k, hle, hin, hmark⟩
          exact ⟨k, ⟨hkey, hle, hin, hmark.live⟩, hmark⟩
      rw [hwrite, ← hiff, txnLoop]
      cases cmdDeleteRange E acc.tables rev i epoch req with
      | error e => simp
      | ok r => simp [txnLoop]
  | range req =>
      have hne := @queryRange_err_ne E revMin rev acc.tables.kv req
      refine iff_of_false ?_ (by simp [RequestOp.WouldWrite])
      rw [txnLoop]
      cases hquery : queryRange E acc.tables.kv revMin rev req with
      | error e =>
          rw [hquery] at hne
          simpa using hne
      | ok r => simp [txnLoop]
  | txn => simp [txnLoop, RequestOp.WouldWrite]
  | none => simp [txnLoop, RequestOp.WouldWrite]

end Operations

section Prefixes

/-- One of the first 1024 operations, before operation `j`, is a put of the key. -/
def EarlyPut (ops : List RequestOp) (j : Nat) (k : Bytes) : Prop :=
  ∃ i, i < j ∧ i < 1024 ∧ ∃ req, ops[i]? = some (.put req) ∧ req.key = k

/-- The store before operation `j` of a transaction at revision `rev`. -/
structure InTxn (ops : List RequestOp) (rev j : Nat) (db : DbKv) : Prop where
  recs : db.RecsOk
  below : ∀ k, ∀ kr ∈ db.records k, kr.rev.word.toNat < rev * 4096 + j * 4
  keys : ∀ k, db.Live k → k ≠ [] ∧ k.length ≤ limitKeyLength
  marked : ∀ k, db.Marked rev k ↔ EarlyPut ops j k

variable {ops : List RequestOp} {op : RequestOp} {db db' : DbKv} {j : Nat} {k : Bytes}

theorem earlyPut_succ (hop : ops[j]? = some op) :
    EarlyPut ops (j + 1) k ↔
      EarlyPut ops j k ∨ j < 1024 ∧ ∃ req, op = .put req ∧ req.key = k := by
  constructor
  · rintro ⟨i, hi, hlt, req, hreq, hkey⟩
    rcases Nat.lt_succ_iff_lt_or_eq.mp hi with hi | rfl
    · exact .inl ⟨i, hi, hlt, req, hreq, hkey⟩
    · rw [hop] at hreq
      exact .inr ⟨hlt, req, Option.some.inj hreq, hkey⟩
  · rintro (⟨i, hi, hput⟩ | ⟨hlt, req, rfl, hkey⟩)
    · exact ⟨i, Nat.lt_succ_of_lt hi, hput⟩
    · exact ⟨j, Nat.lt_succ_self j, hlt, req, hop, hkey⟩

/-- An operation that writes nothing. -/
theorem InTxn.idle (h : InTxn ops rev j db) (hop : ops[j]? = some op)
    (hput : ∀ req, op ≠ .put req) : InTxn ops rev (j + 1) db := by
  refine ⟨h.recs, fun k kr hkr => ?_, h.keys, fun k => ?_⟩
  · have := h.below k kr hkr
    omega
  · rw [h.marked, earlyPut_succ hop]
    constructor
    · exact .inl
    · rintro (hearly | ⟨-, req, rfl, -⟩)
      · exact hearly
      · exact absurd rfl (hput req)

theorem marked_congr (h : db'.records k = db.records k) :
    db'.Marked rev k ↔ db.Marked rev k := by
  rw [Marked, Marked, liveRec_congr h]

theorem live_congr (h : db'.records k = db.records k) : db'.Live k ↔ db.Live k := by
  rw [Live, Live, h]

/-- An operation below index 1024 stores its records under the revision of the transaction. -/
theorem upper_revAt_eq_iff (hrev : rev + j / 1024 < 2 ^ 52) (isdel : Bool) :
    (revAt rev j isdel).upper = UInt64.ofNat rev ↔ j < 1024 := by
  rw [← UInt64.toNat_inj, Keyrev.upper_toNat, revAt_toNat_of_carry hrev, UInt64.toNat_ofNat',
    Nat.mod_eq_of_lt (show rev < 2 ^ 64 by omega)]
  cases isdel
  · simp only [Bool.false_eq_true, if_false]
    omega
  · simp only [if_true]
    omega

theorem InTxn.put {req : PutRequest} {prev next : Kv} {patched : Bool}
    (h : InTxn ops rev j db) (hE : E.flags.txnMultiWriteEnabled = false)
    (hpos : UInt64.ofNat rev ≠ 0) (hrev : rev + j / 1024 < 2 ^ 52)
    (hop : ops[j]? = some (.put req))
    (hput : db.put E rev j req.lease.toUInt64 epoch req.key req.value req.ignoreValue
      req.ignoreLease = .ok (db', prev, next, patched)) : InTxn ops rev (j + 1) db' := by
  have hvalid := key_of_put_ok hput
  have hword := revAt_toNat_of_carry hrev false
  simp only [Bool.false_eq_true, if_false, Nat.add_zero] at hword
  -- the key was not put before, or this put would have failed
  have hfirst : ¬ EarlyPut ops j req.key := by
    intro hearly
    have hdup : db.put E rev j req.lease.toUInt64 epoch req.key req.value req.ignoreValue
        req.ignoreLease = .error .grpcDuplicateKey :=
      (put_duplicate_iff hE h.recs hpos (h.keys req.key)).mpr ((h.marked req.key).mpr hearly)
    rw [hput] at hdup
    cases hdup
  obtain ⟨htable, -⟩ := put_tables hput
  obtain ⟨kr, hkr⟩ : ∃ kr : Keyrecord, kr = ⟨req.key, revAt rev j false, req.lease.toUInt64⟩ :=
    ⟨_, rfl⟩
  have hkey : kr.key = req.key := by rw [hkr]
  have hkrev : kr.rev = revAt rev j false := by rw [hkr]
  have hdel : kr.rev.isdel = false := by rw [hkrev, revAt_isdel]
  rw [← hkr, ← hkey] at htable
  have hrecords : ∀ k,
      db'.records k = if k = req.key then kr :: db.records k else db.records k := by
    intro k
    rw [records_put h.recs htable, Keyrecord.normal_of_live hdel, hkey]
    intro v hv
    rw [hkrev, hword]
    exact h.below _ v hv
  refine ⟨h.recs.put kr htable, fun k v hv => ?_, fun k hlive => ?_, fun k => ?_⟩
  · have hold : ∀ v ∈ db.records k, v.rev.word.toNat < rev * 4096 + (j + 1) * 4 := by
      intro v hv
      have := h.below k v hv
      omega
    rw [hrecords] at hv
    split at hv
    · rcases List.mem_cons.mp hv with rfl | hv
      · rw [hkrev, hword]
        omega
      · exact hold v hv
    · exact hold v hv
  · by_cases hk : k = req.key
    · exact hk ▸ hvalid
    · have hsame := hrecords k
      rw [if_neg hk] at hsame
      exact h.keys k ((live_congr hsame).mp hlive)
  · rw [earlyPut_succ hop]
    have hsame := hrecords k
    by_cases hk : k = req.key
    · rw [if_pos hk] at hsame
      have hlive : db'.liveRec k = some kr :=
        liveRec_eq_some_iff.mpr ⟨by rw [hsame]; rfl, hdel⟩
      have hmark : db'.Marked rev k ↔ j < 1024 := by
        rw [← upper_revAt_eq_iff hrev false, ← hkrev]
        constructor
        · rintro ⟨kr', hkr', hupper⟩
          rwa [← Option.some.inj (hlive.symm.trans hkr')] at hupper
        · exact fun hupper => ⟨kr, hlive, hupper⟩
      rw [hmark, or_iff_right (hk ▸ hfirst)]
      exact ⟨fun hlt => ⟨hlt, req, rfl, hk.symm⟩, fun hlt => hlt.1⟩
    · rw [if_neg hk] at hsame
      rw [marked_congr hsame, h.marked]
      constructor
      · exact .inl
      · rintro (hearly | ⟨-, req', hreq', rfl⟩)
        · exact hearly
        · cases hreq'
          exact absurd rfl hk

theorem InTxn.deleteRange {req : DeleteRangeRequest} {items : List Keyrecord}
    (h : InTxn ops rev j db) (hE : E.flags.txnMultiWriteEnabled = false)
    (hrev : rev + j / 1024 < 2 ^ 52) (hop : ops[j]? = some (.deleteRange req))
    (hdel : db.deleteRange E rev j epoch req.key req.rangeEnd = .ok (db', items)) :
    InTxn ops rev (j + 1) db' := by
  have hword := revAt_toNat_of_carry hrev true
  simp only [if_true] at hword
  have hkey := validKey_of_deleteRange hdel
  rw [deleteRange_eq h.recs hkey] at hdel
  split at hdel
  · cases hdel
  · rename_i hdup
    obtain ⟨rfl, rfl⟩ := Prod.mk.inj (Except.ok.inj hdel)
    let ks := (db.deleteTargets req.key req.rangeEnd).map Keyrecord.key
    have hother : ∀ k, k ∉ ks → (db.tombstones rev j epoch ks).records k = db.records k :=
      fun k hk => tombstones_records_ne hk
    have hself : ∀ k ∈ ks, (db.tombstones rev j epoch ks).records k =
        ⟨k, revAt rev j true, 0⟩ :: db.records k := by
      intro k hk
      refine tombstones_records_mem h.recs (deleteTargets_nodup h.recs) hk (fun kr hkr => ?_)
      have := h.below k kr hkr
      omega
    have hdead : ∀ k ∈ ks, ¬ (db.tombstones rev j epoch ks).Live k := by
      rintro k hk ⟨kr, hhead, hlive⟩
      rw [hself k hk, List.head?_cons] at hhead
      obtain rfl := Option.some.inj hhead
      simp at hlive
    -- a key that was put before is a target that would have failed
    have hfirst : ∀ k ∈ ks, ¬ EarlyPut ops j k := by
      intro k hk hearly
      obtain ⟨kr, hkr, rfl⟩ := List.mem_map.mp hk
      obtain ⟨kr', hlive, hupper⟩ := (h.marked kr.key).mpr hearly
      have hlive' := ((mem_deleteTargets h.recs).mp hkr).1
      obtain rfl := Option.some.inj (hlive'.symm.trans hlive)
      refine hdup (List.any_eq_true.mpr ⟨kr, hkr, ?_⟩)
      simp [isDup, hE, hupper]
    refine ⟨h.recs.tombstones ks, fun k v hv => ?_, fun k hlive => ?_, fun k => ?_⟩
    · by_cases hk : k ∈ ks
      · rw [hself k hk] at hv
        rcases List.mem_cons.mp hv with rfl | hv
        · change (revAt rev j true).word.toNat < _
          omega
        · have := h.below k v hv
          omega
      · rw [hother k hk] at hv
        have := h.below k v hv
        omega
    · by_cases hk : k ∈ ks
      · exact absurd hlive (hdead k hk)
      · exact h.keys k ((live_congr (hother k hk)).mp hlive)
    · have hnext : EarlyPut ops (j + 1) k ↔ EarlyPut ops j k := by
        rw [earlyPut_succ hop]
        exact or_iff_left (fun hput => by obtain ⟨-, req', hreq', -⟩ := hput; cases hreq')
      rw [hnext]
      by_cases hk : k ∈ ks
      · exact iff_of_false (fun hmark => hdead k hk hmark.live) (hfirst k hk)
      · rw [marked_congr (hother k hk), h.marked]

/-- An operation that returns. -/
theorem InTxn.step {acc acc' : TxnAcc} (h : InTxn ops rev j acc.tables.kv)
    (hE : E.flags.txnMultiWriteEnabled = false) (hpos : UInt64.ofNat rev ≠ 0)
    (hrev : rev + j / 1024 < 2 ^ 52) (hop : ops[j]? = some op)
    (hloop : txnLoop E revMin rev epoch [op] j acc = (acc', none)) :
    InTxn ops rev (j + 1) acc'.tables.kv := by
  obtain ⟨new, hrun, -⟩ := txnRun_of_txnLoop hloop
  generalize acc'.tables = t' at hrun ⊢
  cases hrun with
  | cons hstep hrest =>
      cases hrest
      cases hstep with
      | put hput =>
          obtain ⟨prev, next, patched, hkv, -⟩ := cmdPut_inv hput
          exact h.put hE hpos hrev hop hkv
      | deleteRange hdel =>
          obtain ⟨items, hkv, -⟩ := cmdDeleteRange_inv hdel
          exact h.deleteRange hE hrev hop hkv
      | range => exact h.idle hop (by simp)
      | txn => exact h.idle hop (by simp)
      | none => exact h.idle hop (by simp)

/-- The loop fails at one of its operations, after the others before it have returned. -/
theorem txnLoop_fails_iff (ops : List RequestOp) (i : Nat) (acc : TxnAcc) (e : Err) :
    (txnLoop E revMin rev epoch ops i acc).2 = some e ↔
      ∃ j acc' op, txnLoop E revMin rev epoch (ops.take j) i acc = (acc', none) ∧
        ops[j]? = some op ∧ (txnLoop E revMin rev epoch [op] (i + j) acc').2 = some e := by
  induction ops generalizing i acc with
  | nil => simp [txnLoop]
  | cons op rest ih =>
      have hcons := @txnLoop_append E revMin rev epoch [op] rest i acc
      rw [List.singleton_append] at hcons
      cases hop : txnLoop E revMin rev epoch [op] i acc with
      | mk acc₁ err =>
          rw [hop] at hcons
          rw [hcons]
          cases err with
          | some e' =>
              have htake : ∀ j, txnLoop E revMin rev epoch ((op :: rest).take (j + 1)) i acc =
                  (acc₁, some e') := by
                intro j
                rw [List.take_succ_cons, ← List.singleton_append, txnLoop_append, hop]
              constructor
              · intro he
                exact ⟨0, acc, op, rfl, rfl, by rw [Nat.add_zero, hop]; exact he⟩
              · rintro ⟨j, acc', op', hbefore, hop', he⟩
                cases j with
                | zero =>
                    obtain rfl := Option.some.inj hop'
                    obtain ⟨rfl, -⟩ := Prod.mk.inj hbefore
                    rw [Nat.add_zero, hop] at he
                    exact he
                | succ j =>
                    rw [htake] at hbefore
                    cases hbefore
          | none =>
              have htake : ∀ j, txnLoop E revMin rev epoch ((op :: rest).take (j + 1)) i acc =
                  txnLoop E revMin rev epoch (rest.take j) (i + 1) acc₁ := by
                intro j
                rw [List.take_succ_cons, ← List.singleton_append, txnLoop_append, hop]
                rfl
              simp only [List.length_singleton]
              rw [ih]
              constructor
              · rintro ⟨j, acc', op', hbefore, hop', he⟩
                refine ⟨j + 1, acc', op', ?_, hop', ?_⟩
                · rw [htake]
                  exact hbefore
                · rwa [show i + (j + 1) = i + 1 + j by omega]
              · rintro ⟨j, acc', op', hbefore, hop', he⟩
                cases j with
                | zero =>
                    obtain rfl := Option.some.inj hop'
                    obtain ⟨rfl, -⟩ := Prod.mk.inj hbefore
                    rw [Nat.add_zero, hop] at he
                    cases he
                | succ j =>
                    rw [htake] at hbefore
                    refine ⟨j, acc', op', hbefore, hop', ?_⟩
                    rwa [show i + 1 + j = i + (j + 1) by omega]

end Prefixes

section Transactions

/-- The operations before `j` return, and leave `acc`. -/
def TxnBefore (E : Env) (b : Batch) (ops : List RequestOp) (j : Nat) (acc : TxnAcc) : Prop :=
  txnLoop E b.store.dbMeta.revMin (b.newRev + 1) b.epoch (ops.take j) 0 ⟨b.store.tables, [], []⟩ =
    (acc, none)

/-- When its turn comes, operation `j` would write the key. -/
def WouldWriteAt (E : Env) (b : Batch) (ops : List RequestOp) (j : Nat) (k : Bytes) : Prop :=
  ∃ acc op, TxnBefore E b ops j acc ∧ ops[j]? = some op ∧ op.WouldWrite acc.tables.kv k

/-- Two operations would write one key. -/
def Clash (E : Env) (b : Batch) (ops : List RequestOp) : Prop :=
  ∃ i j k, i < j ∧ WouldWriteAt E b ops i k ∧ WouldWriteAt E b ops j k

/-- An operation would write a key that one of the first 1024 operations put. -/
def Noticed (E : Env) (b : Batch) (ops : List RequestOp) : Prop :=
  ∃ j k, EarlyPut ops j k ∧ WouldWriteAt E b ops j k

variable {b : Batch} {ops : List RequestOp} {j : Nat} {acc : TxnAcc}

theorem ofNat_succ_ne_zero {r : Nat} (h : r + 1 < 2 ^ 64) : UInt64.ofNat (r + 1) ≠ 0 := by
  intro hzero
  have hnat := congrArg UInt64.toNat hzero
  rw [UInt64.toNat_ofNat', Nat.mod_eq_of_lt h] at hnat
  exact absurd hnat (by simp)

theorem TxnBefore.of_le {i : Nat} (h : TxnBefore E b ops j acc) (hi : i ≤ j) :
    ∃ acc', TxnBefore E b ops i acc' := by
  have hsplit : ops.take j = ops.take i ++ (ops.take j).drop i := by
    conv => lhs; rw [← List.take_append_drop i (ops.take j), List.take_take, Nat.min_eq_left hi]
  rw [TxnBefore, hsplit, txnLoop_append] at h
  split at h
  · cases h
  · rename_i acc' hbefore
    exact ⟨acc', hbefore⟩

/-- The records of a versioned state are below its bound. -/
theorem DbKv.Rep.record_lt {S : Prop} {db : DbKv} {ch : Bytes → List Version} {bound : Nat}
    (h : db.Rep E S ch) (hlog : LogOk db.log bound bound) {k : Bytes} {kr : Keyrecord}
    (hkr : kr ∈ db.records k) : kr.rev.word.toNat < bound := by
  rw [h.records_eq hlog] at hkr
  obtain ⟨x, hx, rfl⟩ := List.mem_map.mp hkr
  obtain ⟨w, hw, -, cur, rfl⟩ := write_of_mem_versions (h.mem_versions hx)
  have hlt := hlog.lt w hw
  rw [ite_self] at hlt
  exact hlt

/-- The first operation of a transaction finds no record of its revision. -/
theorem Reached.inTxn (h : Reached E (fun _ cmd => cmd.OpsAtMost 1024) b)
    (hrev : b.newRev + 1 < 2 ^ 52) (ops : List RequestOp) :
    InTxn ops (b.newRev + 1) 0 b.store.tables.kv := by
  obtain ⟨ch, hrep, hlog, -⟩ := h.versioned_of_opsAtMost (fun _ _ hQ => hQ) (by omega)
  refine ⟨hrep.recsOk, fun k kr hkr => ?_, fun k hlive => ?_, fun k => ?_⟩
  · rw [Nat.zero_mul, Nat.add_zero]
    exact hrep.record_lt hlog hkr
  · obtain ⟨kr, hhead, -⟩ := hlive
    have hmem := List.mem_of_head? hhead
    rw [hrep.records_eq hlog] at hmem
    obtain ⟨x, hx, -⟩ := List.mem_map.mp hmem
    exact hlog.key_of_mem (hrep.mem_versions hx)
  · refine iff_of_false ?_ (fun ⟨i, hi, _⟩ => absurd hi (Nat.not_lt_zero i))
    rintro ⟨kr, hlive, hupper⟩
    have hlt := hrep.record_lt hlog (List.mem_of_head? (liveRec_eq_some_iff.mp hlive).1)
    have hnat := congrArg UInt64.toNat hupper
    rw [Keyrev.upper_toNat, UInt64.toNat_ofNat', Nat.mod_eq_of_lt (by omega)] at hnat
    omega

theorem TxnBefore.inTxn (hE : E.flags.txnMultiWriteEnabled = false)
    (hb : Reached E (fun _ cmd => cmd.OpsAtMost 1024) b)
    (hrev : b.newRev + 1 + ops.length / 1024 < 2 ^ 52) (hj : j ≤ ops.length)
    (h : TxnBefore E b ops j acc) : InTxn ops (b.newRev + 1) j acc.tables.kv := by
  have hpos : UInt64.ofNat (b.newRev + 1) ≠ 0 := ofNat_succ_ne_zero (by omega)
  induction j generalizing acc with
  | zero =>
      obtain ⟨rfl, -⟩ := Prod.mk.inj h
      exact hb.inTxn (by omega) ops
  | succ j ih =>
      have hop : ops[j]? = some ops[j] := List.getElem?_eq_getElem (by omega)
      rw [TxnBefore, List.take_succ_eq_append_getElem (by omega), txnLoop_append] at h
      split at h
      · cases h
      · rename_i acc' hbefore
        rw [List.length_take, Nat.min_eq_left (by omega), Nat.zero_add] at h
        refine (ih (by omega) hbefore).step hE hpos ?_ hop h
        have : j / 1024 ≤ ops.length / 1024 := Nat.div_le_div_right (by omega)
        omega

/-- The error is returned exactly when an operation would write a key that is marked. -/
theorem txnOps_duplicate_iff (hE : E.flags.txnMultiWriteEnabled = false)
    (hb : Reached E (fun _ cmd => cmd.OpsAtMost 1024) b)
    (hrev : b.newRev + 1 + ops.length / 1024 < 2 ^ 52) :
    (txnOps E b.store.tables b.store.dbMeta.revMin (b.newRev + 1) b.epoch ops).2.2.2 =
        some .grpcDuplicateKey ↔ Noticed E b ops := by
  have hpos : UInt64.ofNat (b.newRev + 1) ≠ 0 := ofNat_succ_ne_zero (by omega)
  have herr : (txnOps E b.store.tables b.store.dbMeta.revMin (b.newRev + 1) b.epoch ops).2.2.2 =
      (txnLoop E b.store.dbMeta.revMin (b.newRev + 1) b.epoch ops 0
        ⟨b.store.tables, [], []⟩).2 := by
    rw [txnOps]
    split
    · rename_i hloop
      rw [hloop]
    · rename_i hloop
      rw [hloop]
  have hone : ∀ {j acc op}, TxnBefore E b ops j acc → ops[j]? = some op →
      ((txnLoop E b.store.dbMeta.revMin (b.newRev + 1) b.epoch [op] j acc).2 =
        some .grpcDuplicateKey ↔
          ∃ k, op.WouldWrite acc.tables.kv k ∧ EarlyPut ops j k) := by
    intro j acc op hbefore hop
    have hlt : j < ops.length := (List.getElem?_eq_some_iff.mp hop).1
    have hin := hbefore.inTxn hE hb hrev hlt.le
    rw [txnLoop_duplicate_iff hE hin.recs hpos hin.keys]
    exact exists_congr (fun k => and_congr_right (fun _ => hin.marked k))
  rw [herr, txnLoop_fails_iff]
  constructor
  · rintro ⟨j, acc, op, hbefore, hop, hfail⟩
    rw [Nat.zero_add] at hfail
    obtain ⟨k, hwrite, hearly⟩ := (hone hbefore hop).mp hfail
    exact ⟨j, k, hearly, acc, op, hbefore, hop, hwrite⟩
  · rintro ⟨j, k, hearly, acc, op, hbefore, hop, hwrite⟩
    refine ⟨j, acc, op, hbefore, hop, ?_⟩
    rw [Nat.zero_add]
    exact (hone hbefore hop).mpr ⟨k, hwrite, hearly⟩

theorem Noticed.clash (h : Noticed E b ops) : Clash E b ops := by
  obtain ⟨j, k, ⟨i, hi, -, req, hreq, hkey⟩, hwrite⟩ := h
  obtain ⟨acc, op, hbefore, -⟩ := id hwrite
  obtain ⟨acc', hbefore'⟩ := hbefore.of_le hi.le
  exact ⟨i, j, k, hi, ⟨acc', .put req, hbefore', hreq, hkey⟩, hwrite⟩

/-- A transaction rolls back. -/
theorem txnOps_tables {e : Err}
    (h : (txnOps E t revMin rev epoch ops).2.2.2 = some e) :
    (txnOps E t revMin rev epoch ops).1 = t := by
  rw [txnOps] at h ⊢
  split
  · rfl
  · rename_i hloop
    rw [hloop] at h
    cases h

/-- The error and the rollback the source promises for two writes of one key. -/
def RejectsDuplicates (E : Env) (b : Batch) (ops : List RequestOp) : Prop :=
  (Clash E b ops →
    (txnOps E b.store.tables b.store.dbMeta.revMin (b.newRev + 1) b.epoch ops).2.2.2 =
        some .grpcDuplicateKey ∧
      (txnOps E b.store.tables b.store.dbMeta.revMin (b.newRev + 1) b.epoch ops).1 =
        b.store.tables) ∧
    (¬ Clash E b ops →
      (txnOps E b.store.tables b.store.dbMeta.revMin (b.newRev + 1) b.epoch ops).2.2.2 ≠
        some .grpcDuplicateKey)

end Transactions

/-- With multiple writes disabled, a transaction is rejected for a duplicate key just when two of
its operations would write one key, on the condition that one of the first 1024 operations is a put
of a key that a later one would write, if any two would write one. -/
theorem duplicates_rejected_iff {b : Batch} (hE : E.flags.txnMultiWriteEnabled = false)
    (hb : Reached E (fun _ cmd => cmd.OpsAtMost 1024) b) (ops : List RequestOp)
    (hrev : b.newRev + 1 + ops.length / 1024 < 2 ^ 52) :
    RejectsDuplicates E b ops ↔ (Clash E b ops → Noticed E b ops) := by
  have hdup := txnOps_duplicate_iff hE hb hrev
  constructor
  · exact fun h hclash => hdup.mp (h.1 hclash).1
  · intro h
    refine ⟨fun hclash => ?_, fun hnone herr => hnone (hdup.mp herr).clash⟩
    have herr := hdup.mpr (h hclash)
    exact ⟨herr, txnOps_tables herr⟩

/-- Two puts of one key. -/
def putTwice : List RequestOp :=
  [.put { key := [97], value := [1] }, .put { key := [97], value := [2] }]

theorem duplicates_rejected_putTwice :
    Clash .plain (.start .init) putTwice ∧ RejectsDuplicates .plain (.start .init) putTwice := by
  have hbefore : TxnBefore .plain (.start .init) putTwice 1
      (txnLoop .plain 1 2 0 (putTwice.take 1) 0 ⟨.empty, [], []⟩).1 :=
    Prod.ext rfl (by decide +kernel)
  have hnoticed : Noticed .plain (.start .init) putTwice :=
    ⟨1, [97], ⟨0, by decide, by decide, _, rfl, rfl⟩, _, _, hbefore, rfl, rfl⟩
  refine ⟨hnoticed.clash, ?_⟩
  exact (duplicates_rejected_iff rfl .init putTwice (by decide)).mpr (fun _ => hnoticed)

/-- A deletion and a put of the key it deletes. -/
def deleteThenPut : List RequestOp :=
  [.deleteRange { key := [97] }, .put { key := [97], value := [2] }]

/-- The put finds a tombstone and passes. -/
theorem duplicate_after_delete_passes :
    ∃ s ∈ storeAfter [[.put { key := [97], value := [1] }]],
      Clash .plain (.start s) deleteThenPut ∧
      (txnOps .plain s.tables s.dbMeta.revMin (s.dbMeta.rev + 1) s.dbMeta.epoch
        deleteThenPut).2.2.2 = none := by
  refine exists_mem_imp (D := fun s => s.tables.kv.Live [97] ∧
    (txnLoop .plain s.dbMeta.revMin (s.dbMeta.rev + 1) s.dbMeta.epoch (deleteThenPut.take 1) 0
      ⟨s.tables, [], []⟩).2 = none ∧
    (txnOps .plain s.tables s.dbMeta.revMin (s.dbMeta.rev + 1) s.dbMeta.epoch
      deleteThenPut).2.2.2 = none) (by decide +kernel) (fun s hs hD => ?_)
  refine ⟨⟨0, 1, [97], by decide, ?_, ?_⟩, hD.2.2⟩
  · exact ⟨_, _, rfl, rfl, by decide, le_rfl, by decide, hD.1⟩
  · exact ⟨_, _, Prod.ext rfl hD.2.1, rfl, rfl⟩

end Turbokube
