import Turbokube.Machine.Runs

/-!
# Rejected transactions

A transaction that fails at one of its operations leaves every table as it was and
answers with the error.  The revision is different: it has been advanced if an
operation before the failing one affected a key, that is, if one of them was a put
or deleted a live key.
-/

namespace Turbokube

open Encoding Lmdb DbKv

variable {E : Env} {revMin : UInt64} {rev : Nat} {epoch : UInt64}

theorem txnLoop_append (xs ys : List RequestOp) (i : Nat) (acc : TxnAcc) :
    txnLoop E revMin rev epoch (xs ++ ys) i acc =
      match txnLoop E revMin rev epoch xs i acc with
      | (acc', some e) => (acc', some e)
      | (acc', none) => txnLoop E revMin rev epoch ys (i + xs.length) acc' := by
  induction xs generalizing i acc with
  | nil => rfl
  | cons op xs ih =>
      have hlen : i + (op :: xs).length = i + 1 + xs.length := by
        rw [List.length_cons]
        omega
      rw [hlen]
      cases op with
      | put req =>
          simp only [List.cons_append, txnLoop]
          split
          · rfl
          · exact ih _ _
      | deleteRange req =>
          simp only [List.cons_append, txnLoop]
          split
          · rfl
          · exact ih _ _
      | range req =>
          simp only [List.cons_append, txnLoop]
          split
          · rfl
          · exact ih _ _
      | txn => exact ih _ _
      | none => exact ih _ _

/-- Operation `i` fails with `e` and those before it succeed. -/
structure FailsAt (E : Env) (b : Batch) (ops : List RequestOp) (i : Nat) (e : Err) : Prop where
  before : (txnLoop E b.store.dbMeta.revMin (b.newRev + 1) b.epoch (ops.take i) 0
    ⟨b.store.tables, [], []⟩).2 = none
  fails : (txnLoop E b.store.dbMeta.revMin (b.newRev + 1) b.epoch (ops.take (i + 1)) 0
    ⟨b.store.tables, [], []⟩).2 = some e

/-- An operation that affects no key: it is no put, and no key of the range it
deletes is live. -/
def RequestOp.Idle (kv : DbKv) : RequestOp → Prop
  | .put _ => False
  | .deleteRange req =>
      ∀ k, req.key ≤ k → deleteRangeHas req.key req.rangeEnd k = true → ¬ kv.Live k
  | _ => True

theorem deleteTargets_eq_nil_iff {db : DbKv} {key rangeEnd : Bytes} (hok : db.RecsOk) :
    db.deleteTargets key rangeEnd = [] ↔
      ∀ k, key ≤ k → deleteRangeHas key rangeEnd k = true → ¬ db.Live k := by
  constructor
  · intro hnil k hle hin hlive
    obtain ⟨kr, hkr⟩ := live_iff_liveRec.mp hlive
    have hk := hok.key_of_liveRec hkr
    have hmem : kr ∈ db.deleteTargets key rangeEnd :=
      (mem_deleteTargets hok).mpr
        ⟨by rw [hk]; exact hkr, by rw [hk]; exact hle, by rw [hk]; exact hin⟩
    rw [hnil] at hmem
    cases hmem
  · intro h
    refine List.eq_nil_iff_forall_not_mem.mpr (fun kr hkr => ?_)
    obtain ⟨hlive, hle, hin⟩ := (mem_deleteTargets hok).mp hkr
    exact h kr.key hle hin (live_iff_liveRec.mpr ⟨kr, hlive⟩)

theorem TxnStep.idle_iff {i : Nat} {op : RequestOp} {t t' : Tables} {affected : List Bytes}
    (hok : t.kv.RecsOk) (h : TxnStep E rev epoch i t op t' affected) :
    affected = [] ↔ op.Idle t.kv := by
  cases h with
  | put hput =>
      obtain ⟨-, -, -, -, -, -, -, rfl⟩ := cmdPut_inv hput
      simp [RequestOp.Idle]
  | deleteRange hdel =>
      obtain ⟨items, hkv, -, -, -, rfl⟩ := cmdDeleteRange_inv hdel
      obtain ⟨rfl, -⟩ := deleteRange_inv hok hkv
      rw [RequestOp.Idle, ← deleteTargets_eq_nil_iff hok]
      simp
  | _ => simp [RequestOp.Idle]

/-- No key was affected exactly when every operation was idle on the tables the
loop started from. -/
theorem TxnRun.idle_iff {i : Nat} {ops : List RequestOp} {t t' : Tables} {affected : List Bytes}
    (hok : t.kv.RecsOk) (h : TxnRun E rev epoch i ops t t' affected) :
    affected = [] ↔ ∀ op ∈ ops, op.Idle t.kv := by
  induction h with
  | nil => simp
  | cons hop _ ih =>
      obtain ⟨hstep, hsame⟩ := hop.opStep (A := fun _ => True) hok (fun _ _ => trivial)
      rw [List.append_eq_nil_iff, List.forall_mem_cons, ← hop.idle_iff hok,
        ih (hok.opStep hstep)]
      refine and_congr_right (fun hnil => ?_)
      rw [hsame hnil]

/-- A failing operation returns what it was given. -/
theorem txnLoop_single_error {op : RequestOp} {i : Nat} {acc acc' : TxnAcc} {e : Err}
    (h : txnLoop E revMin rev epoch [op] i acc = (acc', some e)) : acc' = acc := by
  cases op with
  | put req =>
      rw [txnLoop] at h
      split at h
      · exact (Prod.mk.inj h).1.symm
      · cases h
  | deleteRange req =>
      rw [txnLoop] at h
      split at h
      · exact (Prod.mk.inj h).1.symm
      · cases h
  | range req =>
      rw [txnLoop] at h
      split at h
      · exact (Prod.mk.inj h).1.symm
      · cases h
  | txn => cases h
  | none => cases h

theorem txnOps_of_failsAt {b : Batch} {ops : List RequestOp} {i : Nat} {e : Err}
    (h : FailsAt E b ops i e) :
    ∃ acc, txnLoop E b.store.dbMeta.revMin (b.newRev + 1) b.epoch (ops.take i) 0
        ⟨b.store.tables, [], []⟩ = (acc, none) ∧
      txnOps E b.store.tables b.store.dbMeta.revMin (b.newRev + 1) b.epoch ops =
        (b.store.tables, acc.res, acc.keys, some e) := by
  obtain ⟨hbefore, hfails⟩ := h
  cases hacc : txnLoop E b.store.dbMeta.revMin (b.newRev + 1) b.epoch (ops.take i) 0
      ⟨b.store.tables, [], []⟩ with
  | mk acc err =>
      rw [hacc] at hbefore
      simp only at hbefore
      subst hbefore
      refine ⟨acc, rfl, ?_⟩
      have hlt : i < ops.length := by
        by_contra hge
        rw [List.take_of_length_le (by omega : ops.length ≤ i)] at hacc
        rw [List.take_of_length_le (by omega : ops.length ≤ i + 1), hacc] at hfails
        cases hfails
      rw [List.take_succ_eq_append_getElem hlt, txnLoop_append, hacc] at hfails
      simp only at hfails
      cases hop : txnLoop E b.store.dbMeta.revMin (b.newRev + 1) b.epoch [ops[i]]
          (0 + (ops.take i).length) acc with
      | mk acc' err =>
          rw [hop] at hfails
          simp only at hfails
          subst hfails
          obtain rfl := txnLoop_single_error hop
          have hall : txnLoop E b.store.dbMeta.revMin (b.newRev + 1) b.epoch ops 0
              ⟨b.store.tables, [], []⟩ = (acc', some e) := by
            conv => lhs; rw [← List.take_append_drop (i + 1) ops]
            rw [txnLoop_append, List.take_succ_eq_append_getElem hlt, txnLoop_append, hacc]
            simp only [hop]
          rw [txnOps, hall]

theorem applyTxn_of_reject {b : Batch} {ent : Entry} {req : TxnRequest} {success : Bool}
    {res : List ResponseOp} {affected : List Bytes} {e : Err}
    (hcmp : txnCompare E b.store.tables.kv req.compare = .ok success)
    (hops : txnOps E b.store.tables b.store.dbMeta.revMin (b.newRev + 1) b.epoch
      (req.branch success) = (b.store.tables, res, affected, some e))
    (he : e.isTxnReject = true) :
    applyTxn E b ent req = .ok ({ b with newRev := b.nextRev affected }, textResult ent e) := by
  rw [TxnRequest.branch] at hops
  rw [applyTxn, hcmp]
  simp only [hops]
  cases e with
  | grpcDuplicateKey => rfl
  | grpcKeyTooLong => rfl
  | grpcEmptyKey => rfl
  | _ => cases he

/-- A rejected transaction changes nothing but the revision, and it keeps that one
too exactly when no operation before the failing one is a put or deletes a live
key. -/
theorem rejected_txn_keeps_revision_iff {Q : Batch → Cmd → Prop} {b : Batch}
    (hb : Reached E Q b) {ent : Entry} {req : TxnRequest} (hcmd : ent.cmd = .txn req)
    {success : Bool} (hcmp : txnCompare E b.store.tables.kv req.compare = .ok success)
    {i : Nat} {e : Err} (hfail : FailsAt E b (req.branch success) i e)
    (he : e.isTxnReject = true) :
    ∃ newRev, applyEntry E b ent = .ok ({ b with newRev := newRev }, textResult ent e) ∧
      (newRev = b.newRev ↔ ∀ op ∈ (req.branch success).take i, op.Idle b.store.tables.kv) := by
  obtain ⟨acc, hacc, hops⟩ := txnOps_of_failsAt hfail
  refine ⟨b.nextRev acc.keys, ?_, ?_⟩
  · rw [applyEntry, hcmd]
    exact applyTxn_of_reject hcmp hops he
  · obtain ⟨new, hrun, hkeys⟩ := txnRun_of_txnLoop hacc
    rw [← hrun.idle_iff hb.recsOk, show acc.keys = new from hkeys, Batch.nextRev]
    cases new with
    | nil => simp
    | cons k ks => simp

/-- A transaction that reads and then puts under an empty key. -/
def readThenBadPut : TxnRequest where
  success := [.range { key := [97] }, .put { key := [], value := [1] }]

theorem rejected_txn_readThenBadPut :
    ∃ newRev, applyEntry .plain (.start .init) { index := 1, cmd := .txn readThenBadPut } =
        .ok ({ Batch.start .init with newRev := newRev },
          textResult { index := 1, cmd := .txn readThenBadPut } .grpcEmptyKey) ∧
      (newRev = 1 ↔ ∀ op ∈ (readThenBadPut.branch true).take 1, op.Idle DbKv.empty) :=
  @rejected_txn_keeps_revision_iff .plain (fun _ _ => True) (.start .init) .init
    { index := 1, cmd := .txn readThenBadPut } readThenBadPut rfl true rfl 1 .grpcEmptyKey
    ⟨by decide +kernel, by decide +kernel⟩ rfl

/-- Two puts of one key: the second is the duplicate, and the revision the store
is left with is the one of the first. -/
theorem rejected_txn_advances_revision :
    ∃ s ∈ storeAfter [[.txn { success := [.put { key := [97] }, .put { key := [97] }] }]],
      FailsAt .plain (.start .init) [.put { key := [97] }, .put { key := [97] }] 1
        .grpcDuplicateKey ∧
      s.dbMeta.rev ≠ Store.init.dbMeta.rev :=
  ⟨_, Option.get_mem (by decide +kernel), ⟨by decide +kernel, by decide +kernel⟩, by decide +kernel⟩

end Turbokube
