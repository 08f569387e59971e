import Turbokube.Machine.Effect
import Turbokube.Store.Steps

/-!
# Commands as writes

What a successful command did to each table, and that the entries of a batch change
the key-value tables only by the writes of `KvRun`, by compaction, or not at all.
-/

namespace Turbokube

open Encoding Lmdb DbKv

variable {E : Env} {A : PutRequest → Prop}

section Inversion

variable {t t' : Tables} {rev i : Nat} {epoch : UInt64} {affected : List Bytes}

theorem cmdPut_inv {req : PutRequest} {res : PutResponse}
    (h : cmdPut E t rev i epoch req = .ok (t', res, affected)) :
    ∃ prev next patched,
      t.kv.put E rev i req.lease.toUInt64 epoch req.key req.value req.ignoreValue req.ignoreLease =
        .ok (t'.kv, prev, next, patched) ∧
      moveLease t.leaseKey req prev.lease = .ok t'.leaseKey ∧
      t'.lease = t.lease ∧ t'.leaseExp = t.leaseExp ∧ affected = [req.key] := by
  unfold cmdPut at h
  split at h
  · cases h
  · rename_i kv prev next patched hput
    split at h
    · cases h
    · rename_i leaseKey hmove
      obtain ⟨rfl, hrest⟩ := Prod.mk.inj (Except.ok.inj h)
      exact ⟨prev, next, patched, hput, hmove, rfl, rfl, (Prod.mk.inj hrest).2.symm⟩

theorem cmdDeleteRange_inv {req : DeleteRangeRequest} {res : DeleteRangeResponse}
    (h : cmdDeleteRange E t rev i epoch req = .ok (t', res, affected)) :
    ∃ items,
      t.kv.deleteRange E rev i epoch req.key req.rangeEnd = .ok (t'.kv, items) ∧
      detachAll items t.leaseKey = .ok t'.leaseKey ∧
      t'.lease = t.lease ∧ t'.leaseExp = t.leaseExp ∧
      affected = List.replicate items.length [] ++ items.map Keyrecord.key := by
  unfold cmdDeleteRange at h
  split at h
  · cases h
  · rename_i kv items hdel
    split at h
    · cases h
    · rename_i leaseKey hdetach
      split at h
      · cases h
      · obtain ⟨rfl, hrest⟩ := Prod.mk.inj (Except.ok.inj h)
        exact ⟨items, hdel, hdetach, rfl, rfl, (Prod.mk.inj hrest).2.symm⟩

/-- The keys a revocation reports contain those it deleted, which are the live ones. -/
theorem revokeKeys_inv {id : UInt64} {fuel : Nat} {keys keys' : List Bytes} (hok : t.kv.RecsOk)
    (h : revokeKeys rev epoch id fuel t keys = .ok (t', keys')) :
    ∃ ks swept, LiveChain rev 0 epoch ks t.kv ∧ t'.kv = t.kv.tombstones rev 0 epoch ks ∧
      t'.lease = t.lease ∧ t'.leaseExp = t.leaseExp ∧ keys' = keys ++ swept ∧
      ks.Sublist swept ∧ ∀ k ∈ swept, t.kv.Live k → k ∈ ks := by
  induction fuel generalizing t keys with
  | zero => cases h
  | succ fuel ih =>
      rw [revokeKeys] at h
      split at h
      · cases h
      · rename_i leaseKey batch _
        split at h
        · obtain ⟨rfl, rfl⟩ := Prod.mk.inj (Except.ok.inj h)
          exact ⟨[], [], trivial, rfl, rfl, rfl, (List.append_nil _).symm, .slnil,
            fun k hk => absurd hk List.not_mem_nil⟩
        · split at h
          · cases h
          · rename_i kv hbatch
            obtain ⟨ks, hsub, hchain, rfl, hlive⟩ := deleteBatchLoop_opStep hok hbatch
            obtain ⟨ks', swept, hchain', hkv, hlease, hexp, hkeys, hsub', hlive'⟩ :=
              ih (hok.tombstones ks) h
            refine ⟨ks ++ ks', batch ++ swept, hchain.append hchain', ?_, hlease, hexp, ?_,
              hsub.append hsub', fun k hk hl => ?_⟩
            · rw [hkv, tombstones_append]
            · rw [hkeys, List.append_assoc]
            · rw [List.mem_append]
              by_cases hdead : k ∈ ks
              · exact .inl hdead
              · rcases List.mem_append.mp hk with hk | hk
                · exact .inl (hlive k hk hl)
                · refine .inr (hlive' k hk ?_)
                  rwa [Live, tombstones_records_ne hdead]

theorem cmdLeaseRevoke_inv {id val : UInt64} (hok : t.kv.RecsOk)
    (h : cmdLeaseRevoke t rev epoch id = .ok (t', affected, val)) :
    ∃ ks, LiveChain rev 0 epoch ks t.kv ∧ t'.kv = t.kv.tombstones rev 0 epoch ks ∧
      ks.Sublist affected ∧ ∀ k ∈ affected, t.kv.Live k → k ∈ ks := by
  unfold cmdLeaseRevoke at h
  split at h
  · cases h
  · split at h
    · obtain ⟨rfl, hrest⟩ := Prod.mk.inj (Except.ok.inj h)
      obtain ⟨rfl, -⟩ := Prod.mk.inj hrest
      exact ⟨[], trivial, rfl, .slnil, fun k hk => absurd hk List.not_mem_nil⟩
    · split at h
      · cases h
      · rename_i hkeys
        obtain ⟨ks, swept, hchain, hkv, -, -, hswept, hsub, hlive⟩ := revokeKeys_inv hok hkeys
        split at h
        · cases h
        · split at h
          · cases h
          · obtain ⟨rfl, hrest⟩ := Prod.mk.inj (Except.ok.inj h)
            obtain ⟨rfl, -⟩ := Prod.mk.inj hrest
            rw [hswept]
            exact ⟨ks, hchain, hkv, hsub, hlive⟩

theorem renew_kv {id : UInt64} {ttl : Option Int64} (h : renew t epoch id = .ok (t', ttl)) :
    t'.kv = t.kv ∧ t'.leaseKey = t.leaseKey := by
  unfold renew at h
  split at h
  · cases h
  · split at h
    · obtain ⟨rfl, -⟩ := Prod.mk.inj (Except.ok.inj h)
      exact ⟨rfl, rfl⟩
    · obtain ⟨rfl, -⟩ := Prod.mk.inj (Except.ok.inj h)
      exact ⟨rfl, rfl⟩

theorem cmdLeaseKeepAlive_inv {id : Int64} {res : LeaseKeepAliveResponse}
    (h : cmdLeaseKeepAlive t epoch id = .ok (t', res)) :
    ∃ ttl, renew t epoch id.toUInt64 = .ok (t', ttl) := by
  unfold cmdLeaseKeepAlive at h
  split at h
  · cases h
  · rename_i hrenew
    obtain ⟨rfl, -⟩ := Prod.mk.inj (Except.ok.inj h)
    exact ⟨_, hrenew⟩

theorem keepAlive_kv {id : Int64} {res : LeaseKeepAliveResponse}
    (h : cmdLeaseKeepAlive t epoch id = .ok (t', res)) :
    t'.kv = t.kv ∧ t'.leaseKey = t.leaseKey := by
  obtain ⟨_, hrenew⟩ := cmdLeaseKeepAlive_inv h
  exact renew_kv hrenew

theorem keepAliveBatch_cons {id : Int64} {ids ttls : List Int64}
    (h : cmdLeaseKeepAliveBatch epoch (id :: ids) t = .ok (t', ttls)) :
    ∃ t₁ ttl ttls', renew t epoch id.toUInt64 = .ok (t₁, ttl) ∧
      cmdLeaseKeepAliveBatch epoch ids t₁ = .ok (t', ttls') := by
  rw [cmdLeaseKeepAliveBatch] at h
  split at h
  · cases h
  · rename_i hrenew
    split at h
    · cases h
    · rename_i hrest
      obtain ⟨rfl, -⟩ := Prod.mk.inj (Except.ok.inj h)
      exact ⟨_, _, _, hrenew, hrest⟩

theorem keepAliveBatch_kv {ids : List Int64} {ttls : List Int64}
    (h : cmdLeaseKeepAliveBatch epoch ids t = .ok (t', ttls)) :
    t'.kv = t.kv ∧ t'.leaseKey = t.leaseKey := by
  induction ids generalizing t ttls with
  | nil =>
      obtain ⟨rfl, -⟩ := Prod.mk.inj (Except.ok.inj h)
      exact ⟨rfl, rfl⟩
  | cons id ids ih =>
      obtain ⟨_, _, _, hrenew, hrest⟩ := keepAliveBatch_cons h
      obtain ⟨hkv, hkey⟩ := ih hrest
      obtain ⟨hkv', hkey'⟩ := renew_kv hrenew
      exact ⟨hkv.trans hkv', hkey.trans hkey'⟩

/-- A grant leaves the tables alone or puts the new lease. -/
theorem cmdLeaseGrant_inv {leaseID leaseID' val : UInt64} {req : LeaseGrantRequest}
    {res : LeaseGrantResponse}
    (h : cmdLeaseGrant t leaseID epoch req = .ok (t', leaseID', res, val)) :
    t' = t ∨ ∃ item leaseID₁, grantItem t.lease leaseID req = .ok (item, leaseID₁) ∧
      ¬ 0 < item.expires ∧ t' = { t with
        lease := DbLease.put t.lease ⟨item.id, epoch + req.ttl.toUInt64, epoch⟩
        leaseExp := DbLeaseExp.put t.leaseExp ⟨item.id, epoch + req.ttl.toUInt64, epoch⟩ } := by
  unfold cmdLeaseGrant at h
  split at h
  · cases h
  · rename_i hitem
    split at h
    · obtain ⟨rfl, -⟩ := Prod.mk.inj (Except.ok.inj h)
      exact .inl rfl
    · rename_i hnew
      obtain ⟨rfl, -⟩ := Prod.mk.inj (Except.ok.inj h)
      exact .inr ⟨_, _, hitem, hnew, rfl⟩

theorem leaseGrant_kv {leaseID leaseID' val : UInt64} {req : LeaseGrantRequest}
    {res : LeaseGrantResponse}
    (h : cmdLeaseGrant t leaseID epoch req = .ok (t', leaseID', res, val)) :
    t'.kv = t.kv ∧ t'.leaseKey = t.leaseKey := by
  rcases cmdLeaseGrant_inv h with rfl | ⟨_, _, -, -, rfl⟩ <;> exact ⟨rfl, rfl⟩

end Inversion

/-- Every put among the operations meets `P` in the tables it is applied to. -/
def TxnMeets (E : Env) (P : Tables → PutRequest → Prop) (rev : Nat) (epoch : UInt64) :
    List RequestOp → Nat → Tables → Prop
  | [], _, _ => True
  | .put req :: ops, i, t =>
      P t req ∧
        match cmdPut E t rev i epoch req with
        | .error _ => True
        | .ok (t', _, _) => TxnMeets E P rev epoch ops (i + 1) t'
  | .deleteRange req :: ops, i, t =>
      match cmdDeleteRange E t rev i epoch req with
      | .error _ => True
      | .ok (t', _, _) => TxnMeets E P rev epoch ops (i + 1) t'
  | .range _ :: ops, i, t => TxnMeets E P rev epoch ops (i + 1) t
  | .txn :: ops, i, t => TxnMeets E P rev epoch ops (i + 1) t
  | .none :: ops, i, t => TxnMeets E P rev epoch ops (i + 1) t

instance TxnMeets.decidable {P : Tables → PutRequest → Prop} [∀ t req, Decidable (P t req)]
    (rev : Nat) (epoch : UInt64) :
    (ops : List RequestOp) → (i : Nat) → (t : Tables) → Decidable (TxnMeets E P rev epoch ops i t)
  | [], _, _ => .isTrue trivial
  | .put req :: ops, i, t => by
      unfold TxnMeets
      cases cmdPut E t rev i epoch req with
      | error e => exact inferInstanceAs (Decidable (P t req ∧ True))
      | ok r =>
          have := TxnMeets.decidable (P := P) rev epoch ops (i + 1) r.1
          exact inferInstanceAs (Decidable (P t req ∧ TxnMeets E P rev epoch ops (i + 1) r.1))
  | .deleteRange req :: ops, i, t => by
      unfold TxnMeets
      cases cmdDeleteRange E t rev i epoch req with
      | error e => exact .isTrue trivial
      | ok r => exact TxnMeets.decidable rev epoch ops (i + 1) r.1
  | .range _ :: ops, i, t => TxnMeets.decidable rev epoch ops (i + 1) t
  | .txn :: ops, i, t => TxnMeets.decidable rev epoch ops (i + 1) t
  | .none :: ops, i, t => TxnMeets.decidable rev epoch ops (i + 1) t

/-- A transaction that succeeds is its loop. -/
theorem txnOps_inv {revMin : UInt64} {rev : Nat} {epoch : UInt64} {ops : List RequestOp}
    {t t' : Tables} {res : List ResponseOp} {affected : List Bytes}
    (h : txnOps E t revMin rev epoch ops = (t', res, affected, none)) :
    txnLoop E revMin rev epoch ops 0 ⟨t, [], []⟩ = (⟨t', res, affected⟩, none) := by
  unfold txnOps at h
  split at h
  · simp at h
  · rename_i acc hloop
    simp only [Prod.mk.injEq] at h
    obtain ⟨rfl, rfl, rfl, -⟩ := h
    exact hloop

/-- A transaction that fails reports the keys its loop has collected. -/
theorem txnOps_failed {revMin : UInt64} {rev : Nat} {epoch : UInt64} {ops : List RequestOp}
    {t t' : Tables} {res : List ResponseOp} {affected : List Bytes} {e : Err}
    (h : txnOps E t revMin rev epoch ops = (t', res, affected, some e)) :
    ∃ acc, txnLoop E revMin rev epoch ops 0 ⟨t, [], []⟩ = (acc, some e) ∧ acc.keys = affected := by
  unfold txnOps at h
  split at h
  · rename_i acc e' hloop
    simp only [Prod.mk.injEq, Option.some.injEq] at h
    obtain ⟨-, -, hkeys, rfl⟩ := h
    exact ⟨acc, hloop, hkeys⟩
  · simp at h

/-- An operation of a transaction that returns, with the keys it affects. -/
inductive TxnStep (E : Env) (rev : Nat) (epoch : UInt64) (i : Nat) (t : Tables) :
    RequestOp → Tables → List Bytes → Prop where
  | put {req : PutRequest} {t' : Tables} {res : PutResponse} {affected : List Bytes}
      (h : cmdPut E t rev i epoch req = .ok (t', res, affected)) :
      TxnStep E rev epoch i t (.put req) t' affected
  | deleteRange {req : DeleteRangeRequest} {t' : Tables} {res : DeleteRangeResponse}
      {affected : List Bytes}
      (h : cmdDeleteRange E t rev i epoch req = .ok (t', res, affected)) :
      TxnStep E rev epoch i t (.deleteRange req) t' affected
  | range {req : RangeRequest} : TxnStep E rev epoch i t (.range req) t []
  | txn : TxnStep E rev epoch i t .txn t []
  | none : TxnStep E rev epoch i t .none t []

/-- The operations of a transaction from number `i` on. -/
inductive TxnRun (E : Env) (rev : Nat) (epoch : UInt64) :
    Nat → List RequestOp → Tables → Tables → List Bytes → Prop where
  | nil {i : Nat} {t : Tables} : TxnRun E rev epoch i [] t t []
  | cons {i : Nat} {op : RequestOp} {ops : List RequestOp} {t t₁ t' : Tables}
      {affected new : List Bytes} (hop : TxnStep E rev epoch i t op t₁ affected)
      (hops : TxnRun E rev epoch (i + 1) ops t₁ t' new) :
      TxnRun E rev epoch i (op :: ops) t t' (affected ++ new)

section TxnRun

variable {revMin epoch : UInt64} {rev i : Nat} {op : RequestOp} {ops : List RequestOp}
  {t t' : Tables} {affected : List Bytes}

theorem txnRun_of_txnLoop {acc acc' : TxnAcc}
    (h : txnLoop E revMin rev epoch ops i acc = (acc', none)) :
    ∃ new, TxnRun E rev epoch i ops acc.tables acc'.tables new ∧ acc'.keys = acc.keys ++ new := by
  induction ops generalizing i acc with
  | nil =>
      obtain ⟨rfl, -⟩ := Prod.mk.inj h
      exact ⟨[], .nil, (List.append_nil _).symm⟩
  | cons op ops ih =>
      -- the rest of the loop, after an operation that affected some keys
      have hrest : ∀ (t : Tables) (res : List ResponseOp) (affected : List Bytes),
          TxnStep E rev epoch i acc.tables op t affected →
          txnLoop E revMin rev epoch ops (i + 1) ⟨t, res, acc.keys ++ affected⟩ = (acc', none) →
          ∃ new, TxnRun E rev epoch i (op :: ops) acc.tables acc'.tables new ∧
            acc'.keys = acc.keys ++ new := by
        intro t res affected hop hloop
        obtain ⟨new, hrun, hkeys⟩ := ih hloop
        exact ⟨affected ++ new, .cons hop hrun, by rw [hkeys, List.append_assoc]⟩
      have hskip := fun res => hrest acc.tables res []
      rw [List.append_nil] at hskip
      cases op with
      | put req =>
          rw [txnLoop] at h
          split at h
          · cases h
          · rename_i hput
            exact hrest _ _ _ (.put hput) h
      | deleteRange req =>
          rw [txnLoop] at h
          split at h
          · cases h
          · rename_i hdel
            exact hrest _ _ _ (.deleteRange hdel) h
      | range req =>
          rw [txnLoop] at h
          split at h
          · cases h
          · exact hskip _ .range h
      | txn => exact hskip _ .txn h
      | none => exact hskip _ .none h

theorem txnRun_of_txnOps {res : List ResponseOp}
    (h : txnOps E t revMin rev epoch ops = (t', res, affected, none)) :
    TxnRun E rev epoch 0 ops t t' affected := by
  obtain ⟨new, hrun, hkeys⟩ := txnRun_of_txnLoop (txnOps_inv h)
  rw [show affected = new from hkeys]
  exact hrun

/-- What each operation of a transaction keeps, the transaction keeps. -/
theorem TxnRun.keeps {I : Tables → Prop}
    (hstep : ∀ {i op t t' affected}, TxnStep E rev epoch i t op t' affected → I t → I t')
    (h : TxnRun E rev epoch i ops t t' affected) (hI : I t) : I t' := by
  induction h with
  | nil => exact hI
  | cons hop _ ih => exact ih (hstep hop hI)

/-- An operation writes as one, and nothing if it affects no key. -/
theorem TxnStep.opStep (hok : t.kv.RecsOk) (hA : ∀ req, op = .put req → A req)
    (h : TxnStep E rev epoch i t op t' affected) :
    OpStep E A rev i t.kv t'.kv ∧ (affected = [] → t'.kv = t.kv) := by
  have hidle : OpStep E A rev i t.kv (t.kv.tombstones rev i epoch []) := .tombs trivial
  cases h with
  | put hput =>
      obtain ⟨prev, next, patched, hkv, -, -, -, rfl⟩ := cmdPut_inv hput
      exact ⟨.put (hA _ rfl) hkv, fun hnil => absurd hnil (List.cons_ne_nil _ _)⟩
  | deleteRange hdel =>
      obtain ⟨items, hkv, -, -, -, rfl⟩ := cmdDeleteRange_inv hdel
      obtain ⟨ks, hchain, htombs, hks⟩ := deleteRange_opStep hok hkv
      rw [htombs]
      refine ⟨.tombs hchain, fun hnil => ?_⟩
      have hitems : items = [] := by simpa using (List.append_eq_nil_iff.mp hnil).2
      rw [← hks, hitems]
      rfl
  | range => exact ⟨hidle, fun _ => rfl⟩
  | txn => exact ⟨hidle, fun _ => rfl⟩
  | none => exact ⟨hidle, fun _ => rfl⟩

theorem TxnRun.opSteps (hok : t.kv.RecsOk) (hA : ∀ req, .put req ∈ ops → A req)
    (h : TxnRun E rev epoch i ops t t' affected) :
    OpSteps E A rev i (i + ops.length) t.kv t'.kv ∧ (affected = [] → t'.kv = t.kv) := by
  induction h with
  | nil => exact ⟨.refl (Nat.le_add_right _ _), fun _ => rfl⟩
  | @cons i op ops t t₁ t' affected new hop _ ih =>
      obtain ⟨hstep, hsame⟩ := hop.opStep hok (fun req hreq => hA req (hreq ▸ List.mem_cons_self))
      obtain ⟨hsteps, hsame'⟩ := ih (hok.opStep hstep)
        (fun req hreq => hA req (List.mem_cons_of_mem _ hreq))
      rw [List.length_cons, show i + (ops.length + 1) = i + 1 + ops.length by omega]
      refine ⟨.trans (.step (.refl le_rfl) hstep (Nat.lt_succ_self i)) hsteps, fun hnil => ?_⟩
      obtain ⟨hone, hrest⟩ := List.append_eq_nil_iff.mp hnil
      rw [hsame' hrest, hsame hone]

theorem revoke_same {id val : UInt64} (hok : t.kv.RecsOk)
    (h : cmdLeaseRevoke t rev epoch id = .ok (t', [], val)) : t'.kv = t.kv := by
  obtain ⟨ks, -, htombs, hsub, -⟩ := cmdLeaseRevoke_inv hok h
  rw [htombs, List.sublist_nil.mp hsub]
  rfl

/-- A revocation writes as one operation. -/
theorem revoke_opStep {id val : UInt64} (hok : t.kv.RecsOk)
    (h : cmdLeaseRevoke t rev epoch id = .ok (t', affected, val)) :
    OpStep E A rev 0 t.kv t'.kv := by
  obtain ⟨ks, hchain, hkv, -⟩ := cmdLeaseRevoke_inv hok h
  rw [hkv]
  exact .tombs hchain

end TxnRun

/-- The conditions a plain put is accepted under, as far as they concern the
request. -/
def PutRequest.Plain (req : PutRequest) : Prop :=
  (req.ignoreLease = true → req.lease = 0) ∧ (req.ignoreValue = true → req.value = [])

/-- What is asked of the puts of a command. -/
def Cmd.PutsMeet (A : PutRequest → Prop) : Cmd → Prop
  | .put req => req.Plain → A req
  | .txn req => ∀ p, .put p ∈ req.success ∨ .put p ∈ req.failure → A p
  | _ => True

/-- A transaction has at most `n` operations in either branch. -/
def Cmd.OpsAtMost (n : Nat) : Cmd → Prop
  | .txn req => req.success.length ≤ n ∧ req.failure.length ≤ n
  | _ => True

instance (n : Nat) (cmd : Cmd) : Decidable (cmd.OpsAtMost n) := by
  cases cmd <;> unfold Cmd.OpsAtMost <;> infer_instance

instance (req : PutRequest) : Decidable req.Plain := by
  unfold PutRequest.Plain
  infer_instance

/-- The put of an operation, if it is one. -/
def RequestOp.put? : RequestOp → Option PutRequest
  | .put req => some req
  | _ => Option.none

theorem mem_put?_iff {op : RequestOp} {req : PutRequest} : req ∈ op.put? ↔ op = .put req := by
  cases op <;> simp [RequestOp.put?]

theorem forall_puts_iff {ops : List RequestOp} :
    (∀ op ∈ ops, ∀ req ∈ op.put?, A req) ↔ ∀ req, .put req ∈ ops → A req := by
  simp only [mem_put?_iff]
  exact ⟨fun h req hreq => h _ hreq req rfl, fun h op hop req heq => h req (heq ▸ hop)⟩

instance Cmd.PutsMeet.decidable [DecidablePred A] (cmd : Cmd) : Decidable (cmd.PutsMeet A) :=
  match cmd with
  | .put req => inferInstanceAs (Decidable (req.Plain → A req))
  | .txn req =>
      decidable_of_iff (∀ op ∈ req.success ++ req.failure, ∀ req ∈ op.put?, A req) (by
        rw [forall_puts_iff]
        simp only [List.mem_append]
        rfl)
  | .deleteRange _ | .compact _ | .leaseGrant _ | .leaseRevoke _ | .leaseKeepAlive _
  | .leaseKeepAliveBatch _ | .tick _ | .term _ | .invalid | .unknown | .empty => .isTrue trivial

theorem branch_length_le {req : TxnRequest} {n : Nat} (h : (Cmd.txn req).OpsAtMost n)
    (success : Bool) : (req.branch success).length ≤ n := by
  cases success
  · exact h.2
  · exact h.1

theorem branch_meets {req : TxnRequest} (h : (Cmd.txn req).PutsMeet A) (success : Bool)
    {p : PutRequest} (hp : .put p ∈ req.branch success) : A p := by
  cases success
  · exact h p (.inr hp)
  · exact h p (.inl hp)

section Run

variable {n : Nat}

theorem kvRun_of_ops {db db' : DbKv} {b : Batch} {affected : List Bytes}
    (hops : OpSteps E A (b.newRev + 1) 0 n db db') (hsame : affected = [] → db' = db) :
    KvRun E A n db b.newRev db' (b.nextRev affected) := by
  rw [Batch.nextRev]
  cases affected with
  | nil =>
      rw [hsame rfl]
      exact .idle le_rfl
  | cons k ks => exact .cmd (.idle le_rfl) hops (Nat.lt_succ_self _)

theorem kvRun_of_eq {db db' : DbKv} {r : Nat} (h : db' = db) : KvRun E A n db r db' r := by
  rw [h]
  exact .idle le_rfl

theorem revoke_kvRun (hn : 1 ≤ n) {epoch id val : UInt64} {t t' : Tables} {r : Nat}
    {affected : List Bytes} (hok : t.kv.RecsOk)
    (h : cmdLeaseRevoke t (r + 1) epoch id = .ok (t', affected, val)) :
    KvRun E A n t.kv r t'.kv (revAfter r affected) := by
  cases affected with
  | nil =>
      rw [revoke_same hok h]
      exact .idle le_rfl
  | cons k ks =>
      exact .cmd (.idle le_rfl) (.step (.refl le_rfl) (revoke_opStep hok h) hn)
        (Nat.lt_succ_self r)

theorem expireLoop_kvRun (hn : 1 ≤ n) {epoch : UInt64} {l : List (Bytes × Bytes)} {t t' : Tables}
    {newRev newRev' : Nat} {keys keys' : List Bytes} (hok : t.kv.RecsOk)
    (h : expireLoop epoch l t newRev keys = .ok (t', newRev', keys')) :
    KvRun E A n t.kv newRev t'.kv newRev' := by
  obtain ⟨notes, hexp, -⟩ := expires_of_expireLoop h
  clear h
  induction hexp with
  | done => exact .idle le_rfl
  | revoke _ _ _ hrevoke _ ih =>
      have hrun := revoke_kvRun (E := E) (A := A) hn hok hrevoke
      exact hrun.trans (ih (hok.kvRun hrun))

/-- An entry compacts, or it changes the key-value tables by writes of commands. -/
theorem Effect.kvRun {b b' : Batch} {cmd : Cmd} (hn : 1 ≤ n) (hops : cmd.OpsAtMost n)
    (hA : cmd.PutsMeet A) (hok : b.store.tables.kv.RecsOk) (h : Effect E b cmd b') :
    KvRun E A n b.store.tables.kv b.newRev b'.store.tables.kv b'.newRev ∨
      ∃ revision last, cmd = .compact revision ∧ b'.newRev = b.newRev ∧
        b.store.tables.kv.compact E revision.toUInt64 = .ok (b'.store.tables.kv, last) := by
  cases h with
  | keep => exact .inl (.idle le_rfl)
  | put haccept hput =>
      obtain ⟨hstep, hsame⟩ := (TxnStep.put hput).opStep hok (fun req hreq => by
        cases hreq
        exact hA ⟨haccept.noLease, haccept.noValue⟩)
      exact .inl (kvRun_of_ops (.step (.refl le_rfl) hstep hn) hsame)
  | deleteRange hdel =>
      obtain ⟨hstep, hsame⟩ := (TxnStep.deleteRange hdel).opStep hok
        (fun _ => RequestOp.noConfusion)
      exact .inl (kvRun_of_ops (.step (.refl le_rfl) hstep hn) hsame)
  | compact hcompact => exact .inr ⟨_, _, rfl, rfl, hcompact⟩
  | @txn req success _ _ _ hcmp htxn =>
      obtain ⟨hsteps, hsame⟩ :=
        (txnRun_of_txnOps htxn).opSteps hok (fun p hp => branch_meets hA success hp)
      have hlen := branch_length_le hops success
      exact .inl (kvRun_of_ops (hsteps.mono (by omega)) hsame)
  | txnFailed _ _ _ => exact .inl (.idle (b.le_nextRev _))
  | leaseGrant hgrant => exact .inl (kvRun_of_eq (leaseGrant_kv hgrant).1)
  | leaseRevoke hrevoke =>
      refine .inl (kvRun_of_ops (.step (.refl le_rfl) (revoke_opStep hok hrevoke) hn) ?_)
      rintro rfl
      exact revoke_same hok hrevoke
  | leaseKeepAlive halive => exact .inl (kvRun_of_eq (keepAlive_kv halive).1)
  | leaseKeepAliveBatch halive => exact .inl (kvRun_of_eq (keepAliveBatch_kv halive).1)
  | tick hterm hloop => exact .inl (expireLoop_kvRun hn hok hloop)
  | term _ => exact .inl (.idle le_rfl)

end Run

end Turbokube
