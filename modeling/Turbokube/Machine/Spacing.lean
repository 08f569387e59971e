import Turbokube.Machine.Histories
import Turbokube.Store.Spacing

/-!
# The versions a run writes are spaced

Every command writes at a revision of its own, so only a transaction can give a key two
versions of one revision.  With one write per key and transaction it can do so in one way:
it deletes the key and puts it again (`RequestOp.rewrites`).
-/

namespace Turbokube

open Encoding Lmdb DbKv

/-- The operation deletes the key if it is live. -/
def RequestOp.deletes : RequestOp → Bytes → Bool
  | .deleteRange req, k => decide (req.key ≤ k) && deleteRangeHas req.key req.rangeEnd k
  | _, _ => false

/-- The operation puts a key that an earlier one deletes. -/
def RequestOp.rewrites (op earlier : RequestOp) : Bool :=
  match op with
  | .put req => earlier.deletes req.key
  | _ => false

/-- No transaction puts a key it has deleted before. -/
def Cmd.NoRewrite : Cmd → Prop
  | .txn req =>
      req.success.Pairwise (fun a b => b.rewrites a = false) ∧
        req.failure.Pairwise (fun a b => b.rewrites a = false)
  | _ => True

instance (cmd : Cmd) : Decidable cmd.NoRewrite :=
  match cmd with
  | .txn req =>
      inferInstanceAs (Decidable (req.success.Pairwise (fun a b => b.rewrites a = false) ∧
        req.failure.Pairwise (fun a b => b.rewrites a = false)))
  | .term _ | .tick _ | .put _ | .deleteRange _ | .compact _ | .leaseGrant _ | .leaseRevoke _
  | .leaseKeepAlive _ | .leaseKeepAliveBatch _ | .invalid | .unknown | .empty => .isTrue trivial

variable {E : Env} {T S : Prop} {t t' : Tables} {epoch : UInt64} {r i : Nat}

theorem branch_noRewrite {req : TxnRequest} (h : (Cmd.txn req).NoRewrite) (success : Bool) :
    (req.branch success).Pairwise (fun a b => b.rewrites a = false) := by
  cases success
  · exact h.2
  · exact h.1

namespace Spaced

variable {db db' : DbKv} {ch : Bytes → List Version} {lo hi rev : Nat}

/-- The records a deletion finds are of earlier revisions. -/
theorem old_of_deleteRange (hrep : db.Rep E S ch) (hlog : LogOk db.log lo hi)
    (hmulti : E.flags.txnMultiWriteEnabled = false) (hlo : lo ≤ (rev + 1) * 4096)
    (hhi : hi ≤ (rev + 1) * 4096) {key rangeEnd : Bytes} {items : List Keyrecord}
    (hdel : db.deleteRange E rev i epoch key rangeEnd = .ok (db', items)) :
    ∀ k ∈ items.map Keyrecord.key, ∀ v ∈ (versions db.log k).head?, v.rev.isdel = false →
      v.rev.upper.toNat < rev := by
  intro k hk v hv _
  rw [deleteRange_eq hrep.recsOk (validKey_of_deleteRange hdel)] at hdel
  split at hdel
  · cases hdel
  · rename_i hany
    obtain ⟨-, rfl⟩ := Prod.mk.inj (Except.ok.inj hdel)
    obtain ⟨kr, hkr, rfl⟩ := List.mem_map.mp hk
    have hdup : ¬ isDup E rev kr = true := fun hdup => hany (List.any_eq_true.mpr ⟨kr, hkr, hdup⟩)
    obtain ⟨hlive, -⟩ := (mem_deleteTargets hrep.recsOk).mp hkr
    have hhead := (liveRec_eq_some_iff.mp hlive).1
    obtain ⟨tail, htail⟩ := List.head?_eq_some_iff.mp (Option.mem_def.mp hv)
    have hmem : v ∈ versions db.log kr.key := by
      rw [htail]
      exact List.mem_cons_self
    -- the newest record is that of the newest version
    have hrev : kr.rev = v.rev := by
      rw [hrep.records_eq hlog, List.head?_map, Option.map_eq_some_iff] at hhead
      obtain ⟨x, hx, hxkr⟩ := hhead
      obtain ⟨rest, hrest⟩ := hrep.kept kr.key
      have hsame : (versions db.log kr.key).head? = some x := by
        rw [← hrest, List.head?_append, hx]
        rfl
      obtain rfl := Option.some.inj (hsame.symm.trans hv)
      rw [← hxkr]
      rfl
    have hne : v.rev.upper.toNat ≠ rev := by
      intro heq
      refine hdup ?_
      simp [isDup, hrev, hmulti, ← heq]
    have := hlog.upper_le hlo hhi hmem
    omega

/-- Tombstones of a command of its own, whatever they are for. -/
theorem tombstones_fresh (h : Spaced T db.log) (hver : db.Versioned E S False ((r + 1) * 4096))
    (hr : r + 1 < 2 ^ 52) {ks : List Bytes} (hchain : LiveChain (r + 1) 0 epoch ks db) :
    Spaced T (db.tombstones (r + 1) 0 epoch ks).log := by
  obtain ⟨ch, hrep, hlog, -⟩ := hver
  refine DbKv.Spaced.tombstones h hrep (hlog.mono le_rfl (by omega)) (Nat.succ_pos r) hr
    (by decide) (by omega) rfl hchain (fun k _ v hv _ => ?_)
  have := hlog.upper_le le_rfl le_rfl (List.mem_of_head? hv)
  omega

/-- The revocations of a tick. -/
theorem expireLoop {l : List (Bytes × Bytes)} {r' : Nat} {keys keys' : List Bytes}
    (hr : r' < 2 ^ 52) (hver : t.kv.Versioned E S False ((r + 1) * 4096)) (h : Spaced T t.kv.log)
    (hloop : Turbokube.expireLoop epoch l t r keys = .ok (t', r', keys')) :
    Spaced T t'.kv.log := by
  obtain ⟨notes, hexp, -⟩ := expires_of_expireLoop hloop
  clear hloop
  induction hexp with
  | done => exact h
  | @revoke t t₁ r _ _ _ _ affected _ _ _ _ hrevoke hrest ih =>
      obtain ⟨ks, hchain, hkv, hsub, -⟩ := cmdLeaseRevoke_inv hver.recsOk hrevoke
      have hle := hrest.le
      by_cases hnil : affected = []
      · rw [hnil] at hsub
        rw [List.sublist_nil.mp hsub] at hkv
        rw [revAfter, if_pos hnil, hkv] at ih
        exact ih hver h
      · rw [revAfter, if_neg hnil] at hle ih
        have hr₁ : r + 1 < 2 ^ 52 := hle.trans_lt hr
        have hrun := revoke_kvRun (E := E) (A := fun _ => False) (n := 1024) (by decide)
          hver.recsOk hrevoke
        rw [revAfter, if_neg hnil] at hrun
        refine ih (hver.kvRun (fun _ hreq => hreq.elim) hr₁ hrun) ?_
        rw [hkv]
        exact tombstones_fresh h hver hr₁ hchain

end Spaced

/-- The tables before operation `i` of a transaction of revision `r + 1`.  The deletions of that
revision are among the operations `before`, which are done. -/
structure SpacedTxn (E : Env) (T : Prop) (r i : Nat) (before : List RequestOp) (db : DbKv) :
    Prop where
  versioned : db.Versioned E False False ((r + 1) * 4096 + i * 4)
  spaced : Spaced T db.log
  deleted : ∀ k, ∀ v ∈ (versions db.log k).head?, v.rev.isdel = true →
    v.rev.upper.toNat < r + 1 ∨ ∃ op ∈ before, op.deletes k = true

namespace SpacedTxn

variable {before ops : List RequestOp} {op : RequestOp} {affected : List Bytes} {db : DbKv}

theorem start (hver : db.Versioned E False False ((r + 1) * 4096)) (h : Spaced T db.log) :
    SpacedTxn E T r 0 [] db := by
  refine ⟨hver.mono (by omega), h, fun k v hv _ => .inl ?_⟩
  obtain ⟨ch, -, hlog, -⟩ := hver
  have := hlog.upper_le le_rfl le_rfl (List.mem_of_head? hv)
  omega

theorem deleted_append (h : SpacedTxn E T r i before db) {k : Bytes} {v : Version}
    (hv : v ∈ (versions db.log k).head?) (hdel : v.rev.isdel = true) :
    v.rev.upper.toNat < r + 1 ∨ ∃ op' ∈ before ++ [op], op'.deletes k = true :=
  (h.deleted k v hv hdel).imp_right
    (Exists.imp (fun _ hop => ⟨List.mem_append_left _ hop.1, hop.2⟩))

/-- An operation that leaves the tables alone. -/
theorem skip (h : SpacedTxn E T r i before db) : SpacedTxn E T r (i + 1) (before ++ [op]) db :=
  ⟨h.versioned.mono (by omega), h.spaced, fun _ _ => h.deleted_append⟩

theorem put {req : PutRequest} {res : PutResponse} (h : SpacedTxn E T r i before t.kv)
    (hmulti : E.flags.txnMultiWriteEnabled = false) (hr : r + 1 < 2 ^ 52) (hi : i < 1024)
    (hT : T → ∀ op ∈ before, op.deletes req.key = false)
    (hput : cmdPut E t (r + 1) i epoch req = .ok (t', res, affected)) :
    SpacedTxn E T r (i + 1) (before ++ [.put req]) t'.kv := by
  obtain ⟨prev, next, patched, hkv, -, -, -, -⟩ := cmdPut_inv hput
  obtain ⟨ch, hrep, hlog, -⟩ := id h.versioned
  refine ⟨h.versioned.opStep (A := fun _ => True) (fun _ _ hfalse => hfalse.elim) (Nat.succ_pos r)
    hr hi (.put trivial hkv), ?_, fun k v hv hdel => ?_⟩
  · refine DbKv.Spaced.put h.spaced hrep hlog hmulti hr hi (by omega) (by omega) hkv
      (fun ht v hv hdel => (h.deleted req.key v hv hdel).resolve_right ?_)
    rintro ⟨op', hop', hdeletes⟩
    rw [hT ht op' hop'] at hdeletes
    cases hdeletes
  · rw [(put_tables hkv).2.2.1] at hv
    by_cases hk : k = req.key
    · -- the newest version of the key is the one of this put
      subst hk
      rw [versions_append_self _ ⟨r + 1, revAt (r + 1) i false, req.key,
        .put req.value req.lease.toUInt64 req.ignoreValue req.ignoreLease⟩,
        List.head?_cons, Option.mem_some_iff] at hv
      subst hv
      simp [Write.version] at hdel
    · rw [versions_append_ne _ hk] at hv
      exact h.deleted_append hv hdel

theorem deleteRange {req : DeleteRangeRequest} {res : DeleteRangeResponse}
    (h : SpacedTxn E T r i before t.kv) (hmulti : E.flags.txnMultiWriteEnabled = false)
    (hr : r + 1 < 2 ^ 52) (hi : i < 1024)
    (hdel : cmdDeleteRange E t (r + 1) i epoch req = .ok (t', res, affected)) :
    SpacedTxn E T r (i + 1) (before ++ [.deleteRange req]) t'.kv := by
  obtain ⟨items, hkv, -, -, -, -⟩ := cmdDeleteRange_inv hdel
  obtain ⟨ch, hrep, hlog, -⟩ := id h.versioned
  have hold := Spaced.old_of_deleteRange hrep hlog hmulti (by omega) (by omega) hkv
  obtain ⟨hitems, -⟩ := deleteRange_inv hrep.recsOk hkv
  obtain ⟨ks, hchain, htombs, hks⟩ := deleteRange_opStep hrep.recsOk hkv
  rw [hks] at hold
  rw [htombs]
  refine ⟨h.versioned.opStep (A := fun _ => True) (fun _ _ hfalse => hfalse.elim) (Nat.succ_pos r)
    hr hi (.tombs hchain), DbKv.Spaced.tombstones h.spaced hrep
    (hlog.mono le_rfl (Nat.le_add_right _ 3)) (Nat.succ_pos r) hr hi rfl rfl hchain hold,
    fun k v hv hisdel => ?_⟩
  rcases versions_tombstones t.kv (r + 1) i epoch ks k with ⟨-, hsame⟩ | ⟨hk, -⟩
  · rw [hsame] at hv
    exact h.deleted_append hv hisdel
  · refine .inr ⟨.deleteRange req, List.mem_append_right _ (List.mem_singleton_self _), ?_⟩
    rw [← hks] at hk
    obtain ⟨kr, hkr, rfl⟩ := List.mem_map.mp hk
    rw [hitems] at hkr
    obtain ⟨-, hle, hin⟩ := (mem_deleteTargets hrep.recsOk).mp hkr
    simp [RequestOp.deletes, hle, hin]

/-- The operations of a transaction. -/
theorem run (hmulti : E.flags.txnMultiWriteEnabled = false) (hr : r + 1 < 2 ^ 52)
    (hn : i + ops.length ≤ 1024) (h : SpacedTxn E T r i before t.kv)
    (hT : T → (before ++ ops).Pairwise (fun a b => b.rewrites a = false))
    (hrun : TxnRun E (r + 1) epoch i ops t t' affected) : Spaced T t'.kv.log := by
  induction hrun generalizing before with
  | nil => exact h.spaced
  | @cons i op ops t t₁ t' _ _ hop _ ih =>
      rw [List.length_cons] at hn
      have hnext : SpacedTxn E T r (i + 1) (before ++ [op]) t₁.kv := by
        cases hop with
        | @put req _ _ _ hput =>
            refine h.put hmulti hr (by omega) (fun ht op' hop' => ?_) hput
            exact (List.pairwise_append.mp (hT ht)).2.2 op' hop' (.put req) List.mem_cons_self
        | deleteRange hdel => exact h.deleteRange hmulti hr (by omega) hdel
        | _ => exact h.skip
      refine ih (by omega) hnext (fun ht => ?_)
      rw [List.append_assoc]
      exact hT ht

end SpacedTxn

variable {b b' : Batch} {cmd : Cmd}

/-- A command that affected no key wrote nothing. -/
theorem spaced_nextRev {db db' : DbKv} {affected : List Bytes} (hr : b.nextRev affected < 2 ^ 52)
    (hsame : affected = [] → db' = db) (h : Spaced T db.log)
    (hnew : b.newRev + 1 < 2 ^ 52 → Spaced T db'.log) : Spaced T db'.log := by
  cases affected with
  | nil =>
      rw [hsame rfl]
      exact h
  | cons k ks => exact hnew hr

theorem Effect.spaced (hmulti : E.flags.txnMultiWriteEnabled = false)
    (hops : cmd.OpsAtMost 1024) (hT : T → cmd.NoRewrite) (hr : b'.newRev < 2 ^ 52)
    (hver : b.store.tables.kv.Versioned E False False ((b.newRev + 1) * 4096))
    (h : Spaced T b.store.tables.kv.log) (heff : Effect E b cmd b') :
    Spaced T b'.store.tables.kv.log := by
  have hok := hver.recsOk
  have hidle : ∀ {db : DbKv}, db = b.store.tables.kv → Spaced T db.log := by
    rintro db rfl
    exact h
  have hstart := SpacedTxn.start hver h
  cases heff with
  | keep => exact h
  | put haccept hput =>
      refine spaced_nextRev hr
        ((TxnStep.put hput).opStep (A := fun _ => True) hok (fun _ _ => trivial)).2 h
        (fun hr₁ => ?_)
      exact (hstart.put hmulti hr₁ (by decide) (fun _ op hop => absurd hop List.not_mem_nil)
        hput).spaced
  | deleteRange hdel =>
      refine spaced_nextRev hr
        ((TxnStep.deleteRange hdel).opStep (A := fun _ => True) hok (fun _ _ => trivial)).2 h
        (fun hr₁ => ?_)
      exact (hstart.deleteRange hmulti hr₁ (by decide) hdel).spaced
  | compact hcompact =>
      simp only [Batch.setTables, Batch.setMeta]
      rw [(compact_shrunk hcompact).log]
      exact h
  | @txn req success t res affected hcmp htxn =>
      have hrun := txnRun_of_txnOps htxn
      refine spaced_nextRev hr (hrun.opSteps (A := fun _ => True) hok (fun _ _ => trivial)).2 h
        (fun hr₁ => ?_)
      exact hstart.run hmulti hr₁ (by rw [Nat.zero_add]; exact branch_length_le hops success)
        (fun ht => branch_noRewrite (hT ht) success) hrun
  | txnFailed _ _ _ => exact h
  | leaseGrant hgrant => exact hidle (leaseGrant_kv hgrant).1
  | @leaseRevoke id t affected val hrevoke =>
      refine spaced_nextRev hr (fun hnil => ?_) h (fun hr₁ => ?_)
      · subst hnil
        exact revoke_same hok hrevoke
      · obtain ⟨ks, hchain, hkv, -⟩ := cmdLeaseRevoke_inv hok hrevoke
        simp only [Batch.setTables, hkv]
        exact Spaced.tombstones_fresh h hver hr₁ hchain
  | leaseKeepAlive halive => exact hidle (keepAlive_kv halive).1
  | leaseKeepAliveBatch halive => exact hidle (keepAliveBatch_kv halive).1
  | tick _ hloop => exact Spaced.expireLoop hr hver h hloop
  | term _ => exact h

theorem Effect.noShort (hputs : cmd.PutsMeet PutRequest.LongEnough)
    (hok : b.store.tables.kv.RecsOk) (h : NoShort b.store.tables.kv.log)
    (heff : Effect E b cmd b') : NoShort b'.store.tables.kv.log := by
  obtain ⟨n, hn, hops⟩ := opsAtMost_longest cmd
  rcases heff.kvRun hn hops hputs hok with hrun | ⟨_, _, _, _, hcompact⟩
  · exact DbKv.NoShort.kvRun (fun _ hreq => hreq) h hrun
  · rw [(compact_shrunk hcompact).log]
    exact h

theorem Reached.noShort {Q : Batch → Cmd → Prop}
    (hputs : ∀ b cmd, Q b cmd → cmd.PutsMeet PutRequest.LongEnough) (h : Reached E Q b) :
    NoShort b.store.tables.kv.log := by
  have hinv := h.inv (I := fun t _ _ => t.kv.RecsOk ∧ NoShort t.kv.log) ⟨.empty, .nil⟩ ?_
  · exact hinv.2
  · intro b b' cmd ⟨hok, hshort⟩ hQ heff
    refine ⟨?_, heff.noShort (hputs b cmd hQ) hok hshort⟩
    obtain ⟨n, hn, hops⟩ := opsAtMost_longest cmd
    rcases heff.kvRun hn hops (putsMeet_true cmd) hok with hrun | ⟨_, _, _, _, hcompact⟩
    · exact hok.kvRun hrun
    · exact (compact_shrunk hcompact).recsOk hok

theorem Reached.spaced {Q : Batch → Cmd → Prop} (hmulti : E.flags.txnMultiWriteEnabled = false)
    (hops : ∀ b cmd, Q b cmd → cmd.OpsAtMost 1024) (hT : T → ∀ b cmd, Q b cmd → cmd.NoRewrite)
    (h : Reached E Q b) (hrev : b.newRev < 2 ^ 52) : Spaced T b.store.tables.kv.log := by
  have hinv := h.inv
    (I := fun t r _ => VersionedTo E False False t r ∧ (r < 2 ^ 52 → Spaced T t.kv.log))
    ⟨fun _ => .empty, fun _ => .nil⟩ ?_
  · exact hinv.2 hrev
  · intro b b' cmd ⟨hver, hsp⟩ hQ heff
    refine ⟨heff.versionedTo (hops b cmd hQ) ?_ (fun hU => hU.elim) hver, fun hr => ?_⟩
    · cases cmd <;> simp [Cmd.PutsMeet]
    · have hr' := heff.newRev_le.trans_lt hr
      exact heff.spaced hmulti (hops b cmd hQ) (fun ht => hT ht b cmd hQ) hr (hver hr') (hsp hr')

end Turbokube
