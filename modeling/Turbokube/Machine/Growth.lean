import Turbokube.Machine.Runs
import Turbokube.Store.Growth

/-!
# The events of a command

Every command but a compaction adds events above the revision it starts from, for keys it
reports as affected, and takes none away.
-/

namespace Turbokube

open Encoding Lmdb DbKv

variable {E : Env} {t t' : Tables} {epoch : UInt64}

/-- The words of the commands after revision `r` up to revision `r'`. -/
def GrowsTo (db db' : DbKv) (r r' : Nat) (keys : List Bytes) : Prop :=
  Grows db db' ((r + 1) * 4096) ((r' + 1) * 4096) (fun k => k ∈ keys)

namespace GrowsTo

variable {db db' db'' : DbKv} {r r' r'' i : Nat} {keys keys' : List Bytes}

theorem refl (db : DbKv) (r r' : Nat) (keys : List Bytes) : GrowsTo db db r r' keys :=
  Grows.refl db _ _ _

theorem trans (h : GrowsTo db db' r r' keys) (h' : GrowsTo db' db'' r' r'' keys') (hle : r ≤ r')
    (hle' : r' ≤ r'') : GrowsTo db db'' r r'' (keys ++ keys') :=
  (Grows.mono h le_rfl (by omega) (fun _ hk => List.mem_append_left _ hk)).trans
    (Grows.mono h' (by omega) le_rfl (fun _ hk => List.mem_append_right _ hk))

theorem tombstones {ks : List Bytes} (hr : r + 1 < 2 ^ 52) (hi : i < 1024)
    (hks : ∀ k ∈ ks, k ∈ keys) :
    GrowsTo db (db.tombstones (r + 1) i epoch ks) r (r + 1) keys := by
  have hword := revAt_toNat hr hi true
  simp only [if_true] at hword
  exact Grows.tombstones (by omega) (by omega) hks

theorem put {req : PutRequest} {res : PutResponse} {affected : List Bytes} (hr : r + 1 < 2 ^ 52)
    (hi : i < 1024) (hput : cmdPut E t (r + 1) i epoch req = .ok (t', res, affected)) :
    GrowsTo t.kv t'.kv r (r + 1) affected := by
  obtain ⟨prev, next, patched, hkv, -, -, -, rfl⟩ := cmdPut_inv hput
  have hword := revAt_toNat hr hi false
  simp only [Bool.false_eq_true, if_false] at hword
  exact Grows.put hkv (by omega) (by omega) List.mem_cons_self

theorem deleteRange {req : DeleteRangeRequest} {res : DeleteRangeResponse} {affected : List Bytes}
    (hok : t.kv.RecsOk) (hr : r + 1 < 2 ^ 52) (hi : i < 1024)
    (hdel : cmdDeleteRange E t (r + 1) i epoch req = .ok (t', res, affected)) :
    GrowsTo t.kv t'.kv r (r + 1) affected := by
  obtain ⟨items, hkv, -, -, -, rfl⟩ := cmdDeleteRange_inv hdel
  obtain ⟨ks, -, htombs, hks⟩ := deleteRange_opStep hok hkv
  rw [htombs]
  refine .tombstones hr hi (fun k hk => List.mem_append_right _ ?_)
  rw [hks]
  exact hk

/-- The operations of a transaction. -/
theorem txnRun {ops : List RequestOp} {affected : List Bytes} (hok : t.kv.RecsOk)
    (hr : r + 1 < 2 ^ 52) (hn : i + ops.length ≤ 1024)
    (h : TxnRun E (r + 1) epoch i ops t t' affected) :
    GrowsTo t.kv t'.kv r (r + 1) affected := by
  induction h with
  | nil => exact .refl _ _ _ _
  | @cons i _ _ t t₁ _ affected _ hop _ ih =>
      rw [List.length_cons] at hn
      have hone : GrowsTo t.kv t₁.kv r (r + 1) affected := by
        cases hop with
        | put hput => exact .put hr (by omega) hput
        | deleteRange hdel => exact .deleteRange hok hr (by omega) hdel
        | _ => exact .refl _ _ _ _
      have hok' := hok.opStep (hop.opStep (A := fun _ => True) hok (fun _ _ => trivial)).1
      exact (Grows.mono hone le_rfl le_rfl (fun _ hk => List.mem_append_left _ hk)).trans
        (Grows.mono (ih hok' (by omega)) le_rfl le_rfl (fun _ hk => List.mem_append_right _ hk))

theorem revoke {id val : UInt64} {affected : List Bytes} (hok : t.kv.RecsOk) (hr : r + 1 < 2 ^ 52)
    (hrevoke : cmdLeaseRevoke t (r + 1) epoch id = .ok (t', affected, val)) :
    GrowsTo t.kv t'.kv r (r + 1) affected := by
  obtain ⟨ks, -, htombs, hsub, -⟩ := cmdLeaseRevoke_inv hok hrevoke
  rw [htombs]
  exact .tombstones hr (by decide) (fun k hk => hsub.mem hk)

end GrowsTo

/-- The revocations of a tick. -/
theorem expireLoop_grows {l : List (Bytes × Bytes)} {r r' : Nat} {keys keys' : List Bytes}
    (hok : t.kv.RecsOk) (hr : r' < 2 ^ 52)
    (h : expireLoop epoch l t r keys = .ok (t', r', keys')) :
    ∃ new, keys' = keys ++ new ∧ GrowsTo t.kv t'.kv r r' new := by
  obtain ⟨notes, hexp, hkeys⟩ := expires_of_expireLoop h
  refine ⟨_, hkeys, ?_⟩
  clear h hkeys
  induction hexp with
  | done => exact .refl _ _ _ _
  | @revoke t t₁ r _ _ _ _ affected _ _ _ _ hrevoke hrest ih =>
      have hgrows := ih (hok.opStep (revoke_opStep (E := .plain) (A := fun _ => True) hok hrevoke))
      have hle := hrest.le
      by_cases hnil : affected = []
      · subst hnil
        rw [revAfter, if_pos rfl, revoke_same hok hrevoke] at hgrows
        exact hgrows
      · rw [revAfter, if_neg hnil] at hgrows hle
        rw [if_neg hnil, List.flatMap_cons]
        exact (GrowsTo.revoke hok (by omega) hrevoke).trans hgrows (by omega) hle

variable {b b' : Batch} {cmd : Cmd}

/-- A command that affected keys took a revision. -/
theorem growsTo_nextRev {db db' : DbKv} {affected : List Bytes} (hr : b.nextRev affected < 2 ^ 52)
    (hsame : affected = [] → db' = db)
    (h : b.newRev + 1 < 2 ^ 52 → GrowsTo db db' b.newRev (b.newRev + 1) affected) :
    GrowsTo db db' b.newRev (b.nextRev affected) affected := by
  cases affected with
  | nil =>
      rw [hsame rfl]
      exact .refl _ _ _ _
  | cons k ks => exact h hr

theorem Effect.grows (hcmd : ∀ revision, cmd ≠ .compact revision) (hops : cmd.OpsAtMost 1024)
    (hok : b.store.tables.kv.RecsOk) (hr : b'.newRev < 2 ^ 52) (heff : Effect E b cmd b') :
    ∃ new, b'.keys = b.keys ++ new ∧
      GrowsTo b.store.tables.kv b'.store.tables.kv b.newRev b'.newRev new := by
  have hidle : ∀ {db : DbKv} {r' : Nat}, db = b.store.tables.kv →
      ∃ new, b.keys = b.keys ++ new ∧ GrowsTo b.store.tables.kv db b.newRev r' new := by
    rintro db r' rfl
    exact ⟨[], (List.append_nil _).symm, .refl _ _ _ _⟩
  cases heff with
  | keep => exact hidle rfl
  | @put req t res affected haccept hput =>
      exact ⟨affected, rfl, growsTo_nextRev hr
        ((TxnStep.put hput).opStep (A := fun _ => True) hok (fun _ _ => trivial)).2
        (fun hr => .put hr (by decide) hput)⟩
  | @deleteRange req t res affected hdel =>
      exact ⟨affected, rfl, growsTo_nextRev hr
        ((TxnStep.deleteRange hdel).opStep (A := fun _ => True) hok (fun _ _ => trivial)).2
        (fun hr => .deleteRange hok hr (by decide) hdel)⟩
  | compact _ => exact absurd rfl (hcmd _)
  | @txn req success t res affected hcmp htxn =>
      have hrun := txnRun_of_txnOps htxn
      exact ⟨affected, rfl, growsTo_nextRev hr
        (hrun.opSteps (A := fun _ => True) hok (fun _ _ => trivial)).2
        (fun hr => .txnRun hok hr (by rw [Nat.zero_add]; exact branch_length_le hops success) hrun)⟩
  | txnFailed _ _ _ => exact hidle rfl
  | leaseGrant hgrant => exact hidle (leaseGrant_kv hgrant).1
  | @leaseRevoke id t affected val hrevoke =>
      refine ⟨affected, rfl, growsTo_nextRev hr (fun hnil => ?_)
        (fun hr => .revoke hok hr hrevoke)⟩
      subst hnil
      exact revoke_same hok hrevoke
  | leaseKeepAlive halive => exact hidle (keepAlive_kv halive).1
  | leaseKeepAliveBatch halive => exact hidle (keepAliveBatch_kv halive).1
  | tick _ hloop => exact expireLoop_grows hok hr hloop
  | term _ => exact hidle rfl

end Turbokube
