import Turbokube.Machine.Attachments
import Turbokube.Machine.Growth
import Turbokube.Model.StorageModule

/-!
# What an entry can do in the storage module

The counterpart of `Effect` for the module: how an entry changes the open transaction, and
which notices it queues.  `StorageRun E Q σ` says that a replica gets to `σ` by entries that
each meet `Q` in the state they are applied in.
-/

namespace Turbokube

open Encoding Lmdb DbKv

namespace Batch

variable {b : Batch} {affected : List Bytes}

theorem nextRev_eq : b.nextRev affected = revAfter b.newRev affected := by
  rw [nextRev, revAfter]
  cases affected <;> simp

theorem queue_eq : b.queue affected = if affected = [] then [] else [⟨b.newRev + 1, affected⟩] := by
  rw [queue]
  cases affected <;> simp

end Batch

namespace StorageKv

inductive Effect (E : Env) (b : Batch) : Cmd → Batch → List Queued → Prop where
  | keep {cmd : Cmd} : Effect E b cmd b []
  | put {req : PutRequest} {t : Tables} {res : PutResponse} {affected : List Bytes}
      (haccept : req.Accepted b.store.tables.lease)
      (h : cmdPut E b.store.tables (b.newRev + 1) 0 b.epoch req = .ok (t, res, affected)) :
      Effect E b (.put req) { b.setTables t with newRev := b.nextRev affected } (b.queue affected)
  | deleteRange {req : DeleteRangeRequest} {t : Tables} {res : DeleteRangeResponse}
      {affected : List Bytes}
      (h : cmdDeleteRange E b.store.tables (b.newRev + 1) 0 b.epoch req = .ok (t, res, affected)) :
      Effect E b (.deleteRange req) { b.setTables t with newRev := b.nextRev affected }
        (b.queue affected)
  | compact {revision : Int64} :
      Effect E b (.compact revision)
        (b.setMeta { b.store.dbMeta with revMin := revision.toUInt64 }) []
  | txn {req : TxnRequest} {success : Bool} {t : Tables} {res : List ResponseOp}
      {affected : List Bytes}
      (hcmp : txnCompare E b.store.tables.kv req.compare = .ok success)
      (h : txnOps E b.store.tables b.store.dbMeta.revMin (b.newRev + 1) b.epoch
        (req.branch success) = (t, res, affected, none)) :
      Effect E b (.txn req) { b.setTables t with newRev := b.nextRev affected } (b.queue affected)
  | txnFailed {req : TxnRequest} {success : Bool} {t : Tables} {res : List ResponseOp}
      {affected : List Bytes} {e : Err}
      (hcmp : txnCompare E b.store.tables.kv req.compare = .ok success)
      (h : txnOps E b.store.tables b.store.dbMeta.revMin (b.newRev + 1) b.epoch
        (req.branch success) = (t, res, affected, some e)) :
      Effect E b (.txn req) { b with newRev := b.nextRev affected } (b.queue affected)
  | leaseRevoke {id : Int64} {t : Tables} {affected : List Bytes} {val : UInt64}
      (h : cmdLeaseRevoke b.store.tables (b.newRev + 1) b.epoch id.toUInt64 =
        .ok (t, affected, val)) :
      Effect E b (.leaseRevoke id) { b.setTables t with newRev := b.nextRev affected }
        (b.queue affected)
  | quiet {cmd : Cmd} {b' : Batch} (heff : Turbokube.Effect E b cmd b')
      (hkv : b'.store.tables.kv = b.store.tables.kv) (hrev : b'.newRev = b.newRev)
      (hmark : b'.store.dbMeta.revMin = b.store.dbMeta.revMin) : Effect E b cmd b' []
  | tick {term : UInt64} {t : Tables} {newRev : Nat} {queued : List Queued} (revCompacted : UInt64)
      (hterm : ¬ term < b.store.dbMeta.term)
      (h : expireLoop (b.epoch + 1) b.store.tables.leaseExp.entries b.store.tables b.newRev [] =
        .ok (t, newRev, queued)) :
      Effect E b (.tick term)
        { (b.setTables { t with kv := compactLeft E t.kv b.store.dbMeta.revMin }).setMeta
            { b.store.dbMeta with epoch := b.epoch + 1, revCompacted := revCompacted } with
          epoch := b.epoch + 1, newRev := newRev } queued

variable {E : Env} {b b' : Batch} {queued : List Queued} {res : Result} {cmd : Cmd}

theorem applied_inj {b₁ : Batch} {queued₁ : List Queued} {res₁ : Result}
    (h : (.ok (b₁, queued₁, res₁) : Except Err (Batch × List Queued × Result)) =
      .ok (b', queued, res)) : b₁ = b' ∧ queued₁ = queued := by
  simp only [Except.ok.injEq, Prod.mk.injEq] at h
  exact ⟨h.1, h.2.1⟩

theorem effect_of_kept {res₁ : Result}
    (h : (.ok (b, [], res₁) : Except Err (Batch × List Queued × Result)) = .ok (b', queued, res)) :
    Effect E b cmd b' queued := by
  obtain ⟨rfl, rfl⟩ := applied_inj h
  exact .keep

theorem effect_of_applyPut {req : PutRequest} (h : applyPut E b req = .ok (b', queued, res)) :
    Effect E b (.put req) b' queued := by
  unfold applyPut at h
  split at h
  · exact effect_of_kept h
  · rename_i hlease
    split at h
    · exact effect_of_kept h
    · rename_i hvalue
      split at h
      · cases h
      · exact effect_of_kept h
      · exact effect_of_kept h
      · rename_i hknown
        split at h
        · exact effect_of_kept h
        · exact effect_of_kept h
        · cases h
        · rename_i hcmd
          obtain ⟨rfl, rfl⟩ := applied_inj h
          refine .put ⟨fun hi => ?_, fun hi => ?_, hknown⟩ hcmd
          · exact Classical.not_not.mp (fun hne => hlease ⟨hi, hne⟩)
          · exact Classical.not_not.mp (fun hne => hvalue ⟨hi, hne⟩)

theorem effect_of_applyTxn {req : TxnRequest} (h : applyTxn E b req = .ok (b', queued, res)) :
    Effect E b (.txn req) b' queued := by
  unfold applyTxn at h
  split at h
  · cases h
  · obtain ⟨rfl, rfl⟩ := applied_inj h
    exact .keep
  · rename_i success hcmp
    generalize hops : txnOps E b.store.tables b.store.dbMeta.revMin (b.newRev + 1) b.epoch
      (if success = true then req.success else req.failure) = r at h
    obtain ⟨t, responses, affected, err⟩ := r
    have hfailed : ∀ {e : Err} {r : Result}, err = some e →
        (.ok ({ b with newRev := b.nextRev affected }, b.queue affected, r) :
          Except Err (Batch × List Queued × Result)) = .ok (b', queued, res) →
        Effect E b (.txn req) b' queued := by
      rintro e r rfl heq
      obtain ⟨rfl, rfl⟩ := applied_inj heq
      exact .txnFailed hcmp hops
    simp only at h
    split at h
    · cases h
    · exact hfailed rfl h
    · exact hfailed rfl h
    · exact hfailed rfl h
    · exact hfailed rfl h
    · obtain ⟨rfl, rfl⟩ := applied_inj h
      exact .txn hcmp hops

theorem effect_of_applyTick {index term : UInt64}
    (h : applyTick E b index term = .ok (b', queued, res)) : Effect E b (.tick term) b' queued := by
  unfold applyTick at h
  split at h
  · obtain ⟨rfl, rfl⟩ := applied_inj h
    exact .keep
  · rename_i hterm
    simp only at h
    split at h
    · cases h
    · rename_i hloop
      split at h
      · cases h
      · obtain ⟨rfl, rfl⟩ := applied_inj h
        exact .tick b.store.dbMeta.revCompacted hterm hloop
      · rename_i rev _ _
        obtain ⟨rfl, rfl⟩ := applied_inj h
        exact .tick rev hterm hloop

/-- A native handler that affects no key. -/
theorem effect_of_unnoticed (ent : Entry) {r : Except Err (Batch × Result)}
    (hr : Turbokube.applyEntry E b ent = r)
    (hquiet : ∀ {b' : Batch}, Turbokube.Effect E b ent.cmd b' →
      b'.store.tables.kv = b.store.tables.kv ∧ b'.newRev = b.newRev ∧
        b'.store.dbMeta.revMin = b.store.dbMeta.revMin)
    (h : unnoticed r = .ok (b', queued, res)) : Effect E b ent.cmd b' queued := by
  unfold unnoticed at h
  split at h
  · cases h
  · obtain ⟨rfl, rfl⟩ := applied_inj h
    have heff := effect_of_applyEntry hr
    obtain ⟨hkv, hrev, hmark⟩ := hquiet heff
    exact .quiet heff hkv hrev hmark

/-- Every applied entry has one of the listed effects. -/
theorem effect_of_applyEntry {ent : Entry} (h : applyEntry E b ent = .ok (b', queued, res)) :
    Effect E b ent.cmd b' queued := by
  unfold applyEntry at h
  cases hcmd : ent.cmd with
  | put req =>
      rw [hcmd] at h
      exact effect_of_applyPut h
  | deleteRange req =>
      simp only [hcmd, applyDeleteRange] at h
      split at h
      · cases h
      · rename_i hdel
        obtain ⟨rfl, rfl⟩ := applied_inj h
        exact .deleteRange hdel
  | compact revision =>
      simp only [hcmd, applyCompact] at h
      obtain ⟨rfl, rfl⟩ := applied_inj h
      exact .compact
  | txn req =>
      rw [hcmd] at h
      exact effect_of_applyTxn h
  | leaseRevoke id =>
      simp only [hcmd, applyLeaseRevoke] at h
      split at h
      · cases h
      · rename_i hrevoke
        obtain ⟨rfl, rfl⟩ := applied_inj h
        exact .leaseRevoke hrevoke
  | tick term =>
      rw [hcmd] at h
      exact effect_of_applyTick h
  | leaseGrant req =>
      rw [hcmd] at h
      refine effect_of_unnoticed { ent with cmd := .leaseGrant req } rfl (fun heff => ?_) h
      cases heff with
      | keep => exact ⟨rfl, rfl, rfl⟩
      | leaseGrant hcall => exact ⟨(leaseGrant_kv hcall).1, rfl, rfl⟩
  | leaseKeepAlive id =>
      rw [hcmd] at h
      refine effect_of_unnoticed { ent with cmd := .leaseKeepAlive id } rfl (fun heff => ?_) h
      cases heff with
      | keep => exact ⟨rfl, rfl, rfl⟩
      | leaseKeepAlive hcall => exact ⟨(keepAlive_kv hcall).1, rfl, rfl⟩
  | leaseKeepAliveBatch ids =>
      rw [hcmd] at h
      refine effect_of_unnoticed { ent with cmd := .leaseKeepAliveBatch ids } rfl (fun heff => ?_) h
      cases heff with
      | keep => exact ⟨rfl, rfl, rfl⟩
      | leaseKeepAliveBatch hcall => exact ⟨(keepAliveBatch_kv hcall).1, rfl, rfl⟩
  | term term =>
      rw [hcmd] at h
      refine effect_of_unnoticed { ent with cmd := .term term, result := {} } rfl (fun heff => ?_) h
      cases heff <;> exact ⟨rfl, rfl, rfl⟩
  | invalid =>
      rw [hcmd] at h
      exact effect_of_kept h
  | unknown =>
      rw [hcmd] at h
      exact effect_of_kept h
  | empty =>
      rw [hcmd] at h
      cases h

section Expires

variable {epoch : UInt64} {l : List (Bytes × Bytes)} {t t' : Tables} {r r' : Nat}
  {queued queued' : List Queued}

/-- The loop of a tick is the native one, with the keys grouped by notice. -/
theorem expires_of_expireLoop (h : expireLoop epoch l t r queued = .ok (t', r', queued')) :
    ∃ notes, Expires epoch l t' r' t r notes ∧
      queued' = queued ++ notes.map (fun n => ⟨n.1, n.2⟩) := by
  obtain ⟨notes, hexp, rfl⟩ := @expires_of_loop epoch l t t' r r' _
    (fun queued rev ks => queued ++ [⟨rev, ks⟩]) _ (fun _ _ _ => rfl) (fun _ _ _ _ _ _ => rfl) _ _ h
  rw [List.foldl_append_eq_append, ← List.flatMap_def]
  exact ⟨notes, hexp, congrArg _ List.map_eq_flatMap.symm⟩

/-- What every revocation keeps with its notice is kept by the loop. -/
theorem expireLoop_induct {P : Tables → Nat → List Queued → Prop}
    (hrevoke : ∀ {t t₁ : Tables} {r : Nat} {id val : UInt64} {affected : List Bytes}
      {queued : List Queued}, P t r queued →
      cmdLeaseRevoke t (r + 1) epoch id = .ok (t₁, affected, val) → revAfter r affected ≤ r' →
      P t₁ (revAfter r affected) (queued ++ if affected = [] then [] else [⟨r + 1, affected⟩]))
    (h : P t r queued) (hloop : expireLoop epoch l t r queued = .ok (t', r', queued')) :
    P t' r' queued' := by
  obtain ⟨notes, hexp, rfl⟩ := expires_of_expireLoop hloop
  clear hloop
  induction hexp generalizing queued with
  | done => simpa using h
  | @revoke _ _ _ _ _ _ _ affected notes _ _ _ hone hrest ih =>
      have hnext := ih (hrevoke h hone hrest.le)
      by_cases hnil : affected = []
      · simpa [hnil] using hnext
      · simpa [hnil] using hnext

end Expires

theorem Effect.newRev_le (heff : Effect E b cmd b' queued) : b.newRev ≤ b'.newRev := by
  have hnext : ∀ affected : List Bytes, b.newRev ≤ b.nextRev affected := fun affected => by
    rw [Batch.nextRev_eq]
    exact le_revAfter _ _
  cases heff with
  | keep => exact le_rfl
  | put _ _ => exact hnext _
  | deleteRange _ => exact hnext _
  | compact => exact le_rfl
  | txn _ _ => exact hnext _
  | txnFailed _ _ => exact hnext _
  | leaseRevoke _ => exact hnext _
  | quiet _ _ hrev _ => exact hrev.ge
  | tick _ _ hloop =>
      obtain ⟨notes, hexp, -⟩ := expires_of_expireLoop hloop
      exact hexp.le

theorem Effect.synced {rev : Nat} (heff : Effect E b cmd b' queued) (h : b.Synced rev) :
    b'.Synced rev := by
  have hle := h.le.trans heff.newRev_le
  cases heff with
  | quiet heff _ _ _ =>
      exact ⟨heff.stored_epoch h.epoch, heff.stored_rev.trans h.stored, hle⟩
  | tick _ _ _ => exact ⟨rfl, h.stored, hle⟩
  | _ => exact ⟨h.epoch, h.stored, hle⟩

end StorageKv

/-- What the next entry is applied to. -/
def Storage.batch (σ : Storage) : Batch :=
  match σ.txn with
  | .opened b _ => b
  | _ => .start σ.store

inductive StorageRun (E : Env) (Q : Batch → Cmd → Prop) : Storage → Prop where
  | init : StorageRun E Q {}
  | update {σ σ' : Storage} {ent : Entry} (h : StorageRun E Q σ) (hQ : Q σ.batch ent.cmd)
      (hact : σ.act E (.update ent) = some σ') : StorageRun E Q σ'
  | commit {σ σ' : Storage} (h : StorageRun E Q σ) (hact : σ.act E .commit = some σ') :
      StorageRun E Q σ'
  | flush {σ σ' : Storage} (h : StorageRun E Q σ) (hact : σ.act E .flush = some σ') :
      StorageRun E Q σ'

namespace Storage

variable {E : Env} {σ σ' : Storage}

theorem update_inv {ent : Entry} (h : σ.act E (.update ent) = some σ') :
    ∃ b' queued, StorageKv.Effect E σ.batch ent.cmd b' queued ∧ σ.txn ≠ .committed ∧
      σ' = { σ with txn := .opened b' ent.index, queued := σ.queued ++ queued } := by
  have hone : ∀ {b : Batch}, σ.apply E b ent = some σ' →
      ∃ b' queued, StorageKv.Effect E b ent.cmd b' queued ∧
        σ' = { σ with txn := .opened b' ent.index, queued := σ.queued ++ queued } := by
    intro b happly
    unfold apply at happly
    split at happly
    · cases happly
    · rename_i b' queued res hent
      exact ⟨b', queued, StorageKv.effect_of_applyEntry hent, (Option.some.inj happly).symm⟩
  simp only [act] at h
  split at h
  · rename_i htxn
    obtain ⟨b', queued, heff, rfl⟩ := hone h
    exact ⟨b', queued, by rw [batch, htxn]; exact heff,
      by rw [htxn]; exact WriteTxn.noConfusion, rfl⟩
  · rename_i b index htxn
    obtain ⟨b', queued, heff, rfl⟩ := hone h
    exact ⟨b', queued, by rw [batch, htxn]; exact heff,
      by rw [htxn]; exact WriteTxn.noConfusion, rfl⟩
  · cases h

theorem commit_inv (h : σ.act E .commit = some σ') :
    ∃ index, σ' = { σ with
      store := σ.batch.finish σ.store.dbMeta.rev index, txn := .committed } := by
  simp only [act] at h
  split at h
  · rename_i b index htxn
    refine ⟨index, ?_⟩
    rw [batch, htxn]
    exact (Option.some.inj h).symm
  · cases h

theorem flush_inv (h : σ.act E .flush = some σ') :
    σ.txn = .committed ∧
      σ' = { σ with txn := .none, queued := [], flushed := σ.flushed ++ σ.queued } := by
  simp only [act] at h
  split at h
  · rename_i htxn
    exact ⟨htxn, (Option.some.inj h).symm⟩
  · cases h

end Storage

section Concrete

variable {E : Env} {Q : Batch → Cmd → Prop} {σ σ' : Storage}

/-- An entry meets `Q` when its turn comes. -/
def StorageAction.Meets (Q : Batch → Cmd → Prop) (σ : Storage) : StorageAction → Prop
  | .update ent => Q σ.batch ent.cmd
  | _ => True

instance StorageAction.Meets.decidable [∀ b cmd, Decidable (Q b cmd)] (a : StorageAction) :
    Decidable (a.Meets Q σ) := by
  cases a <;> unfold StorageAction.Meets <;> infer_instance

def Storage.ActsMeet (E : Env) (Q : Batch → Cmd → Prop) : List StorageAction → Storage → Prop
  | [], _ => True
  | a :: rest, σ =>
      a.Meets Q σ ∧
      match σ.act E a with
      | none => True
      | some σ' => ActsMeet E Q rest σ'

instance Storage.ActsMeet.decidable [∀ b cmd, Decidable (Q b cmd)] :
    (actions : List StorageAction) → (σ : Storage) → Decidable (Storage.ActsMeet E Q actions σ)
  | [], _ => .isTrue trivial
  | a :: rest, σ => by
      unfold Storage.ActsMeet
      cases σ.act E a with
      | none => exact inferInstanceAs (Decidable (a.Meets Q σ ∧ True))
      | some σ' =>
          have := Storage.ActsMeet.decidable rest σ'
          exact inferInstanceAs (Decidable (a.Meets Q σ ∧ Storage.ActsMeet E Q rest σ'))

theorem StorageRun.of_acts {actions : List StorageAction} (h : StorageRun E Q σ)
    (hQ : Storage.ActsMeet E Q actions σ) (hacts : Storage.acts E actions σ = some σ') :
    StorageRun E Q σ' := by
  induction actions generalizing σ with
  | nil =>
      obtain rfl := Option.some.inj hacts
      exact h
  | cons a rest ih =>
      rw [Storage.acts, Option.bind_eq_some_iff] at hacts
      obtain ⟨σ₁, hact, hrest⟩ := hacts
      rw [Storage.ActsMeet, hact] at hQ
      refine ih ?_ hQ.2 hrest
      cases a with
      | update ent => exact h.update hQ.1 hact
      | commit => exact h.commit hact
      | flush => exact h.flush hact

/-- The calls for batches of commands. -/
def storageActions (batches : List (List Cmd)) : List StorageAction :=
  batches.flatMap (fun cmds =>
    cmds.map (fun cmd => .update { index := 1, cmd := cmd }) ++ [.commit, .flush])

/-- The replica after batches of commands, with the default settings. -/
def storageAfter (batches : List (List Cmd)) : Option Storage :=
  Storage.acts .plain (storageActions batches) {}

theorem storageRun_of_storageAfter {batches : List (List Cmd)}
    (hQ : Storage.ActsMeet .plain Q (storageActions batches) {}) (hσ : σ ∈ storageAfter batches) :
    StorageRun .plain Q σ :=
  StorageRun.init.of_acts hQ hσ

end Concrete

end Turbokube
