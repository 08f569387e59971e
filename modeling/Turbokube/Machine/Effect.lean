import Turbokube.Model.StateMachine

/-!
# What an entry can do

`Effect E b cmd b'` lists, once and for all commands, how an applied entry changes
the batch: nothing, one of the commands of the state machine with its tables, or a
failed transaction that only moves the revision.  Every invariant of the state
machine is proved by cases on it.
-/

namespace Turbokube

open Encoding Lmdb

/-- The errors of a transaction that are returned to the client. -/
def Err.isTxnReject : Err → Bool
  | .grpcDuplicateKey => true
  | .grpcKeyTooLong => true
  | .grpcEmptyKey => true
  | _ => false

/-- The operations a transaction runs. -/
def TxnRequest.branch (req : TxnRequest) (success : Bool) : List RequestOp :=
  if success then req.success else req.failure

/-- The checks a plain put makes before it reaches `cmdPut`. -/
structure PutRequest.Accepted (req : PutRequest) (lease : Table Bytes Bytes) : Prop where
  noLease : req.ignoreLease = true → req.lease = 0
  noValue : req.ignoreValue = true → req.value = []
  known : leaseKnown lease req.lease = .ok true

inductive Effect (E : Env) (b : Batch) : Cmd → Batch → Prop where
  | keep {cmd : Cmd} : Effect E b cmd b
  | put {req : PutRequest} {t : Tables} {res : PutResponse} {affected : List Bytes}
      (haccept : req.Accepted b.store.tables.lease)
      (h : cmdPut E b.store.tables (b.newRev + 1) 0 b.epoch req = .ok (t, res, affected)) :
      Effect E b (.put req)
        { b.setTables t with newRev := b.nextRev affected, keys := b.keys ++ affected }
  | deleteRange {req : DeleteRangeRequest} {t : Tables} {res : DeleteRangeResponse}
      {affected : List Bytes}
      (h : cmdDeleteRange E b.store.tables (b.newRev + 1) 0 b.epoch req = .ok (t, res, affected)) :
      Effect E b (.deleteRange req)
        { b.setTables t with newRev := b.nextRev affected, keys := b.keys ++ affected }
  | compact {revision : Int64} {kv : DbKv} {last : UInt64}
      (h : b.store.tables.kv.compact E revision.toUInt64 = .ok (kv, last)) :
      Effect E b (.compact revision)
        ((b.setTables { b.store.tables with kv := kv }).setMeta
          { b.store.dbMeta with revMin := revision.toUInt64, revCompacted := last })
  | txn {req : TxnRequest} {success : Bool} {t : Tables} {res : List ResponseOp}
      {affected : List Bytes}
      (hcmp : txnCompare E b.store.tables.kv req.compare = .ok success)
      (h : txnOps E b.store.tables b.store.dbMeta.revMin (b.newRev + 1) b.epoch
        (req.branch success) = (t, res, affected, none)) :
      Effect E b (.txn req)
        { b.setTables t with newRev := b.nextRev affected, keys := b.keys ++ affected }
  | txnFailed {req : TxnRequest} {success : Bool} {t : Tables} {res : List ResponseOp}
      {affected : List Bytes} {e : Err}
      (hcmp : txnCompare E b.store.tables.kv req.compare = .ok success)
      (h : txnOps E b.store.tables b.store.dbMeta.revMin (b.newRev + 1) b.epoch
        (req.branch success) = (t, res, affected, some e))
      (he : e.isTxnReject = true) :
      Effect E b (.txn req) { b with newRev := b.nextRev affected }
  | leaseGrant {req : LeaseGrantRequest} {t : Tables} {leaseID : UInt64}
      {res : LeaseGrantResponse} {val : UInt64}
      (h : cmdLeaseGrant b.store.tables b.store.dbMeta.leaseID b.epoch req =
        .ok (t, leaseID, res, val)) :
      Effect E b (.leaseGrant req)
        ((b.setTables t).setMeta { b.store.dbMeta with leaseID := leaseID })
  | leaseRevoke {id : Int64} {t : Tables} {affected : List Bytes} {val : UInt64}
      (h : cmdLeaseRevoke b.store.tables (b.newRev + 1) b.epoch id.toUInt64 =
        .ok (t, affected, val)) :
      Effect E b (.leaseRevoke id)
        { b.setTables t with newRev := b.nextRev affected, keys := b.keys ++ affected }
  | leaseKeepAlive {id : Int64} {t : Tables} {res : LeaseKeepAliveResponse}
      (h : cmdLeaseKeepAlive b.store.tables b.epoch id = .ok (t, res)) :
      Effect E b (.leaseKeepAlive id) (b.setTables t)
  | leaseKeepAliveBatch {ids : List Int64} {t : Tables} {ttls : List Int64}
      (h : cmdLeaseKeepAliveBatch b.epoch ids b.store.tables = .ok (t, ttls)) :
      Effect E b (.leaseKeepAliveBatch ids) (b.setTables t)
  | tick {term : UInt64} {t : Tables} {newRev : Nat} {keys : List Bytes}
      (hterm : ¬ term < b.store.dbMeta.term)
      (h : expireLoop (b.epoch + 1) b.store.tables.leaseExp.entries b.store.tables b.newRev b.keys =
        .ok (t, newRev, keys)) :
      Effect E b (.tick term)
        { (b.setTables t).setMeta { b.store.dbMeta with epoch := b.epoch + 1 } with
          epoch := b.epoch + 1, newRev := newRev, keys := keys }
  | term {term : UInt64} (hterm : ¬ term < b.store.dbMeta.term) :
      Effect E b (.term term) (b.setMeta { b.store.dbMeta with term := term })

variable {E : Env} {b b' : Batch} {res : Result}

theorem effect_of_applyPut {ent : Entry} {req : PutRequest}
    (h : applyPut E b ent req = .ok (b', res)) : Effect E b (.put req) b' := by
  unfold applyPut at h
  split at h
  · obtain ⟨rfl, -⟩ := Prod.mk.inj (Except.ok.inj h)
    exact .keep
  · rename_i hlease
    split at h
    · obtain ⟨rfl, -⟩ := Prod.mk.inj (Except.ok.inj h)
      exact .keep
    · rename_i hvalue
      split at h
      · cases h
      · obtain ⟨rfl, -⟩ := Prod.mk.inj (Except.ok.inj h)
        exact .keep
      · rename_i hknown
        split at h
        · obtain ⟨rfl, -⟩ := Prod.mk.inj (Except.ok.inj h)
          exact .keep
        · obtain ⟨rfl, -⟩ := Prod.mk.inj (Except.ok.inj h)
          exact .keep
        · cases h
        · rename_i hcmd
          obtain ⟨rfl, -⟩ := Prod.mk.inj (Except.ok.inj h)
          refine .put ⟨fun hi => ?_, fun hi => ?_, hknown⟩ hcmd
          · exact Classical.not_not.mp (fun hne => hlease ⟨hi, hne⟩)
          · exact Classical.not_not.mp (fun hne => hvalue ⟨hi, hne⟩)

theorem effect_of_applyTxn {ent : Entry} {req : TxnRequest}
    (h : applyTxn E b ent req = .ok (b', res)) : Effect E b (.txn req) b' := by
  unfold applyTxn at h
  split at h
  · cases h
  · rename_i success hcmp
    generalize hops : txnOps E b.store.tables b.store.dbMeta.revMin (b.newRev + 1) b.epoch
      (if success = true then req.success else req.failure) = r at h
    obtain ⟨t, responses, affected, err⟩ := r
    simp only at h
    split at h
    · obtain ⟨rfl, -⟩ := Prod.mk.inj (Except.ok.inj h)
      exact .txnFailed hcmp hops rfl
    · obtain ⟨rfl, -⟩ := Prod.mk.inj (Except.ok.inj h)
      exact .txnFailed hcmp hops rfl
    · obtain ⟨rfl, -⟩ := Prod.mk.inj (Except.ok.inj h)
      exact .txnFailed hcmp hops rfl
    · cases h
    · obtain ⟨rfl, -⟩ := Prod.mk.inj (Except.ok.inj h)
      exact .txn hcmp hops

theorem effect_of_applyTick {ent : Entry} {term : UInt64}
    (h : applyTick b ent term = .ok (b', res)) : Effect E b (.tick term) b' := by
  unfold applyTick at h
  split at h
  · obtain ⟨rfl, -⟩ := Prod.mk.inj (Except.ok.inj h)
    exact .keep
  · rename_i hterm
    simp only at h
    split at h
    · cases h
    · rename_i hloop
      obtain ⟨rfl, -⟩ := Prod.mk.inj (Except.ok.inj h)
      exact .tick hterm hloop

/-- Every applied entry has one of the listed effects. -/
theorem effect_of_applyEntry {ent : Entry} (h : applyEntry E b ent = .ok (b', res)) :
    Effect E b ent.cmd b' := by
  unfold applyEntry at h
  cases hcmd : ent.cmd with
  | put req =>
      rw [hcmd] at h
      exact effect_of_applyPut h
  | deleteRange req =>
      simp only [hcmd, applyDeleteRange] at h
      split at h
      · cases h
      · rename_i hdel
        obtain ⟨rfl, -⟩ := Prod.mk.inj (Except.ok.inj h)
        exact .deleteRange hdel
  | compact revision =>
      simp only [hcmd, applyCompact] at h
      split at h
      · cases h
      · rename_i hcompact
        obtain ⟨rfl, -⟩ := Prod.mk.inj (Except.ok.inj h)
        exact .compact hcompact
  | txn req =>
      rw [hcmd] at h
      exact effect_of_applyTxn h
  | leaseGrant req =>
      simp only [hcmd, applyLeaseGrant] at h
      split at h
      · cases h
      · rename_i hgrant
        obtain ⟨rfl, -⟩ := Prod.mk.inj (Except.ok.inj h)
        exact .leaseGrant hgrant
  | leaseRevoke id =>
      simp only [hcmd, applyLeaseRevoke] at h
      split at h
      · cases h
      · rename_i hrevoke
        obtain ⟨rfl, -⟩ := Prod.mk.inj (Except.ok.inj h)
        exact .leaseRevoke hrevoke
  | leaseKeepAlive id =>
      simp only [hcmd, applyLeaseKeepAlive] at h
      split at h
      · cases h
      · rename_i halive
        obtain ⟨rfl, -⟩ := Prod.mk.inj (Except.ok.inj h)
        exact .leaseKeepAlive halive
  | leaseKeepAliveBatch ids =>
      simp only [hcmd, applyLeaseKeepAliveBatch] at h
      split at h
      · cases h
      · rename_i halive
        obtain ⟨rfl, -⟩ := Prod.mk.inj (Except.ok.inj h)
        exact .leaseKeepAliveBatch halive
  | tick term =>
      rw [hcmd] at h
      exact effect_of_applyTick h
  | term term =>
      simp only [hcmd, applyTerm] at h
      split at h
      · obtain ⟨rfl, -⟩ := Prod.mk.inj (Except.ok.inj h)
        exact .keep
      · rename_i hterm
        obtain ⟨rfl, -⟩ := Prod.mk.inj (Except.ok.inj h)
        exact .term hterm
  | invalid =>
      rw [hcmd] at h
      obtain ⟨rfl, -⟩ := Prod.mk.inj (Except.ok.inj h)
      exact .keep
  | unknown =>
      rw [hcmd] at h
      obtain ⟨rfl, -⟩ := Prod.mk.inj (Except.ok.inj h)
      exact .keep
  | empty =>
      rw [hcmd] at h
      cases h

theorem Batch.le_nextRev (b : Batch) (affected : List Bytes) : b.newRev ≤ b.nextRev affected := by
  rw [Batch.nextRev]
  split <;> omega

/-- The revision a command leaves that affected the keys `ks`. -/
def revAfter (r : Nat) (ks : List Bytes) : Nat := if ks = [] then r else r + 1

theorem le_revAfter (r : Nat) (ks : List Bytes) : r ≤ revAfter r ks := by
  rw [revAfter]
  split <;> omega

/-- The loop of a tick over the entries `l`, as the revocations it makes until the tables are `t'`
and the revision is `r'`.  The notes are the revisions it uses, with the keys affected at each. -/
inductive Expires (epoch : UInt64) (l : List (Bytes × Bytes)) (t' : Tables) (r' : Nat) :
    Tables → Nat → List (Nat × List Bytes) → Prop where
  | done : Expires epoch l t' r' t' r' []
  | revoke {t t₁ : Tables} {r : Nat} {k v : Bytes} {id val : UInt64} {affected : List Bytes}
      {notes : List (Nat × List Bytes)} (hmem : (k, v) ∈ l) (hpresent : t.leaseExp.get k ≠ none)
      (hdue : DbLeaseExp.due epoch k v = some id)
      (hrevoke : cmdLeaseRevoke t (r + 1) epoch id = .ok (t₁, affected, val))
      (hrest : Expires epoch l t' r' t₁ (revAfter r affected) notes) :
      Expires epoch l t' r' t r (if affected = [] then notes else (r + 1, affected) :: notes)

section Expires

variable {epoch : UInt64} {l : List (Bytes × Bytes)} {t t' : Tables} {r r' : Nat}
  {notes : List (Nat × List Bytes)}

theorem Expires.le (h : Expires epoch l t' r' t r notes) : r ≤ r' := by
  induction h with
  | done => exact le_rfl
  | revoke _ _ _ _ _ ih => exact (le_revAfter _ _).trans ih

/-- A loop of a tick makes the revocations of `Expires`, whatever it notes of them. -/
theorem expires_of_loop {α : Type} {note : α → Nat → List Bytes → α}
    {loop : List (Bytes × Bytes) → Tables → Nat → α → Except Err (Tables × Nat × α)}
    (hnil : ∀ t r acc, loop [] t r acc = .ok (t, r, acc))
    (hcons : ∀ k v rest t r acc, loop ((k, v) :: rest) t r acc =
      if t.leaseExp.get k = none then loop rest t r acc
      else
        match DbLeaseExp.due epoch k v with
        | none => .ok (t, r, acc)
        | some id =>
            match cmdLeaseRevoke t (r + 1) epoch id with
            | .error e => .error e
            | .ok (t, affected, _) =>
                if affected = [] then loop rest t r acc
                else loop rest t (r + 1) (note acc (r + 1) affected))
    {acc acc' : α} (h : loop l t r acc = .ok (t', r', acc')) :
    ∃ notes, Expires epoch l t' r' t r notes ∧
      acc' = notes.foldl (fun acc n => note acc n.1 n.2) acc := by
  -- the entries that are left are some of `l`
  suffices hsub : ∀ rest, rest ⊆ l → ∀ t r acc, loop rest t r acc = .ok (t', r', acc') →
      ∃ notes, Expires epoch l t' r' t r notes ∧
        acc' = notes.foldl (fun acc n => note acc n.1 n.2) acc from
    hsub l (List.Subset.refl l) t r acc h
  intro rest
  induction rest with
  | nil =>
      intro _ t r acc hloop
      simp only [hnil, Except.ok.injEq, Prod.mk.injEq] at hloop
      obtain ⟨rfl, rfl, rfl⟩ := hloop
      exact ⟨[], .done, rfl⟩
  | cons p rest ih =>
      intro hl t r acc hloop
      obtain ⟨k, v⟩ := p
      obtain ⟨hmem, hrest⟩ := List.cons_subset.mp hl
      rw [hcons] at hloop
      split at hloop
      · exact ih hrest t r acc hloop
      · rename_i hpresent
        split at hloop
        · simp only [Except.ok.injEq, Prod.mk.injEq] at hloop
          obtain ⟨rfl, rfl, rfl⟩ := hloop
          exact ⟨[], .done, rfl⟩
        · rename_i hdue
          split at hloop
          · cases hloop
          · rename_i t₁ affected val hrevoke
            have hstep : ∀ notes, Expires epoch l t' r' t₁ (revAfter r affected) notes →
                Expires epoch l t' r' t r
                  (if affected = [] then notes else (r + 1, affected) :: notes) :=
              fun _ => .revoke hmem hpresent hdue hrevoke
            split at hloop
            · rename_i hnone
              obtain ⟨notes, hexp, hacc⟩ := ih hrest t₁ r acc hloop
              simp only [revAfter, if_pos hnone] at hstep
              exact ⟨notes, hstep notes hexp, hacc⟩
            · rename_i hsome
              obtain ⟨notes, hexp, hacc⟩ := ih hrest t₁ (r + 1) _ hloop
              simp only [revAfter, if_neg hsome] at hstep
              exact ⟨_, hstep notes hexp, hacc⟩

theorem expires_of_expireLoop {keys keys' : List Bytes}
    (h : expireLoop epoch l t r keys = .ok (t', r', keys')) :
    ∃ notes, Expires epoch l t' r' t r notes ∧ keys' = keys ++ notes.flatMap Prod.snd := by
  obtain ⟨notes, hexp, rfl⟩ := @expires_of_loop epoch l t t' r r' _ (fun keys _ ks => keys ++ ks)
    _ (fun _ _ _ => rfl) (fun _ _ _ _ _ _ => rfl) _ _ h
  exact ⟨notes, hexp, List.foldl_append_eq_append.trans (by rw [List.flatMap_def])⟩

theorem newRev_le_of_expireLoop {keys keys' : List Bytes}
    (h : expireLoop epoch l t r keys = .ok (t', r', keys')) : r ≤ r' := by
  obtain ⟨notes, hexp, -⟩ := expires_of_expireLoop h
  exact hexp.le

end Expires

theorem Effect.newRev_le {cmd : Cmd} (h : Effect E b cmd b') : b.newRev ≤ b'.newRev := by
  cases h with
  | tick hterm hloop => exact newRev_le_of_expireLoop hloop
  | put _ _ => exact b.le_nextRev _
  | deleteRange _ => exact b.le_nextRev _
  | txn _ _ => exact b.le_nextRev _
  | txnFailed _ _ _ => exact b.le_nextRev _
  | leaseRevoke _ => exact b.le_nextRev _
  | _ => exact Nat.le_refl _

theorem Effect.stored_rev {cmd : Cmd} (h : Effect E b cmd b') :
    b'.store.dbMeta.rev = b.store.dbMeta.rev := by
  cases h <;> rfl

/-- The epoch of the batch stays the stored one. -/
theorem Effect.stored_epoch {cmd : Cmd} (h : Effect E b cmd b')
    (hepoch : b.epoch = b.store.dbMeta.epoch) : b'.epoch = b'.store.dbMeta.epoch := by
  cases h <;> first | exact hepoch | rfl

end Turbokube
