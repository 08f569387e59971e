import Turbokube.Machine.StorageEffect
import Turbokube.Store.PartialCompaction
import Turbokube.Store.RevScan
import Turbokube.Watch.Compacted

/-!
# Notices and events

The storage module queues a notice for every command that affects keys, and later reads the
events of the revisions of its notices.  It reads the events of one operation per revision,
and it relies on there being some.

Both hold while a transaction has no operation after its first write, while the puts name
their leases (`Cmd.NamesLeases`), so that the keys a revocation reports are deleted by it, and
for revisions that have not been given up to compaction.  A transaction with two writes loses
the events of the second, and one that fails after its first write leaves a notice without an
event: the scan then takes the events of a later revision for it, or stops the replica.
-/

namespace Turbokube

open Encoding Lmdb DbKv

/-- An operation that `txnOps` passes over. -/
def RequestOp.idle : RequestOp → Bool
  | .txn => true
  | .none => true
  | _ => false

/-- Nothing is done after the first operation that may write. -/
def writesLast : List RequestOp → Bool
  | [] => true
  | .put _ :: ops => ops.all RequestOp.idle
  | .deleteRange _ :: ops => ops.all RequestOp.idle
  | _ :: ops => writesLast ops

/-- The operations a transaction runs in this state do nothing after the first that may
write. -/
def Cmd.WritesLast (E : Env) (b : Batch) : Cmd → Prop
  | .txn req => ∀ success, txnCompare E b.store.tables.kv req.compare = .ok success →
      writesLast (req.branch success) = true
  | _ => True

instance (E : Env) (b : Batch) (cmd : Cmd) : Decidable (cmd.WritesLast E b) :=
  match cmd with
  | .txn req =>
      inferInstanceAs (Decidable (∀ success,
        txnCompare E b.store.tables.kv req.compare = .ok success →
          writesLast (req.branch success) = true))
  | .term _ | .tick _ | .put _ | .deleteRange _ | .compact _ | .leaseGrant _ | .leaseRevoke _
  | .leaseKeepAlive _ | .leaseKeepAliveBatch _ | .invalid | .unknown | .empty => .isTrue trivial

/-- What keeps notices and events together. -/
def Cmd.Notable (E : Env) (b : Batch) (cmd : Cmd) : Prop :=
  cmd.NamesLeases E b ∧ cmd.KeepsMark b ∧ cmd.WritesLast E b

instance (E : Env) (b : Batch) (cmd : Cmd) : Decidable (cmd.Notable E b) := by
  unfold Cmd.Notable
  infer_instance

variable {E : Env} {t t' : Tables} {r min : Nat} {queued : List Queued} {epoch : UInt64}

/-- From `db` to `db'` events were added, all of the operation `kr`. -/
def AddsOp (db db' : DbKv) (kr : Keyrev) : Prop :=
  Grows db db' kr.word.toNat (kr.word.toNat + 1) (fun _ => True) ∧ ∃ evt ∈ db'.events, evt.rev = kr

namespace AddsOp

variable {db db' : DbKv} {kr : Keyrev}

theorem event {key : Bytes}
    (hevt : db'.evt = db.evt.put kr.key (evtBytes kr epoch key)) : AddsOp db db' kr := by
  refine ⟨.event hevt le_rfl (Nat.lt_succ_self _) trivial, ?_⟩
  have hdup : evtBytes kr epoch key ∈ db'.evt.dups kr.key := by
    rw [hevt, DupTable.mem_dups_put]
    exact .inl ⟨rfl, rfl⟩
  obtain ⟨evt, hmem, -, hrev⟩ := Recorded.mem_events epoch hdup
  exact ⟨evt, hmem, hrev⟩

theorem put {rev subrev : Nat} {req : PutRequest} {res : PutResponse} {affected : List Bytes}
    (h : cmdPut E t rev subrev epoch req = .ok (t', res, affected)) :
    AddsOp t.kv t'.kv (revAt rev subrev false) := by
  obtain ⟨prev, next, patched, hkv, -⟩ := cmdPut_inv h
  exact event (put_tables hkv).2.1

theorem tombstones {rev subrev : Nat} {ks : List Bytes} (hne : ks ≠ []) :
    AddsOp db (db.tombstones rev subrev epoch ks) (revAt rev subrev true) := by
  obtain ⟨k, ks, rfl⟩ := List.exists_cons_of_ne_nil hne
  have hfirst : AddsOp db (db.tombstone rev subrev epoch k) (revAt rev subrev true) := event rfl
  have hrest : Grows (db.tombstone rev subrev epoch k)
      ((db.tombstone rev subrev epoch k).tombstones rev subrev epoch ks)
      (revAt rev subrev true).word.toNat ((revAt rev subrev true).word.toNat + 1)
      (fun _ => True) := .tombstones le_rfl (Nat.lt_succ_self _) (fun _ _ => trivial)
  obtain ⟨hgrows, evt, hevt, hrev⟩ := hfirst
  obtain ⟨p, hp, rfl⟩ := List.mem_map.mp hevt
  exact ⟨hgrows.trans hrest, decodeEvt p, List.mem_map_of_mem (hrest.old p hp), hrev⟩

end AddsOp

/-- The tables at revision `r`, with the notices queued so far.  Every notice from the mark on
has events, those of one operation. -/
structure Noted (E : Env) (t : Tables) (r min : Nat) (queued : List Queued) : Prop where
  consistent : Consistent E False False t r
  pos : 0 < min
  recorded : Recorded t.kv min
  bounds : ∀ n ∈ queued, 0 < n.rev ∧ n.rev ≤ r
  oneOp : ∀ n ∈ queued, min ≤ n.rev → t.kv.OneOp n.rev

namespace Noted

theorem subset {queued' : List Queued} (h : Noted E t r min queued) (hsub : queued' ⊆ queued) :
    Noted E t r min queued' :=
  ⟨h.consistent, h.pos, h.recorded, fun n hn => h.bounds n (hsub hn),
    fun n hn => h.oneOp n (hsub hn)⟩

/-- The mark moves on. -/
theorem mark {min' : Nat} (h : Noted E t r min queued) (hle : min ≤ min') :
    Noted E t r min' queued :=
  ⟨h.consistent, h.pos.trans_le hle, h.recorded.mono hle, h.bounds,
    fun n hn hmin => h.oneOp n hn (hle.trans hmin)⟩

/-- Other tables than those of the keys change. -/
theorem congr (h : Noted E t r min queued) (hcons : Consistent E False False t' r)
    (hkv : t'.kv = t.kv) : Noted E t' r min queued := by
  refine ⟨hcons, h.pos, ?_, h.bounds, ?_⟩
  · rw [hkv]
    exact h.recorded
  · rw [hkv]
    exact h.oneOp

/-- A command that adds the events of one operation at a new revision, and its notice. -/
theorem adds {kr : Keyrev} (h : Noted E t r min queued)
    (hcons : Consistent E False False t' (r + 1)) (hrec : Recorded t'.kv min)
    (hadds : AddsOp t.kv t'.kv kr) (hkr : kr.upper.toNat = r + 1) (keys : List Bytes) :
    Noted E t' (r + 1) min (queued ++ [⟨r + 1, keys⟩]) := by
  obtain ⟨ch, hrep, hlog, -⟩ := h.consistent.kv
  have hup := Keyrev.upper_toNat kr
  obtain ⟨hgrows, evt, hevt, hrev⟩ := hadds
  obtain ⟨new, hnew, hbounds⟩ := hgrows.events (fun p hp => by
    obtain ⟨hok, hlt⟩ := hrep.evt_lt hlog hp
    exact ⟨hok, by omega⟩)
  have hold : ∀ e ∈ t.kv.events, e.rev.upper.toNat ≤ r := by
    intro e he
    obtain ⟨p, hp, rfl⟩ := List.mem_map.mp he
    have hlt := (hrep.evt_lt hlog hp).2
    rw [Keyrev.upper_toNat]
    omega
  have hfresh : ∀ e ∈ new, e.rev = kr := by
    intro e he
    have := hbounds e he
    exact Keyrev.ext_toNat (by omega)
  refine ⟨hcons, h.pos, hrec, fun n hn => ?_, fun n hn hmin => ?_⟩
  · rcases List.mem_append.mp hn with hn | hn
    · have := h.bounds n hn
      exact ⟨this.1, by omega⟩
    · rw [List.mem_singleton.mp hn]
      exact ⟨Nat.succ_pos r, le_rfl⟩
  · rcases List.mem_append.mp hn with hn | hn
    · -- the new events are of a later revision
      obtain ⟨kr', hkr', ⟨e, he, her⟩, hall⟩ := h.oneOp n hn hmin
      refine ⟨kr', hkr', ⟨e, ?_, her⟩, fun e' he' hup' => ?_⟩
      · rw [hnew]
        exact List.mem_append_left _ he
      · rw [hnew] at he'
        rcases List.mem_append.mp he' with he' | he'
        · exact hall e' he' hup'
        · rw [hfresh e' he', hkr] at hup'
          have := (h.bounds n hn).2
          omega
    · rw [List.mem_singleton.mp hn]
      refine ⟨kr, hkr, ⟨evt, hevt, hrev⟩, fun e he hup' => ?_⟩
      rw [hnew] at he
      rcases List.mem_append.mp he with he | he
      · have := hold e he
        simp only at hup'
        omega
      · exact hfresh e he

/-- A piece of compaction takes events from below the mark only. -/
theorem compacted {gone : List (Bytes × Bytes)} {ch : Bytes → List Version} {d : DbKv}
    (h : Noted E t r min queued) (hpiece : Piece ch t.kv gone d)
    (hver : d.Versioned E False False ((r + 1) * 4096))
    (hgone : ∀ p ∈ gone, (decodeEvt p).rev.upper.toNat < min) :
    Noted E { t with kv := d } r min queued := by
  have hkeeps : ∀ evt ∈ t.kv.events, min ≤ evt.rev.upper.toNat → evt ∈ d.events := by
    intro evt hevt hmin
    obtain ⟨p, hp, rfl⟩ := List.mem_map.mp hevt
    refine List.mem_map_of_mem (hpiece.mem_pairs.mpr ⟨hp, fun hmem => ?_⟩)
    have := hgone p hmem
    omega
  have hsub : ∀ evt ∈ d.events, evt ∈ t.kv.events := fun evt hevt => hpiece.event_of_event hevt
  have hlog : d.log = t.kv.log := hpiece.pruned.log
  obtain ⟨m, hm⟩ := h.consistent.lease
  refine ⟨⟨hver, h.consistent.attached.congr hlog rfl, m, hm.congr rfl rfl⟩, h.pos,
    fun w hw hmin => ?_, h.bounds, fun n hn hmin => ?_⟩
  · rw [hlog] at hw
    obtain ⟨evt, hevt, hkey, hrev⟩ := h.recorded w hw hmin
    exact ⟨evt, hkeeps evt hevt (by rw [hrev]; exact hmin), hkey, hrev⟩
  · obtain ⟨kr, hkr, ⟨evt, hevt, hrev⟩, hall⟩ := h.oneOp n hn hmin
    refine ⟨kr, hkr, ⟨evt, hkeeps evt hevt ?_, hrev⟩, fun e he hup => hall e (hsub e he) hup⟩
    rw [hrev, hkr]
    exact hmin

/-- What a tick leaves after its compaction, failed or not. -/
theorem compactLeft {mark : UInt64} (h : Noted E t r mark.toNat queued) :
    Noted E { t with kv := StorageKv.compactLeft E t.kv mark } r mark.toNat queued := by
  obtain ⟨ch, hrep, hlog, -⟩ := id h.consistent.kv
  obtain ⟨d, hpiece, hcases⟩ := StorageKv.compactBy_cases hrep hlog
    (show 1 ≤ StorageKv.limitCompactionMaxKeys by decide) mark
  have hshort := hpiece.shortened hrep hlog
  rw [StorageKv.compactLeft, (hcases E).1]
  refine h.compacted hpiece ⟨_, hshort.rep hrep hlog, hshort.logOk hlog, fun hU => hU.elim⟩
    (fun p hp => ?_)
  have hlt := not_le_of_mem_removedEvents (UInt64.lt_iff_toNat_lt.mpr h.pos)
    (List.mem_of_mem_take hp)
  rw [UInt64.le_iff_toNat_le] at hlt
  omega

/-- A revocation, with its notice if it affected keys. -/
theorem revoke {id val : UInt64} {affected : List Bytes} (h : Noted E t r min queued)
    (hrevoke : cmdLeaseRevoke t (r + 1) epoch id = .ok (t', affected, val))
    (hr : revAfter r affected < 2 ^ 52) :
    Noted E t' (revAfter r affected) min
      (queued ++ if affected = [] then [] else [⟨r + 1, affected⟩]) := by
  obtain ⟨m, hm⟩ := h.consistent.lease
  obtain ⟨t₁, ks, val₁, hrevoke₁, hrev, hcons⟩ := h.consistent.revoke hm epoch id
  rw [hrevoke] at hrevoke₁
  obtain ⟨rfl, hrest⟩ := Prod.mk.inj (Except.ok.inj hrevoke₁)
  obtain ⟨rfl, -⟩ := Prod.mk.inj hrest
  have hcons' := hcons hr
  by_cases hnil : affected = []
  · rw [revAfter, if_pos hnil] at hcons' ⊢
    rw [if_pos hnil, List.append_nil]
    refine h.congr hcons' ?_
    rw [hrev.kv, hnil]
    rfl
  · rw [revAfter, if_neg hnil] at hr hcons' ⊢
    rw [if_neg hnil]
    have hrun : KvRun E (fun _ => True) 1024 t.kv r (t.kv.tombstones (r + 1) 0 epoch affected)
        (r + 1) :=
      .cmd (.idle le_rfl) (.step (.refl le_rfl) (.tombs hrev.chain) (by decide))
        (Nat.lt_succ_self r)
    refine @adds _ _ _ _ _ _ (revAt (r + 1) 0 true) h hcons' ?_ ?_ ?_ affected
    · rw [hrev.kv]
      exact h.recorded.kvRun hrun
    · rw [hrev.kv]
      exact .tombstones hnil
    · exact revAt_upper hr (by decide) true

/-- The revocations of a tick, each with its notice. -/
theorem expireLoop {l : List (Bytes × Bytes)} {r' : Nat} {old new : List Queued}
    (h : Noted E t r min (old ++ queued))
    (hloop : StorageKv.expireLoop epoch l t r queued = .ok (t', r', new)) (hr' : r' < 2 ^ 52) :
    Noted E t' r' min (old ++ new) := by
  refine StorageKv.expireLoop_induct (P := fun t r queued => Noted E t r min (old ++ queued))
    (fun hnoted hrevoke hle => ?_) h hloop
  rw [← List.append_assoc]
  exact hnoted.revoke hrevoke (hle.trans_lt hr')

end Noted

theorem txnLoop_idle {revMin : UInt64} {rev i : Nat} {ops : List RequestOp} {acc : TxnAcc}
    (h : ops.all RequestOp.idle = true) :
    txnLoop E revMin rev epoch ops i acc = (acc, none) := by
  induction ops generalizing i with
  | nil => rfl
  | cons op ops ih =>
      rw [List.all_cons, Bool.and_eq_true] at h
      cases op with
      | txn => exact ih h.2
      | none => exact ih h.2
      | _ => cases h.1

/-- A deletion without targets leaves the keys alone. -/
theorem cmdDeleteRange_cases {rev subrev : Nat} {req : DeleteRangeRequest}
    {res : DeleteRangeResponse} {affected : List Bytes} (hok : t.kv.RecsOk)
    (h : cmdDeleteRange E t rev subrev epoch req = .ok (t', res, affected)) :
    affected = [] ∧ t'.kv = t.kv ∨
      affected ≠ [] ∧ AddsOp t.kv t'.kv (revAt rev subrev true) := by
  obtain ⟨items, hkv, -, -, -, rfl⟩ := cmdDeleteRange_inv h
  obtain ⟨ks, -, htombs, hks⟩ := deleteRange_opStep hok hkv
  cases items with
  | nil =>
      refine .inl ⟨rfl, ?_⟩
      rw [htombs, ← hks]
      rfl
  | cons item items =>
      refine .inr ⟨by simp, ?_⟩
      rw [htombs, ← hks]
      exact .tombstones (by simp)

/-- What the operations of a transaction do when nothing follows the first that may write:
nothing, or they succeed and write as one operation. -/
theorem txnLoop_writesLast {revMin : UInt64} {i : Nat} {ops : List RequestOp} {acc acc' : TxnAcc}
    {err : Option Err} (hok : acc.tables.kv.RecsOk) (hlast : writesLast ops = true)
    (hkeys : acc.keys = []) (hr : r + 1 < 2 ^ 52) (hlen : i + ops.length ≤ 1024)
    (h : txnLoop E revMin (r + 1) epoch ops i acc = (acc', err)) :
    acc'.keys = [] ∧ acc'.tables.kv = acc.tables.kv ∨
      acc'.keys ≠ [] ∧ err = none ∧
        ∃ kr, kr.upper.toNat = r + 1 ∧ AddsOp acc.tables.kv acc'.tables.kv kr := by
  induction ops generalizing i acc with
  | nil =>
      obtain ⟨rfl, -⟩ := Prod.mk.inj h
      exact .inl ⟨hkeys, rfl⟩
  | cons op ops ih =>
      rw [List.length_cons] at hlen
      cases op with
      | put req =>
          rw [txnLoop] at h
          split at h
          · obtain ⟨rfl, -⟩ := Prod.mk.inj h
            exact .inl ⟨hkeys, rfl⟩
          · rename_i t res affected hput
            rw [txnLoop_idle hlast] at h
            obtain ⟨rfl, rfl⟩ := Prod.mk.inj h
            obtain ⟨-, -, -, -, -, -, -, rfl⟩ := cmdPut_inv hput
            refine .inr ⟨by simp, rfl, _, revAt_upper hr (by omega : i < 1024) false, .put hput⟩
      | deleteRange req =>
          rw [txnLoop] at h
          split at h
          · obtain ⟨rfl, -⟩ := Prod.mk.inj h
            exact .inl ⟨hkeys, rfl⟩
          · rename_i t res affected hdel
            rw [txnLoop_idle hlast] at h
            obtain ⟨rfl, rfl⟩ := Prod.mk.inj h
            rcases cmdDeleteRange_cases hok hdel with ⟨rfl, hsame⟩ | ⟨hne, hadds⟩
            · exact .inl ⟨by simp [hkeys], hsame⟩
            · exact .inr ⟨by simp [hne], rfl, _, revAt_upper hr (by omega : i < 1024) true, hadds⟩
      | range req =>
          rw [txnLoop] at h
          split at h
          · obtain ⟨rfl, -⟩ := Prod.mk.inj h
            exact .inl ⟨hkeys, rfl⟩
          · rename_i res _
            exact @ih (i + 1) { acc with res := acc.res ++ [.range res] } hok hlast hkeys
              (by omega) h
      | txn => exact ih hok hlast hkeys (by omega) h
      | none => exact ih hok hlast hkeys (by omega) h

section Entries

variable {b b' : Batch} {cmd : Cmd} {new : List Queued}

/-- The state of a batch with the notices queued so far. -/
def Batch.Noted (E : Env) (b : Batch) (queued : List Queued) : Prop :=
  Turbokube.Noted E b.store.tables b.newRev b.store.dbMeta.revMin.toNat queued

/-- A command of the native state machine that writes nothing, or writes as one operation. -/
theorem Batch.Noted.native {affected : List Bytes} (h : b.Noted E queued) (hQ : cmd.Notable E b)
    (hcmd : ∀ revision, cmd ≠ .compact revision)
    (heff : Effect E b cmd
      { b.setTables t' with newRev := b.nextRev affected, keys := b.keys ++ affected })
    (hr : b.nextRev affected + 1 < 2 ^ 52)
    (hcases : affected = [] ∧ t'.kv = b.store.tables.kv ∨
      affected ≠ [] ∧ ∃ kr, kr.upper.toNat = b.newRev + 1 ∧ AddsOp b.store.tables.kv t'.kv kr) :
    Turbokube.Noted E t' (b.nextRev affected) b.store.dbMeta.revMin.toNat
      (queued ++ b.queue affected) := by
  have hcons : Consistent E False False t' (b.nextRev affected) :=
    h.consistent.effect hQ.1 heff hr
  have hrec : Recorded t'.kv b.store.dbMeta.revMin.toNat :=
    heff.recorded hQ.1.1 h.consistent.kv (fun revision heq => absurd heq (hcmd revision)) h.recorded
  rw [nextRev_eq, revAfter] at hcons ⊢
  rw [queue_eq]
  rcases hcases with ⟨hnil, hkv⟩ | ⟨hne, kr, hkr, hadds⟩
  · rw [if_pos hnil] at hcons ⊢
    rw [if_pos hnil, List.append_nil]
    exact Turbokube.Noted.congr h hcons hkv
  · rw [if_neg hne] at hcons ⊢
    rw [if_neg hne]
    exact Turbokube.Noted.adds h hcons hrec hadds hkr affected

theorem Batch.Noted.step (h : b.Noted E queued) (hQ : cmd.Notable E b)
    (heff : StorageKv.Effect E b cmd b' new) (hr : b'.newRev + 1 < 2 ^ 52) :
    b'.Noted E (queued ++ new) := by
  have hok := h.consistent.kv.recsOk
  -- a command that affects keys takes a revision
  have hnext : ∀ {affected : List Bytes}, affected ≠ [] → b.nextRev affected + 1 < 2 ^ 52 →
      b.newRev + 1 < 2 ^ 52 := by
    intro affected hne hlt
    rw [nextRev_eq, revAfter, if_neg hne] at hlt
    omega
  cases heff with
  | keep =>
      rw [List.append_nil]
      exact h
  | @put req t res affected haccept hput =>
      refine h.native hQ (fun _ => Cmd.noConfusion) (.put haccept hput) hr (.inr ?_)
      have hne : affected ≠ [] := by
        obtain ⟨-, -, -, -, -, -, -, rfl⟩ := cmdPut_inv hput
        exact List.cons_ne_nil _ _
      exact ⟨hne, _, revAt_upper (hnext hne hr) (by decide) false, .put hput⟩
  | @deleteRange req t res affected hdel =>
      refine h.native hQ (fun _ => Cmd.noConfusion) (.deleteRange hdel) hr ?_
      rcases cmdDeleteRange_cases hok hdel with hnone | ⟨hne, hadds⟩
      · exact .inl hnone
      · exact .inr ⟨hne, _, revAt_upper (hnext hne hr) (by decide) true, hadds⟩
  | compact =>
      rw [List.append_nil]
      exact Turbokube.Noted.mark h (UInt64.le_iff_toNat_le.mp hQ.2.1)
  | @txn req success t res affected hcmp htxn =>
      refine h.native hQ (fun _ => Cmd.noConfusion) (.txn hcmp htxn) hr ?_
      by_cases hnil : affected = []
      · refine .inl ⟨hnil, ?_⟩
        exact ((txnRun_of_txnOps htxn).opSteps (A := fun _ => True) hok (fun _ _ => trivial)).2 hnil
      · rcases txnLoop_writesLast hok (hQ.2.2 success hcmp) rfl (hnext hnil hr)
          (by simpa using branch_length_le hQ.1.1 success) (txnOps_inv htxn) with
          ⟨hkeys, -⟩ | ⟨-, -, kr, hkr, hadds⟩
        · exact absurd hkeys hnil
        · exact .inr ⟨hnil, kr, hkr, hadds⟩
  | @txnFailed req success t res affected e hcmp htxn =>
      have hnil : affected = [] := by
        by_contra hne
        obtain ⟨acc, hloop, hkeys⟩ := txnOps_failed htxn
        rcases txnLoop_writesLast hok (hQ.2.2 success hcmp) rfl (hnext hne hr)
          (by simpa using branch_length_le hQ.1.1 success) hloop with ⟨hnone, -⟩ | ⟨-, herr, -⟩
        · exact hne (hkeys ▸ hnone)
        · cases herr
      subst hnil
      exact h.subset (by simp [queue_eq])
  | @leaseRevoke id t affected val hrevoke =>
      have hrevoke' := Turbokube.Noted.revoke h hrevoke (by
        simp only [nextRev_eq] at hr
        omega)
      rw [← nextRev_eq, ← queue_eq] at hrevoke'
      exact hrevoke'
  | quiet heff hkv hrev hmark =>
      have hcons := h.consistent.effect hQ.1 heff hr
      rw [hrev] at hcons
      rw [List.append_nil, Batch.Noted, hrev, hmark]
      exact Turbokube.Noted.congr h hcons hkv
  | tick rc hterm hloop =>
      simp only at hr
      have hnoted : Turbokube.Noted E b.store.tables b.newRev b.store.dbMeta.revMin.toNat
          (queued ++ []) := by
        rw [List.append_nil]
        exact h
      have hloop' := Turbokube.Noted.expireLoop hnoted hloop (by omega)
      exact Turbokube.Noted.compactLeft hloop'

end Entries

/-- A replica and its notices. -/
structure NotesOk (E : Env) (σ : Storage) : Prop where
  synced : σ.batch.Synced σ.store.dbMeta.rev
  current : σ.batch.newRev + 1 < 2 ^ 52 → σ.batch.Noted E (σ.flushed ++ σ.queued)
  committed : σ.store.dbMeta.rev + 1 < 2 ^ 52 → (Batch.start σ.store).Noted E σ.flushed

theorem StorageRun.notesOk {σ : Storage} (h : StorageRun E (fun b cmd => cmd.Notable E b) σ) :
    NotesOk E σ := by
  induction h with
  | init =>
      have hinit : (Batch.start .init).Noted E [] :=
        ⟨.empty, by decide, (fun w hw => by cases hw), (fun n hn => by cases hn),
          (fun n hn => by cases hn)⟩
      exact ⟨synced_start _, fun _ => hinit, fun _ => hinit⟩
  | update _ hQ hact ih =>
      obtain ⟨b', new, heff, -, rfl⟩ := Storage.update_inv hact
      refine ⟨heff.synced ih.synced, fun hr => ?_, ih.committed⟩
      have hr' : b'.newRev + 1 < 2 ^ 52 := hr
      have hle := heff.newRev_le
      have hstep := (ih.current (by omega)).step hQ heff hr'
      rw [List.append_assoc] at hstep
      exact hstep
  | @commit σ _ _ hact ih =>
      obtain ⟨index, rfl⟩ := Storage.commit_inv hact
      -- the committed store has the tables, the revision and the mark of the batch
      have hfinish := finish_eq ih.synced index
      have hcurrent : σ.batch.newRev + 1 < 2 ^ 52 →
          (Batch.start (σ.batch.finish σ.store.dbMeta.rev index)).Noted E
            (σ.flushed ++ σ.queued) := by
        rw [hfinish]
        exact ih.current
      have hrev : (σ.batch.finish σ.store.dbMeta.rev index).dbMeta.rev = σ.batch.newRev := by
        rw [hfinish]
      refine ⟨synced_start _, fun hr => hcurrent ?_, fun hr => (hcurrent ?_).subset (by simp)⟩
      · rw [← hrev]
        exact hr
      · rw [← hrev]
        exact hr
  | @flush σ _ _ hact ih =>
      obtain ⟨htxn, rfl⟩ := Storage.flush_inv hact
      have hcurrent := ih.current
      rw [Storage.batch, htxn] at hcurrent
      refine ⟨synced_start _, fun hr => ?_, hcurrent⟩
      rw [List.append_nil]
      exact hcurrent hr

end Turbokube
