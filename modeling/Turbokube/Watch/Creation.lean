import Turbokube.Machine.Events
import Turbokube.Machine.StorageEffect
import Turbokube.Model.StorageWatch
import Turbokube.Store.PartialCompaction

/-!
# What a new watch of the storage module is told

Every write has a notice of its revision that names its key (`Told`), and so has every event.
A flush hands the notices of a transaction to the watches that are open, so a watch is told of
every revision that is flushed while it is open.

A watch without a start revision gets its revision before it is open.  A transaction that is
committed and flushed in between is later than that revision and yet not told of.  The watch
misses nothing when this does not happen (`StorageWatchAction.Timely`).
-/

namespace Turbokube

open Encoding Lmdb DbKv

section Notices

variable {E : Env} {t t' : Tables} {r : Nat} {epoch : UInt64} {queued queued' : List Queued}

/-- The tables at revision `r`, with notices for all writes. -/
structure Told (E : Env) (t : Tables) (r : Nat) (queued : List Queued) : Prop where
  versioned : t.kv.Versioned E False False ((r + 1) * 4096)
  named : ∀ w ∈ t.kv.log, ∃ n ∈ queued, n.rev = w.kr.upper.toNat ∧ w.key ∈ n.keys

namespace Told

theorem empty : Told E .empty r queued :=
  ⟨.empty, fun w hw => by cases hw⟩

theorem mono (h : Told E t r queued) (hsub : queued ⊆ queued') : Told E t r queued' := by
  refine ⟨h.versioned, fun w hw => ?_⟩
  obtain ⟨n, hn, hname⟩ := h.named w hw
  exact ⟨n, hsub hn, hname⟩

theorem congr {r' : Nat} (h : Told E t r queued) (hkv : t'.kv = t.kv) (hle : r ≤ r') :
    Told E t' r' queued := by
  refine ⟨?_, ?_⟩
  · rw [hkv]
    exact h.versioned.mono (by omega)
  · rw [hkv]
    exact h.named

/-- A command and its notice.  Its writes are recorded as events, and those name the keys. -/
theorem adds {A : PutRequest → Prop} {affected : List Bytes} (h : Told E t r queued)
    (hver : t'.kv.Versioned E False False ((revAfter r affected + 1) * 4096))
    (hrun : KvRun E A 1024 t.kv r t'.kv (revAfter r affected))
    (hgrows : GrowsTo t.kv t'.kv r (revAfter r affected) affected) :
    Told E t' (revAfter r affected)
      (queued ++ if affected = [] then [] else [⟨r + 1, affected⟩]) := by
  obtain ⟨ch, hrep, hlog, -⟩ := id h.versioned
  obtain ⟨-, -, hlog', -⟩ := id hver
  have hold : ∀ w ∈ t.kv.log, w.kr.upper.toNat ≤ r := by
    intro w hw
    have hlt := hlog.lt w hw
    rw [ite_self] at hlt
    rw [Keyrev.upper_toNat]
    omega
  have hrec : Recorded t'.kv (r + 1) :=
    Recorded.kvRun (fun w hw hfloor => absurd (hold w hw) (by omega)) hrun
  refine ⟨hver, fun w hw => ?_⟩
  obtain ⟨-, new, hnew, hrev⟩ := hrun.log_append
  have hmem := id hw
  rw [hnew] at hmem
  rcases List.mem_append.mp hmem with hw' | hw'
  · obtain ⟨n, hn, hname⟩ := h.named w hw'
    exact ⟨n, List.mem_append_left _ hn, hname⟩
  · have hupper := hlog'.upper w hw
    have hgt := hrev w hw'
    obtain ⟨evt, hevt, hkey, hkr⟩ := hrec w hw (by omega)
    obtain ⟨p, hp, rfl⟩ := List.mem_map.mp hevt
    rcases hgrows.new p hp with hp' | ⟨-, hlo, hhi, hin⟩
    · have hlt := (hrep.evt_lt hlog hp').2
      rw [hkr] at hlt
      rw [Keyrev.upper_toNat] at hupper
      omega
    · rw [revAfter, if_neg (List.ne_nil_of_mem hin)] at hhi
      rw [if_neg (List.ne_nil_of_mem hin)]
      refine ⟨_, List.mem_append_right _ (List.mem_singleton_self _), ?_, hkey ▸ hin⟩
      rw [← hkr, Keyrev.upper_toNat]
      simp only
      omega

/-- A compaction takes events away and leaves the writes. -/
theorem compactLeft (h : Told E t r queued) (mark : UInt64) :
    Told E { t with kv := StorageKv.compactLeft E t.kv mark } r queued := by
  obtain ⟨ch, hrep, hlog, -⟩ := id h.versioned
  obtain ⟨d, hpiece, hcases⟩ := StorageKv.compactBy_cases hrep hlog
    (by decide : 1 ≤ StorageKv.limitCompactionMaxKeys) mark
  have hs := hpiece.shortened hrep hlog
  rw [StorageKv.compactLeft, (hcases E).1]
  refine ⟨⟨_, hs.rep hrep hlog, hs.logOk hlog, fun hU => hU.elim⟩, ?_⟩
  rw [hs.log]
  exact h.named

/-- A revocation, with its notice if it affected keys. -/
theorem revoke {id val : UInt64} {affected : List Bytes} (h : Told E t r queued)
    (hrevoke : cmdLeaseRevoke t (r + 1) epoch id = .ok (t', affected, val))
    (hr : revAfter r affected < 2 ^ 52) :
    Told E t' (revAfter r affected)
      (queued ++ if affected = [] then [] else [⟨r + 1, affected⟩]) := by
  have hok := h.versioned.recsOk
  by_cases hnil : affected = []
  · subst hnil
    rw [if_pos rfl, List.append_nil]
    exact h.congr (revoke_same hok hrevoke) (le_revAfter _ _)
  · have hafter : revAfter r affected = r + 1 := by rw [revAfter, if_neg hnil]
    have hrun : KvRun E (fun _ => False) 1024 t.kv r t'.kv (revAfter r affected) :=
      revoke_kvRun (by decide) hok hrevoke
    refine h.adds (h.versioned.kvRun (fun _ hfalse => hfalse.elim) hr hrun) hrun ?_
    rw [hafter] at hr ⊢
    exact .revoke hok hr hrevoke

/-- The revocations of a tick, each with its notice. -/
theorem expireLoop {l : List (Bytes × Bytes)} {r' : Nat} {old new : List Queued}
    (h : Told E t r (old ++ queued))
    (hloop : StorageKv.expireLoop epoch l t r queued = .ok (t', r', new)) (hr' : r' < 2 ^ 52) :
    Told E t' r' (old ++ new) := by
  refine StorageKv.expireLoop_induct (P := fun t r queued => Told E t r (old ++ queued))
    (fun htold hrevoke hle => ?_) h hloop
  rw [← List.append_assoc]
  exact htold.revoke hrevoke (hle.trans_lt hr')

end Told

theorem StorageKv.expireLoop_rev {l : List (Bytes × Bytes)} {r₀ r' : Nat} {new : List Queued}
    (hold : ∀ n ∈ queued, r₀ < n.rev ∧ n.rev ≤ r) (hle : r₀ ≤ r)
    (hloop : StorageKv.expireLoop epoch l t r queued = .ok (t', r', new)) :
    ∀ n ∈ new, r₀ < n.rev ∧ n.rev ≤ r' := by
  refine (StorageKv.expireLoop_induct
    (P := fun _ r queued => r₀ ≤ r ∧ ∀ n ∈ queued, r₀ < n.rev ∧ n.rev ≤ r)
    (fun {_ _ r _ _ affected _} hqueued _ _ => ?_) ⟨hle, hold⟩ hloop).2
  have hafter := le_revAfter r affected
  refine ⟨hqueued.1.trans hafter, fun n hn => ?_⟩
  rcases List.mem_append.mp hn with hn | hn
  · have := hqueued.2 n hn
    omega
  · split at hn
    · cases hn
    · rename_i hne
      have hr₀ := hqueued.1
      rw [List.mem_singleton.mp hn, revAfter, if_neg hne]
      simp only
      omega

end Notices

section Entries

variable {E : Env} {b b' : Batch} {cmd : Cmd} {t' : Tables} {queued new : List Queued}

def Batch.Told (E : Env) (b : Batch) (queued : List Queued) : Prop :=
  Turbokube.Told E b.store.tables b.newRev queued

/-- A command of the native state machine that writes. -/
theorem Batch.Told.native {affected : List Bytes} (h : b.Told E queued)
    (hops : cmd.OpsAtMost 1024) (hcmd : ∀ revision, cmd ≠ .compact revision)
    (heff : Effect E b cmd
      { b.setTables t' with newRev := b.nextRev affected, keys := b.keys ++ affected })
    (hr : b.nextRev affected < 2 ^ 52) :
    Turbokube.Told E t' (b.nextRev affected) (queued ++ b.queue affected) := by
  have hok := h.versioned.recsOk
  obtain ⟨new, hkeys, hgrows⟩ := heff.grows hcmd hops hok hr
  obtain rfl : affected = new := List.append_cancel_left hkeys
  rcases heff.kvRun (by decide) hops (putsMeet_true cmd) hok with hrun | ⟨revision, -, heq, -⟩
  · have hver := h.versioned.kvRun (fun _ _ hfalse => hfalse.elim) hr hrun
    simp only [nextRev_eq] at hver hgrows hrun
    rw [nextRev_eq, queue_eq]
    exact Turbokube.Told.adds h hver hrun hgrows
  · exact absurd heq (hcmd revision)

theorem Batch.Told.step (h : b.Told E queued) (hops : cmd.OpsAtMost 1024)
    (heff : StorageKv.Effect E b cmd b' new) (hr : b'.newRev < 2 ^ 52) :
    b'.Told E (queued ++ new) := by
  cases heff with
  | keep =>
      rw [List.append_nil]
      exact h
  | put haccept hput => exact h.native hops (fun _ => Cmd.noConfusion) (.put haccept hput) hr
  | deleteRange hdel => exact h.native hops (fun _ => Cmd.noConfusion) (.deleteRange hdel) hr
  | compact =>
      rw [List.append_nil]
      exact h
  | txn hcmp htxn => exact h.native hops (fun _ => Cmd.noConfusion) (.txn hcmp htxn) hr
  | @txnFailed _ _ _ _ affected _ _ _ =>
      have hle : b.newRev ≤ b.nextRev affected := by
        rw [nextRev_eq]
        exact le_revAfter _ _
      exact (Turbokube.Told.congr h rfl hle).mono (List.subset_append_left _ _)
  | leaseRevoke hrevoke =>
      exact h.native hops (fun _ => Cmd.noConfusion) (.leaseRevoke hrevoke) hr
  | quiet _ hkv hrev _ =>
      rw [List.append_nil]
      exact Turbokube.Told.congr h hkv hrev.ge
  | tick _ _ hloop =>
      have hnil : Turbokube.Told E b.store.tables b.newRev (queued ++ []) := by
        rw [List.append_nil]
        exact h
      exact (hnil.expireLoop hloop hr).compactLeft _

/-- A notice is of a revision the entry took. -/
theorem StorageKv.Effect.queued_rev (heff : StorageKv.Effect E b cmd b' new) :
    ∀ n ∈ new, b.newRev < n.rev ∧ n.rev ≤ b'.newRev := by
  have hqueue : ∀ {affected : List Bytes}, ∀ n ∈ b.queue affected,
      b.newRev < n.rev ∧ n.rev ≤ b.nextRev affected := by
    intro affected n hn
    rw [Batch.queue_eq] at hn
    rw [Batch.nextRev_eq, revAfter]
    split at hn
    · cases hn
    · rename_i hne
      rw [List.mem_singleton.mp hn, if_neg hne]
      exact ⟨Nat.lt_succ_self _, le_rfl⟩
  cases heff with
  | tick _ _ hloop => exact StorageKv.expireLoop_rev (by simp) le_rfl hloop
  | put _ _ => exact hqueue
  | deleteRange _ => exact hqueue
  | txn _ _ => exact hqueue
  | txnFailed _ _ => exact hqueue
  | leaseRevoke _ => exact hqueue
  | _ => exact fun n hn => by cases hn

end Entries

/-- The first scan is over. -/
def StartPhase.hasScanned : StartPhase → Bool
  | .called | .generating | .reserved | .checked | .failed => false
  | .scanned | .opened | .rescanned | .stored | .started | .returned => true

/-- The notices of a flush that a watch in this state would have to be told of. -/
def WatchStart.concerned (hits : Bytes → Bytes → Bytes → Bool) (w : WatchStart) (n : Queued) :
    Bool :=
  w.rev < n.rev && n.keys.any (hits w.req.key w.req.rangeEnd)

/-- A transaction that concerns a watch is not flushed between the first scan of the watch and
the opening of its interval. -/
def StorageWatchAction.Timely (hits : Bytes → Bytes → Bytes → Bool) (s : StorageWatch) :
    StorageWatchAction → Prop
  | .storage .flush => s.watch.phase.hasScanned → s.watch.isOpen = false →
      ∀ n ∈ s.storage.queued, s.watch.concerned hits n = false
  | .storage (.update ent) => ent.cmd.OpsAtMost 1024
  | _ => True

instance StorageWatchAction.Timely.decidable (hits : Bytes → Bytes → Bytes → Bool)
    (s : StorageWatch) (a : StorageWatchAction) : Decidable (a.Timely hits s) := by
  match a with
  | .storage .flush => unfold StorageWatchAction.Timely; infer_instance
  | .storage (.update ent) => unfold StorageWatchAction.Timely; infer_instance
  | .storage .commit => exact .isTrue trivial
  | .next _ => exact .isTrue trivial

/-- A call of `watchStart` from the start of a replica on, with steps that each meet `P`. -/
inductive StorageWatchRun (E : Env) (hits : Bytes → Bytes → Bytes → Bool)
    (P : StorageWatch → StorageWatchAction → Prop) : StorageWatch → Prop where
  | init (watchID : UInt64) (maps : WatchMaps) (req : WatchCreateRequest) (id : UInt64) :
      StorageWatchRun E hits P
        { watchID := watchID, maps := maps, watch := { req := req, watchId := id } }
  | act {s s' : StorageWatch} {a : StorageWatchAction} (h : StorageWatchRun E hits P s)
      (hP : P s a) (hact : s.act E hits a = some s') : StorageWatchRun E hits P s'

section Runs

variable {E : Env} {hits : Bytes → Bytes → Bytes → Bool} {s s' : StorageWatch}

/-- The replica and its notices. -/
structure Flushes (E : Env) (σ : Storage) (flushedRev : Nat) : Prop where
  synced : σ.batch.Synced σ.store.dbMeta.rev
  current : σ.batch.newRev < 2 ^ 52 → σ.batch.Told E (σ.flushed ++ σ.queued)
  committed : σ.store.dbMeta.rev < 2 ^ 52 → (Batch.start σ.store).Told E (σ.flushed ++ σ.queued)
  floor : flushedRev ≤ σ.batch.newRev
  queued : ∀ n ∈ σ.queued, flushedRev < n.rev
  flushed : ∀ n ∈ σ.flushed, n.rev ≤ σ.store.dbMeta.rev
  bounded : ∀ n ∈ σ.flushed ++ σ.queued, n.rev ≤ σ.batch.newRev

namespace Flushes

variable {σ σ' : Storage} {flushedRev : Nat}

theorem init : Flushes E {} Store.init.dbMeta.rev := by
  have hinit : (Batch.start .init).Told E [] := Turbokube.Told.empty
  exact ⟨synced_start _, fun _ => hinit, fun _ => hinit, le_rfl, (by simp), (by simp), (by simp)⟩

theorem update {ent : Entry} (h : Flushes E σ flushedRev) (hops : ent.cmd.OpsAtMost 1024)
    (hact : σ.act E (.update ent) = some σ') : Flushes E σ' flushedRev := by
  obtain ⟨b', new, heff, -, rfl⟩ := Storage.update_inv hact
  have hle := heff.newRev_le
  have hnew := heff.queued_rev
  have hfloor := h.floor
  refine ⟨heff.synced h.synced, fun hr => ?_, fun hr => ?_, hfloor.trans hle, fun n hn => ?_,
    h.flushed, fun n hn => ?_⟩
  · have hr' : b'.newRev < 2 ^ 52 := hr
    have hstep := (h.current (by omega)).step hops heff hr'
    rw [List.append_assoc] at hstep
    exact hstep
  · refine (h.committed hr).mono ?_
    rw [← List.append_assoc]
    exact List.subset_append_left _ _
  · rcases List.mem_append.mp hn with hn | hn
    · exact h.queued n hn
    · exact hfloor.trans_lt (hnew n hn).1
  · rw [← List.append_assoc] at hn
    rcases List.mem_append.mp hn with hn | hn
    · exact (h.bounded n hn).trans hle
    · exact (hnew n hn).2

theorem commit (h : Flushes E σ flushedRev) (hact : σ.act E .commit = some σ') :
    Flushes E σ' flushedRev := by
  obtain ⟨index, rfl⟩ := Storage.commit_inv hact
  -- the committed store has the tables and the revision of the batch
  have hfinish := finish_eq h.synced index
  have hrev : (σ.batch.finish σ.store.dbMeta.rev index).dbMeta.rev = σ.batch.newRev := by
    rw [hfinish]
  have htold : (σ.batch.finish σ.store.dbMeta.rev index).dbMeta.rev < 2 ^ 52 →
      (Batch.start (σ.batch.finish σ.store.dbMeta.rev index)).Told E (σ.flushed ++ σ.queued) := by
    rw [hfinish]
    exact h.current
  refine ⟨synced_start _, htold, htold, ?_, h.queued, fun n hn => ?_, fun n hn => ?_⟩
  · exact h.floor.trans hrev.ge
  · exact (h.bounded n (List.mem_append_left _ hn)).trans hrev.ge
  · exact (h.bounded n hn).trans hrev.ge

theorem flush (h : Flushes E σ flushedRev) (hact : σ.act E .flush = some σ') :
    Flushes E σ' σ'.store.dbMeta.rev := by
  obtain ⟨htxn, rfl⟩ := Storage.flush_inv hact
  have hbatch : σ.batch = .start σ.store := by rw [Storage.batch, htxn]
  have hbounded := h.bounded
  rw [hbatch] at hbounded
  refine ⟨synced_start _, fun hr => ?_, fun hr => ?_, le_rfl, (by simp), hbounded, ?_⟩
  · rw [List.append_nil]
    exact h.committed hr
  · rw [List.append_nil]
    exact h.committed hr
  · rw [List.append_nil]
    exact hbounded

end Flushes

/-- A watch without a start revision: once its first scan is over, it has been told of what was
flushed since. -/
structure Following (hits : Bytes → Bytes → Bytes → Bool) (s : StorageWatch) : Prop where
  direct : s.watch.phase ≠ .opened ∧ s.watch.phase ≠ .rescanned
  opened : s.watch.isOpen = true ↔ s.watch.phase = .started ∨ s.watch.phase = .returned
  init : ∀ id revision, .init id revision ∈ s.watch.sent →
    s.watch.phase.hasScanned = true ∧ revision = s.watch.rev
  told : s.watch.phase.hasScanned = true → ∀ n ∈ s.storage.flushed,
    s.watch.concerned hits n = true → n.rev ∈ s.watch.notices

/-- A step of `watchStart` leaves the replica, the request and what the watch was told. -/
theorem StorageWatch.next_frame {taken : Bool} (h : s.next E taken = some s') :
    s'.storage = s.storage ∧ s'.flushedRev = s.flushedRev ∧ s'.watch.req = s.watch.req ∧
      s'.watch.notices = s.watch.notices := by
  have hscan : ∀ {since : UInt64} {start : Bool} {phase : StartPhase},
      s.scan E since start phase = some s' →
      s'.storage = s.storage ∧ s'.flushedRev = s.flushedRev ∧ s'.watch.req = s.watch.req ∧
        s'.watch.notices = s.watch.notices := by
    intro since start phase hscan
    unfold StorageWatch.scan at hscan
    simp only at hscan
    split at hscan
    · cases hscan
    · obtain rfl := Option.some.inj hscan
      exact ⟨rfl, rfl, rfl, rfl⟩
  unfold StorageWatch.next at h
  split at h
  · obtain rfl := Option.some.inj h
    unfold StorageWatch.reserve StorageWatch.generate
    split
    · exact ⟨rfl, rfl, rfl, rfl⟩
    · split <;> exact ⟨rfl, rfl, rfl, rfl⟩
  · obtain rfl := Option.some.inj h
    exact ⟨rfl, rfl, rfl, rfl⟩
  · obtain rfl := Option.some.inj h
    unfold StorageWatch.check
    simp only
    split <;> exact ⟨rfl, rfl, rfl, rfl⟩
  · exact hscan h
  · obtain rfl := Option.some.inj h
    split <;> exact ⟨rfl, rfl, rfl, rfl⟩
  · exact hscan h
  · obtain rfl := Option.some.inj h
    exact ⟨rfl, rfl, rfl, rfl⟩
  · obtain rfl := Option.some.inj h
    exact ⟨rfl, rfl, rfl, rfl⟩
  · obtain rfl := Option.some.inj h
    exact ⟨rfl, rfl, rfl, rfl⟩
  · cases h
  · cases h

namespace Following

/-- A step before the first scan. -/
theorem before {w : WatchStart} {watchID : UInt64} (h : Following hits s)
    (hphase : s.watch.phase.hasScanned = false) (hphase' : w.phase.hasScanned = false)
    (hopen : w.isOpen = s.watch.isOpen)
    (hsent : ∀ id revision, .init id revision ∈ w.sent → .init id revision ∈ s.watch.sent) :
    Following hits { s with watchID := watchID, watch := w } := by
  have hclosed : s.watch.isOpen = false := by
    rw [← Bool.not_eq_true, h.opened]
    rintro (heq | heq) <;> rw [heq] at hphase <;> cases hphase
  refine ⟨⟨fun heq => ?_, fun heq => ?_⟩, ?_, fun id revision hmem => ?_, fun heq => ?_⟩
  · rw [heq] at hphase'
    cases hphase'
  · rw [heq] at hphase'
    cases hphase'
  · rw [hopen, hclosed]
    refine ⟨Bool.noConfusion, ?_⟩
    rintro (heq | heq) <;> rw [heq] at hphase' <;> cases hphase'
  · have hscanned := (h.init id revision (hsent id revision hmem)).1
    rw [hphase] at hscanned
    cases hscanned
  · rw [hphase'] at heq
    cases heq

/-- A step after the first scan, which keeps the revision. -/
theorem after {maps : WatchMaps} {w : WatchStart} (h : Following hits s)
    (hphase : s.watch.phase.hasScanned = true) (hphase' : w.phase.hasScanned = true)
    (hdirect : w.phase ≠ .opened ∧ w.phase ≠ .rescanned)
    (hopen : w.isOpen = true ↔ w.phase = .started ∨ w.phase = .returned)
    (hsent : ∀ id revision, .init id revision ∈ w.sent → .init id revision ∈ s.watch.sent)
    (hrev : w.rev = s.watch.rev) (hreq : w.req = s.watch.req)
    (hnotices : w.notices = s.watch.notices) :
    Following hits { s with maps := maps, watch := w } := by
  refine ⟨hdirect, hopen, fun id revision hmem => ⟨hphase', ?_⟩, fun _ n hn hconcerned => ?_⟩
  · rw [(h.init id revision (hsent id revision hmem)).2]
    exact hrev.symm
  · simp only [WatchStart.concerned, hrev, hreq] at hconcerned
    simp only [hnotices]
    exact h.told hphase n hn hconcerned

/-- The first scan.  All that was flushed before is no later than its revision. -/
theorem scan {w : WatchStart} (h : Following hits s) (hphase : s.watch.phase = .checked)
    (hbounds : ∀ n ∈ s.storage.flushed, n.rev ≤ s.storage.store.dbMeta.rev)
    (hphase' : w.phase = .scanned) (hopen : w.isOpen = s.watch.isOpen)
    (hsent : w.sent = s.watch.sent ++ [.init s.watch.watchId s.storage.store.dbMeta.rev])
    (hrev : w.rev = s.storage.store.dbMeta.rev) : Following hits { s with watch := w } := by
  have hclosed : s.watch.isOpen = false := by
    rw [← Bool.not_eq_true, h.opened, hphase]
    rintro (heq | heq) <;> cases heq
  refine ⟨?_, ?_, fun id revision hmem => ?_, fun _ n hn hconcerned => ?_⟩
  · simp only [hphase']
    exact ⟨StartPhase.noConfusion, StartPhase.noConfusion⟩
  · simp only [hphase', hopen, hclosed]
    decide
  · simp only [hsent, List.mem_append, List.mem_singleton] at hmem
    rcases hmem with hmem | hmem
    · have hscanned := (h.init id revision hmem).1
      rw [hphase] at hscanned
      cases hscanned
    · simp only [hphase', hrev]
      exact ⟨rfl, (StartMessage.init.inj hmem).2⟩
  · have hle := hbounds n hn
    simp only [WatchStart.concerned, hrev, Bool.and_eq_true, decide_eq_true_eq] at hconcerned
    omega

theorem next {taken : Bool} (h : Following hits s) (hsince : s.since = 0)
    (hbounds : ∀ n ∈ s.storage.flushed, n.rev ≤ s.storage.store.dbMeta.rev)
    (hnext : s.next E taken = some s') : Following hits s' := by
  have hkeep : ∀ {w : WatchStart}, w.sent = s.watch.sent →
      ∀ id revision, .init id revision ∈ w.sent → .init id revision ∈ s.watch.sent := by
    intro w hsent id revision hmem
    rwa [hsent] at hmem
  unfold StorageWatch.next at hnext
  split at hnext
  · rename_i hphase
    have hscanned : s.watch.phase.hasScanned = false := by rw [hphase]; rfl
    obtain rfl := Option.some.inj hnext
    unfold StorageWatch.reserve StorageWatch.generate
    split
    · refine h.before hscanned ?_ rfl (hkeep rfl)
      cases taken <;> rfl
    · split
      · refine h.before hscanned rfl rfl (fun id revision hmem => ?_)
        simpa using hmem
      · exact h.before hscanned rfl rfl (hkeep rfl)
  · rename_i hphase
    obtain rfl := Option.some.inj hnext
    refine h.before (by rw [hphase]; rfl) ?_ rfl (hkeep rfl)
    cases taken <;> rfl
  · rename_i hphase
    obtain rfl := Option.some.inj hnext
    unfold StorageWatch.check
    rw [hsince, if_neg (by simp)]
    exact h.before (by rw [hphase]; rfl) rfl rfl (hkeep rfl)
  · rename_i hphase
    simp only [StorageWatch.scan, StorageKv.watchScan, hsince, if_true] at hnext
    obtain rfl := Option.some.inj hnext
    exact h.scan hphase hbounds rfl rfl rfl rfl
  · rename_i hphase
    rw [if_pos hsince] at hnext
    obtain rfl := Option.some.inj hnext
    refine h.after (by rw [hphase]; rfl) rfl ⟨nofun, nofun⟩ ?_ (hkeep rfl) rfl rfl rfl
    show s.watch.isOpen = true ↔ StartPhase.stored = .started ∨ StartPhase.stored = .returned
    rw [h.opened, hphase]
    decide
  · rename_i hphase
    exact absurd hphase h.direct.1
  · rename_i hphase
    exact absurd hphase h.direct.2
  · rename_i hphase
    obtain rfl := Option.some.inj hnext
    exact h.after (by rw [hphase]; rfl) rfl ⟨nofun, nofun⟩ (by simp) (hkeep rfl) rfl rfl rfl
  · rename_i hphase
    obtain rfl := Option.some.inj hnext
    have hopen : s.watch.isOpen = true := h.opened.mpr (.inl hphase)
    refine h.after (by rw [hphase]; rfl) rfl ⟨nofun, nofun⟩ (by simp [hopen])
      (fun id revision hmem => ?_) rfl rfl rfl
    rcases List.mem_append.mp hmem with hmem | hmem
    · exact hmem
    · split at hmem
      · cases List.mem_singleton.mp hmem
      · cases hmem
  · cases hnext
  · cases hnext

/-- What the replica does before a flush. -/
theorem storage {σ : Storage} (h : Following hits s) (hflushed : σ.flushed = s.storage.flushed) :
    Following hits { s with storage := σ } := by
  refine ⟨h.direct, h.opened, h.init, ?_⟩
  simp only [hflushed]
  exact h.told

theorem flush {σ : Storage} {flushedRev : Nat} (h : Following hits s)
    (hflushed : σ.flushed = s.storage.flushed ++ s.storage.queued)
    (htimely : s.watch.phase.hasScanned → s.watch.isOpen = false →
      ∀ n ∈ s.storage.queued, s.watch.concerned hits n = false) :
    Following hits { s with
      storage := σ, flushedRev := flushedRev, watch := s.watch.flush hits s.storage.queued } := by
  cases hopen : s.watch.isOpen with
  | false =>
      have hsame : s.watch.flush hits s.storage.queued = s.watch := by
        rw [WatchStart.flush, hopen]
        rfl
      rw [hsame]
      refine ⟨h.direct, h.opened, h.init, fun hscanned n hn hconcerned => ?_⟩
      simp only [hflushed] at hn
      rcases List.mem_append.mp hn with hn | hn
      · exact h.told hscanned n hn hconcerned
      · rw [htimely hscanned hopen n hn] at hconcerned
        cases hconcerned
  | true =>
      have hsame : s.watch.flush hits s.storage.queued = { s.watch with
          notices := s.watch.notices ++ (s.storage.queued.filter (fun n =>
            n.keys.any (hits s.watch.req.key s.watch.req.rangeEnd))).map Queued.rev } :=
        if_pos hopen
      rw [hsame]
      refine ⟨h.direct, h.opened, h.init, fun hscanned n hn hconcerned => ?_⟩
      simp only [hflushed] at hn
      rcases List.mem_append.mp hn with hn | hn
      · exact List.mem_append_left _ (h.told hscanned n hn hconcerned)
      · simp only [WatchStart.concerned, Bool.and_eq_true] at hconcerned
        exact List.mem_append_right _
          (List.mem_map_of_mem (List.mem_filter.mpr ⟨hn, hconcerned.2⟩))

end Following

/-- Everything about a run. -/
structure CreationOk (E : Env) (hits : Bytes → Bytes → Bytes → Bool) (s : StorageWatch) :
    Prop where
  flushes : Flushes E s.storage s.flushedRev
  following : s.since = 0 → Following hits s

theorem CreationOk.act {a : StorageWatchAction} (h : CreationOk E hits s)
    (htimely : a.Timely hits s)
    (hact : s.act E hits a = some s') : CreationOk E hits s' := by
  match a with
  | .next taken =>
      obtain ⟨hstorage, hrev, hreq, -⟩ := StorageWatch.next_frame hact
      refine ⟨by rw [hstorage, hrev]; exact h.flushes, fun hsince => ?_⟩
      rw [StorageWatch.since, hreq] at hsince
      exact (h.following hsince).next hsince h.flushes.flushed hact
  | .storage (.update ent) =>
      obtain ⟨σ, hσ, rfl⟩ := Option.map_eq_some_iff.mp hact
      refine ⟨h.flushes.update htimely hσ, fun hsince => (h.following hsince).storage ?_⟩
      obtain ⟨b', new, -, -, rfl⟩ := Storage.update_inv hσ
      rfl
  | .storage .commit =>
      obtain ⟨σ, hσ, rfl⟩ := Option.map_eq_some_iff.mp hact
      refine ⟨h.flushes.commit hσ, fun hsince => (h.following hsince).storage ?_⟩
      obtain ⟨index, rfl⟩ := Storage.commit_inv hσ
      rfl
  | .storage .flush =>
      obtain ⟨σ, hσ, rfl⟩ := Option.map_eq_some_iff.mp hact
      have hreq : (s.watch.flush hits s.storage.queued).req = s.watch.req := by
        unfold WatchStart.flush
        split <;> rfl
      refine ⟨h.flushes.flush hσ, fun hsince => ?_⟩
      simp only [StorageWatch.since, hreq] at hsince
      refine (h.following hsince).flush ?_ htimely
      obtain ⟨-, rfl⟩ := Storage.flush_inv hσ
      rfl

theorem StorageWatchRun.creationOk (h : StorageWatchRun E hits (fun s a => a.Timely hits s) s) :
    CreationOk E hits s := by
  induction h with
  | init watchID maps req id =>
      exact ⟨.init, fun _ => ⟨⟨nofun, nofun⟩, by simp, (by simp), nofun⟩⟩
  | act _ hP hact ih => exact ih.act hP hact

/-- Writes of the committed store that have been flushed have a notice that was. -/
theorem Flushes.notice_of_write {σ : Storage} {flushedRev : Nat} (h : Flushes E σ flushedRev)
    (hrev : σ.store.dbMeta.rev < 2 ^ 52) {w : Write} (hw : w ∈ σ.store.tables.kv.log)
    (hflushed : w.kr.upper.toNat ≤ flushedRev) :
    ∃ n ∈ σ.flushed, n.rev = w.kr.upper.toNat ∧ w.key ∈ n.keys := by
  obtain ⟨n, hn, hnrev, hkey⟩ := (h.committed hrev).named w hw
  rcases List.mem_append.mp hn with hn | hn
  · exact ⟨n, hn, hnrev, hkey⟩
  · have := h.queued n hn
    omega

end Runs

section Concrete

variable {E : Env} {hits : Bytes → Bytes → Bytes → Bool}
  {P : StorageWatch → StorageWatchAction → Prop} {s s' : StorageWatch}

def StorageWatch.ActsMeet (E : Env) (hits : Bytes → Bytes → Bytes → Bool)
    (P : StorageWatch → StorageWatchAction → Prop) : List StorageWatchAction → StorageWatch → Prop
  | [], _ => True
  | a :: rest, s =>
      P s a ∧
      match s.act E hits a with
      | none => True
      | some s' => ActsMeet E hits P rest s'

instance StorageWatch.ActsMeet.decidable [∀ s a, Decidable (P s a)] :
    (actions : List StorageWatchAction) → (s : StorageWatch) →
      Decidable (StorageWatch.ActsMeet E hits P actions s)
  | [], _ => .isTrue trivial
  | a :: rest, s => by
      unfold StorageWatch.ActsMeet
      cases s.act E hits a with
      | none => exact inferInstanceAs (Decidable (P s a ∧ True))
      | some s' =>
          have := StorageWatch.ActsMeet.decidable rest s'
          exact inferInstanceAs (Decidable (P s a ∧ StorageWatch.ActsMeet E hits P rest s'))

theorem StorageWatchRun.of_acts {actions : List StorageWatchAction}
    (h : StorageWatchRun E hits P s) (hP : StorageWatch.ActsMeet E hits P actions s)
    (hacts : StorageWatch.acts E hits actions s = some s') : StorageWatchRun E hits P s' := by
  induction actions generalizing s with
  | nil =>
      obtain rfl := Option.some.inj hacts
      exact h
  | cons a rest ih =>
      rw [StorageWatch.acts, Option.bind_eq_some_iff] at hacts
      obtain ⟨s₁, hact, hrest⟩ := hacts
      rw [StorageWatch.ActsMeet, hact] at hP
      exact ih (h.act hP.1 hact) hP.2 hrest

/-- A new replica, about to create a watch of one key. -/
def StorageWatch.calledFor (key : Bytes) : StorageWatch :=
  { watchID := 0, maps := ⟨fun _ => .absent, fun _ => 0⟩, watch := { req := { key := key } } }

/-- An interval without an end is one key. -/
def hitsKey (key rangeEnd k : Bytes) : Bool :=
  StorageKv.holds { key := key, rangeEnd := rangeEnd } k

/-- A put, in a transaction of its own. -/
def putActions (key value : Bytes) : List StorageWatchAction :=
  [.storage (.update { index := 1, cmd := .put { key := key, value := value } }), .storage .commit,
    .storage .flush]

/-- Steps of `watchStart` for a new id.  The third is its first scan, and the sixth its last
step. -/
def startSteps (n : Nat) : List StorageWatchAction := List.replicate n (.next false)

end Concrete

end Turbokube
