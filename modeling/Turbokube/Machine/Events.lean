import Turbokube.Machine.CompactMarks
import Turbokube.Machine.Growth
import Turbokube.Machine.Histories
import Turbokube.Store.Kept
import Turbokube.Store.Spacing

/-!
# The events of a batch

What a batch does to the event table: it adds the events of its writes after those that are
there, for keys it reports as affected, and its compactions take away the oldest ones.
`Recorded` says that from some revision on every write of the log still has its event.  The
converse is `DbKv.KeptFrom`: from there on an event that is left has its version.
-/

namespace Turbokube

open Encoding Lmdb DbKv

variable {E : Env} {S : Prop} {Q : Batch → Cmd → Prop} {b b' : Batch} {cmd : Cmd}

/-- An entry adds events above the revision it starts from, or it removes some. -/
theorem Effect.events_cases (hops : cmd.OpsAtMost 1024)
    (hver : b.store.tables.kv.Versioned E S False ((b.newRev + 1) * 4096))
    (hr : b'.newRev < 2 ^ 52) (heff : Effect E b cmd b') :
    (∃ new keys, b'.store.tables.kv.events = b.store.tables.kv.events ++ new ∧
        b'.keys = b.keys ++ keys ∧
        ∀ evt ∈ new, b.newRev < evt.rev.upper.toNat ∧ evt.rev.upper.toNat ≤ b'.newRev ∧
          evt.key ∈ keys) ∨
      ∃ revision : Int64, cmd = .compact revision ∧ b'.newRev = b.newRev ∧ b'.keys = b.keys ∧
        (∀ evt ∈ b'.store.tables.kv.events, evt ∈ b.store.tables.kv.events) ∧
        ∀ n, revision.toUInt64.toNat ≤ n →
          b'.store.tables.kv.eventsFrom n = b.store.tables.kv.eventsFrom n := by
  obtain ⟨ch, hrep, hlog, -⟩ := id hver
  by_cases hcmd : ∀ revision, cmd ≠ .compact revision
  · obtain ⟨keys, hkeys, hgrows⟩ := heff.grows hcmd hops hver.recsOk hr
    obtain ⟨new, hnew, hbounds⟩ := Grows.events hgrows (fun p hp => hrep.evt_lt hlog hp)
    refine .inl ⟨new, keys, hnew, hkeys, fun evt hevt => ?_⟩
    obtain ⟨hlo, hhi, hk⟩ := hbounds evt hevt
    rw [Keyrev.upper_toNat]
    exact ⟨by omega, by omega, hk⟩
  · push Not at hcmd
    obtain ⟨revision, rfl⟩ := hcmd
    cases heff with
    | keep => exact .inl ⟨[], [], by simp, by simp, by simp⟩
    | compact hc =>
        have hcomp := hrep.compacted hlog hc
        exact .inr ⟨revision, rfl, rfl, rfl, fun evt hevt => hcomp.event_of_event hevt,
          fun n hn => hcomp.eventsFrom_eq hn⟩

/-- What every effect keeps holds at the end of a series of entries. -/
theorem applyEntries_inv {I : Batch → Prop}
    (hstep : ∀ {b b' : Batch} {cmd : Cmd}, I b → Q b cmd → Effect E b cmd b' → I b')
    {ents : List Entry} {rs : List Result} (hQ : AllMeet E Q ents b)
    (h : applyEntries E ents b = .ok (b', rs)) (hb : I b) : I b' :=
  applyEntries_rec (I := I) (fun hb hq hent => hstep hb hq (effect_of_applyEntry hent)) hb hQ h

/-- What holds on when a write is logged with its event, every operation keeps. -/
theorem DbKv.OpStep.keeps_of_write {I : DbKv → Prop} {A : PutRequest → Prop} {rev subrev : Nat}
    {db db' : DbKv}
    (hwrite : ∀ {db db' : DbKv} (w : Write) (epoch : UInt64), I db → db'.log = db.log ++ [w] →
      db'.evt = db.evt.put w.kr.key (evtBytes w.kr epoch w.key) → I db')
    (h : I db) (hop : OpStep E A rev subrev db db') : I db' := by
  cases hop with
  | @put _ epoch req prev next patched hreq hput =>
      obtain ⟨-, hevt, hlog, -⟩ := put_tables hput
      exact hwrite ⟨rev, revAt rev subrev false, req.key,
        .put req.value req.lease.toUInt64 req.ignoreValue req.ignoreLease⟩ epoch h hlog hevt
  | @tombs epoch ks hchain =>
      clear hchain
      induction ks generalizing db with
      | nil => exact h
      | cons k ks ih => exact ih (hwrite ⟨rev, revAt rev subrev true, k, .delete⟩ epoch h rfl rfl)

/-- Every write of a revision from `floor` on has its event. -/
def Recorded (db : DbKv) (floor : Nat) : Prop :=
  ∀ w ∈ db.log, floor ≤ w.kr.upper.toNat → ∃ evt ∈ db.events, evt.key = w.key ∧ evt.rev = w.kr

namespace Recorded

variable {db db' : DbKv} {floor : Nat}

theorem mono {floor' : Nat} (h : Recorded db floor) (hle : floor ≤ floor') : Recorded db floor' :=
  fun w hw hw' => h w hw (hle.trans hw')

theorem mem_events {kr : Keyrev} (epoch : UInt64) {key : Bytes}
    (h : evtBytes kr epoch key ∈ db.evt.dups kr.key) :
    ∃ evt ∈ db.events, evt.key = key ∧ evt.rev = kr := by
  refine ⟨⟨epoch, key, kr⟩, List.mem_map.mpr ⟨(kr.key, evtBytes kr epoch key), ?_, ?_⟩, rfl, rfl⟩
  · exact DupTable.mem_pairs.mpr h
  · exact decodeEvt_evtBytes kr epoch key

/-- A write that adds its event to the table and to the log. -/
theorem write {w : Write} (epoch : UInt64) (h : Recorded db floor)
    (hlog : db'.log = db.log ++ [w])
    (hevt : db'.evt = db.evt.put w.kr.key (evtBytes w.kr epoch w.key)) : Recorded db' floor := by
  intro w' hw' hfloor
  rw [hlog] at hw'
  rcases List.mem_append.mp hw' with hw' | hw'
  · obtain ⟨evt, hevt', heq⟩ := h w' hw' hfloor
    obtain ⟨p, hp, rfl⟩ := List.mem_map.mp hevt'
    refine ⟨decodeEvt p, List.mem_map_of_mem ?_, heq⟩
    rw [DupTable.mem_pairs] at hp ⊢
    rw [hevt, DupTable.mem_dups_put]
    exact .inr hp
  · obtain rfl := List.mem_singleton.mp hw'
    refine mem_events epoch ?_
    rw [hevt, DupTable.mem_dups_put]
    exact .inl ⟨rfl, rfl⟩

theorem kvRun {A : PutRequest → Prop} {n r r' : Nat} (h : Recorded db floor)
    (hrun : KvRun E A n db r db' r') : Recorded db' floor := by
  refine hrun.keeps (I := fun db => Recorded db floor) (fun h hop => ?_) h
  exact hop.keeps_of_write (I := fun db => Recorded db floor)
    (fun _ epoch h hlog hevt => write epoch h hlog hevt) h

end Recorded

/-- A compaction up to `floor` keeps what is recorded from there on. -/
theorem Effect.recorded {floor : Nat} (hops : cmd.OpsAtMost 1024)
    (hver : b.store.tables.kv.Versioned E S False ((b.newRev + 1) * 4096))
    (heff : Effect E b cmd b')
    (hcompact : ∀ revision : Int64, cmd = .compact revision → revision.toUInt64.toNat ≤ floor)
    (h : Recorded b.store.tables.kv floor) : Recorded b'.store.tables.kv floor := by
  rcases heff.kvRun (by decide) hops (putsMeet_true cmd) hver.recsOk with
    hrun | ⟨revision, last, rfl, hsame, hc⟩
  · exact h.kvRun hrun
  · obtain ⟨ch, hrep, hlog, -⟩ := hver
    have hcomp := hrep.compacted hlog hc
    intro w hw hfloor
    rw [hcomp.log] at hw
    obtain ⟨evt, hevt, hkey, hrev⟩ := h w hw hfloor
    obtain ⟨p, hp, rfl⟩ := List.mem_map.mp hevt
    refine ⟨decodeEvt p, List.mem_map_of_mem ?_, hkey, hrev⟩
    refine hcomp.above p hp ?_
    rw [UInt64.le_iff_toNat_le, hrev]
    exact (hcompact revision rfl).trans hfloor

/-- A compaction up to `C` keeps the versions from there on. -/
theorem Effect.keptFrom {C : Nat} (hops : cmd.OpsAtMost 1024)
    (hputs : cmd.PutsMeet (fun req => S → req.SendsNoKept)) (heff : Effect E b cmd b')
    (hcompact : ∀ revision : Int64, cmd = .compact revision → revision.toUInt64.toNat ≤ C)
    (hr : b'.newRev < 2 ^ 52)
    (h : b.store.tables.kv.KeptFrom E S C ((b.newRev + 1) * 4096)) :
    b'.store.tables.kv.KeptFrom E S C ((b'.newRev + 1) * 4096) := by
  rcases heff.kvRun (by decide) hops hputs h.recsOk with hrun | ⟨revision, last, hcmd, hsame, hc⟩
  · exact h.kvRun (fun req hreq => hreq) hr hrun
  · rw [hsame]
    exact h.compact (hcompact revision hcmd) hc

section Marked

/-- A compaction asks for no revision below the mark. -/
def Cmd.KeepsMark (b : Batch) : Cmd → Prop
  | .compact revision => b.store.dbMeta.revMin ≤ revision.toUInt64
  | _ => True

instance (b : Batch) (cmd : Cmd) : Decidable (cmd.KeepsMark b) :=
  match cmd with
  | .compact revision =>
      inferInstanceAs (Decidable (b.store.dbMeta.revMin ≤ revision.toUInt64))
  | .term _ | .tick _ | .put _ | .deleteRange _ | .txn _ | .leaseGrant _ | .leaseRevoke _
  | .leaseKeepAlive _ | .leaseKeepAliveBatch _ | .invalid | .unknown | .empty => .isTrue trivial

/-- A compaction that keeps the mark keeps the versions from the new one on. -/
theorem Effect.keptFrom_mark (hops : cmd.OpsAtMost 1024)
    (hputs : cmd.PutsMeet (fun req => S → req.SendsNoKept)) (hmark : cmd.KeepsMark b)
    (heff : Effect E b cmd b') (hr : b'.newRev < 2 ^ 52)
    (h : b.store.tables.kv.KeptFrom E S b.store.dbMeta.revMin.toNat ((b.newRev + 1) * 4096)) :
    b'.store.tables.kv.KeptFrom E S b'.store.dbMeta.revMin.toNat
      ((b'.newRev + 1) * 4096) := by
  by_cases hcompact : ∃ revision, cmd = .compact revision
  · obtain ⟨revision, rfl⟩ := hcompact
    cases heff with
    | keep => exact h
    | compact hc => exact (h.mono_cut (UInt64.le_iff_toNat_le.mp hmark)).compact le_rfl hc
  · have hne : ∀ revision, cmd ≠ .compact revision := fun revision heq => hcompact ⟨revision, heq⟩
    rw [(heff.marks_eq hne).1]
    exact heff.keptFrom hops hputs (fun revision heq => absurd heq (hne revision)) hr h

theorem Effect.recorded_mark (hops : cmd.OpsAtMost 1024) (hmark : cmd.KeepsMark b)
    (hver : b.store.tables.kv.Versioned E False False ((b.newRev + 1) * 4096))
    (heff : Effect E b cmd b')
    (h : Recorded b.store.tables.kv b.store.dbMeta.revMin.toNat) :
    Recorded b'.store.tables.kv b'.store.dbMeta.revMin.toNat := by
  by_cases hcompact : ∃ revision, cmd = .compact revision
  · obtain ⟨revision, rfl⟩ := hcompact
    have hle : b.store.dbMeta.revMin.toNat ≤ revision.toUInt64.toNat :=
      UInt64.le_iff_toNat_le.mp hmark
    have heff' := id heff
    cases heff with
    | keep => exact h
    | compact hc =>
        refine heff'.recorded hops hver (fun r heq => ?_) (h.mono hle)
        obtain rfl := Cmd.compact.inj heq
        exact le_rfl
  · have hne : ∀ revision, cmd ≠ .compact revision := fun revision heq => hcompact ⟨revision, heq⟩
    rw [(heff.marks_eq hne).1]
    exact heff.recorded hops hver (fun revision heq => absurd heq (hne revision)) h

/-- The writes from the mark on have their events. -/
theorem Reached.recorded_mark
    (hQ : ∀ b cmd, Q b cmd → cmd.OpsAtMost 1024 ∧ cmd.KeepsMark b) (h : Reached E Q b)
    (hrev : b.newRev < 2 ^ 52) : Recorded b.store.tables.kv b.store.dbMeta.revMin.toNat := by
  induction h with
  | init => exact fun w hw => by cases hw
  | entry hb hq happly ih =>
      have heff := effect_of_applyEntry happly
      have hlt := heff.newRev_le.trans_lt hrev
      exact heff.recorded_mark (hQ _ _ hq).1 (hQ _ _ hq).2
        (hb.versioned_of_opsAtMost (fun _ _ hq => (hQ _ _ hq).1) hlt) (ih hlt)
  | commit index hb ih =>
      obtain ⟨htables, hrev', -⟩ := eq_of_core_eq (core_start_finish hb.synced index)
      rw [htables]
      exact ih (hrev' ▸ hrev)

/-- The events from the mark on have their versions. -/
theorem Reached.keptFrom_mark
    (hQ : ∀ b cmd, Q b cmd →
      cmd.OpsAtMost 1024 ∧ cmd.PutsMeet (fun req => S → req.SendsNoKept) ∧ cmd.KeepsMark b)
    (h : Reached E Q b) (hrev : b.newRev < 2 ^ 52) :
    b.store.tables.kv.KeptFrom E S b.store.dbMeta.revMin.toNat ((b.newRev + 1) * 4096) := by
  induction h with
  | init => exact .empty
  | entry _ hcmd happly ih =>
      have heff := effect_of_applyEntry happly
      obtain ⟨hops, hputs, hmark⟩ := hQ _ _ hcmd
      exact heff.keptFrom_mark hops hputs hmark hrev (ih (heff.newRev_le.trans_lt hrev))
  | @commit b index hb ih =>
      obtain ⟨htables, hrev', -⟩ := eq_of_core_eq (core_start_finish hb.synced index)
      rw [hrev'] at hrev
      have hkept := ih hrev
      rw [← htables, ← hrev'] at hkept
      exact hkept

end Marked

/-- Each event is counted by a write of its own. -/
def Tallied (db : DbKv) : Prop :=
  (db.events.map (fun evt => (evt.key, evt.rev))).Subperm (db.log.map (fun w => (w.key, w.kr)))

namespace Tallied

variable {db db' : DbKv}

/-- The entries of a table among others. -/
theorem subperm_pairs (t : DupTable Bytes Bytes) {l : List (Bytes × Bytes)} (h : t.pairs ⊆ l) :
    ((t.pairs.map decodeEvt).map (fun evt => (evt.key, evt.rev))).Subperm
      ((l.map decodeEvt).map (fun evt => (evt.key, evt.rev))) := by
  have hnodup : t.pairs.Nodup := by
    refine t.pairs_sorted.imp (fun {a b} hlt heq => ?_)
    subst heq
    rcases hlt with hlt | ⟨-, hlt⟩ <;> exact lt_irrefl _ hlt
  obtain ⟨m, hperm, hsub⟩ := List.subperm_of_subset hnodup h
  exact ⟨_, (hperm.map decodeEvt).map _, (hsub.map decodeEvt).map _⟩

theorem write {w : Write} (epoch : UInt64) (h : Tallied db) (hlog : db'.log = db.log ++ [w])
    (hevt : db'.evt = db.evt.put w.kr.key (evtBytes w.kr epoch w.key)) : Tallied db' := by
  have hsub : db'.evt.pairs ⊆ (w.kr.key, evtBytes w.kr epoch w.key) :: db.evt.pairs := by
    intro p hp
    rw [DupTable.mem_pairs, hevt, DupTable.mem_dups_put] at hp
    rcases hp with ⟨hk, hv⟩ | hp
    · obtain rfl : p = (w.kr.key, evtBytes w.kr epoch w.key) := Prod.ext hk hv
      exact List.mem_cons_self
    · exact List.mem_cons_of_mem _ (DupTable.mem_pairs.mpr hp)
  have hmap := subperm_pairs db'.evt hsub
  rw [List.map_cons, decodeEvt_evtBytes, List.map_cons] at hmap
  rw [Tallied, hlog, List.map_append]
  refine hmap.trans (((List.subperm_cons _).mpr h).trans ?_)
  exact (List.perm_append_singleton _ _).symm.subperm

theorem kvRun {A : PutRequest → Prop} {n r r' : Nat} (h : Tallied db)
    (hrun : KvRun E A n db r db' r') : Tallied db' := by
  refine hrun.keeps (I := Tallied) (fun h hop => ?_) h
  exact hop.keeps_of_write (fun _ epoch h hlog hevt => write epoch h hlog hevt) h

theorem shrunk (h : Tallied db) (hs : db.Shrunk db') : Tallied db' := by
  rw [Tallied, hs.log]
  exact (subperm_pairs db'.evt (fun p hp =>
    DupTable.mem_pairs.mpr (hs.evt _ _ (DupTable.mem_pairs.mp hp)))).trans h

end Tallied

theorem Reached.tallied (h : Reached E Q b) : Tallied b.store.tables.kv := by
  refine (h.inv (I := fun t _ _ => t.kv.RecsOk ∧ Tallied t.kv) ⟨.empty, ?_⟩ ?_).2
  · exact List.nil_subperm
  · intro b b' cmd ⟨hok, htally⟩ _ heff
    obtain ⟨n, hn, hops⟩ := opsAtMost_longest cmd
    rcases heff.kvRun hn hops (putsMeet_true cmd) hok with hrun | ⟨_, _, _, _, hcompact⟩
    · exact ⟨hok.kvRun hrun, htally.kvRun hrun⟩
    · exact ⟨(compact_shrunk hcompact).recsOk hok, htally.shrunk (compact_shrunk hcompact)⟩

/-- The order of the event table: by revision and operation, and one operation has one event
for a key. -/
def KvEvent.Before (a b : KvEvent) : Prop :=
  a.rev.word.toNat < b.rev.word.toNat ∨ a.rev = b.rev ∧ a.key ≠ b.key

theorem DbKv.Rep.events_before {db : DbKv} {ch : Bytes → List Version} {lo hi : Nat}
    (h : db.Rep E S ch) (hlog : LogOk db.log lo hi) (htally : Tallied db) :
    db.events.Pairwise KvEvent.Before := by
  have hnodup : (db.events.map (fun evt => (evt.key, evt.rev))).Nodup := by
    obtain ⟨l, hperm, hsub⟩ := htally
    exact hperm.nodup_iff.mp ((nodup_writes hlog.desc).sublist hsub)
  refine (h.events_sorted.and (List.pairwise_map.mp hnodup)).imp (fun {a b} ⟨hle, hne⟩ => ?_)
  rcases hle.lt_or_eq with hlt | heq
  · exact .inl hlt
  · have hrev : a.rev = b.rev := congrArg Keyrev.mk (UInt64.toNat_inj.mp heq)
    exact .inr ⟨hrev, fun hkey => hne (Prod.ext hkey hrev)⟩

/-- What `update` does with the batch it has applied. -/
theorem update_inv {s : Store} {ents : List Entry} {u : Updated} (h : update E s ents = .ok u) :
    ∃ b rs, applyEntries E ents (.start s) = .ok (b, rs) ∧ u.store.tables = b.store.tables ∧
      u.store.dbMeta.rev = b.newRev ∧ u.store.dbMeta.revMin = b.store.dbMeta.revMin ∧
      u.newRev = b.newRev ∧ u.keys = b.keys := by
  unfold update at h
  split at h
  · cases h
  · rename_i b rs happly
    split at h
    · cases h
    · obtain rfl := Except.ok.inj h
      have hsynced := synced_applyEntries (synced_start s) happly
      refine ⟨b, rs, happly, rfl, ?_, rfl, rfl, rfl⟩
      have hle := hsynced.le
      have hstored := hsynced.stored
      simp only [Batch.finish]
      split
      · rfl
      · omega

theorem rev_le_of_update {s : Store} {ents : List Entry} {u : Updated}
    (h : update E s ents = .ok u) : s.dbMeta.rev ≤ u.store.dbMeta.rev := by
  obtain ⟨b, rs, happly, -, hrev, -⟩ := update_inv h
  rw [hrev]
  exact (synced_applyEntries (synced_start s) happly).le

/-- Marks only move forward in a batch that keeps them. -/
theorem revMin_le_of_update {s : Store} {ents : List Entry} {u : Updated}
    (hQ : ∀ b cmd, Q b cmd → cmd.KeepsMark b) (hmeet : AllMeet E Q ents (.start s))
    (hu : update E s ents = .ok u) : s.dbMeta.revMin ≤ u.store.dbMeta.revMin := by
  obtain ⟨b, rs, happly, -, -, hmin, -⟩ := update_inv hu
  rw [hmin]
  refine applyEntries_inv (I := fun b => s.dbMeta.revMin ≤ b.store.dbMeta.revMin) ?_ hmeet happly
    (UInt64.le_refl _)
  intro b b' cmd hle hq heff
  by_cases hcompact : ∃ revision, cmd = .compact revision
  · obtain ⟨revision, rfl⟩ := hcompact
    cases heff with
    | keep => exact hle
    | compact _ => exact UInt64.le_trans hle (hQ _ _ hq)
  · rw [(heff.marks_eq (fun revision heq => hcompact ⟨revision, heq⟩)).1]
    exact hle

section Batch

variable {s : Store} {ents : List Entry} {u : Updated}

/-- The state of a batch that has begun in `s`: the tables are sound, and the events above the
revision of `s` are those of the batch. -/
structure Begun (E : Env) (s : Store) (b : Batch) : Prop where
  le : s.dbMeta.rev ≤ b.newRev
  versioned : VersionedTo E False False b.store.tables b.newRev
  fresh : b.newRev < 2 ^ 52 → ∀ evt ∈ b.store.tables.kv.events,
    s.dbMeta.rev < evt.rev.upper.toNat → evt.rev.upper.toNat ≤ b.newRev ∧ evt.key ∈ b.keys

theorem Begun.start {r : Nat} (h : VersionedTo E False False s.tables r) (hr : s.dbMeta.rev = r) :
    Begun E s (.start s) := by
  subst hr
  refine ⟨le_rfl, h, fun hrev evt hevt hlt => ?_⟩
  obtain ⟨ch, hrep, hlog, -⟩ := h hrev
  obtain ⟨x, hx, hxrev⟩ := hrep.version_of_event hevt
  have hle := hlog.upper_le le_rfl le_rfl hx
  rw [hxrev] at hle
  omega

theorem Begun.step (h : Begun E s b) (hops : cmd.OpsAtMost 1024) (heff : Effect E b cmd b') :
    Begun E s b' := by
  refine ⟨h.le.trans heff.newRev_le, heff.versionedTo hops ?_ (fun hU => hU.elim) h.versioned,
    fun hr evt hevt hlt => ?_⟩
  · cases cmd <;> simp [Cmd.PutsMeet]
  · have hr' := heff.newRev_le.trans_lt hr
    rcases heff.events_cases hops (h.versioned hr') hr with
      ⟨new, keys, hnew, hkeys, hbounds⟩ | ⟨revision, -, hsame, hkeys, hevents, -⟩
    · rw [hnew] at hevt
      rw [hkeys]
      rcases List.mem_append.mp hevt with hevt | hevt
      · obtain ⟨hle, hk⟩ := h.fresh hr' evt hevt hlt
        exact ⟨hle.trans heff.newRev_le, List.mem_append_left _ hk⟩
      · obtain ⟨-, hle, hk⟩ := hbounds evt hevt
        exact ⟨hle, List.mem_append_right _ hk⟩
    · rw [hsame, hkeys]
      exact h.fresh hr' evt (hevents evt hevt) hlt

/-- The events from `n` on: those of the start, and those of the batch. -/
def KeptFrom (n : Nat) (s : Store) (db : DbKv) : Prop :=
  db.eventsFrom n = s.tables.kv.eventsFrom n ++ db.eventsFrom (s.dbMeta.rev + 1)

theorem KeptFrom.step {n : Nat} (hn : n ≤ s.dbMeta.rev + 1) (hb : Begun E s b)
    (hops : cmd.OpsAtMost 1024)
    (hcompact : ∀ revision : Int64, cmd = .compact revision → revision.toUInt64.toNat ≤ n)
    (hr : b'.newRev < 2 ^ 52) (heff : Effect E b cmd b')
    (h : KeptFrom n s b.store.tables.kv) : KeptFrom n s b'.store.tables.kv := by
  have hle := hb.le
  have hr' := heff.newRev_le.trans_lt hr
  rcases heff.events_cases hops (hb.versioned hr') hr with
    ⟨new, keys, hnew, -, hbounds⟩ | ⟨revision, hcmd, -, -, -, hfrom⟩
  · -- the new events are above both bounds
    have hall : ∀ m ≤ s.dbMeta.rev + 1,
        b'.store.tables.kv.eventsFrom m = b.store.tables.kv.eventsFrom m ++ new := by
      intro m hm
      rw [eventsFrom, hnew, List.filter_append]
      refine congrArg _ (List.filter_eq_self.mpr (fun evt hevt => ?_))
      have := (hbounds evt hevt).1
      simp only [decide_eq_true_eq]
      omega
    rw [KeptFrom, hall n hn, hall _ le_rfl, h, List.append_assoc]
  · -- those a compaction removes are below both
    have hle := hcompact revision hcmd
    rw [KeptFrom, hfrom n hle, hfrom _ (hle.trans hn)]
    exact h

variable (hver : VersionedTo E False False s.tables s.dbMeta.rev)
  (hops : ∀ b cmd, Q b cmd → cmd.OpsAtMost 1024) (hQ : AllMeet E Q ents (.start s))
  (hu : update E s ents = .ok u) (hr : u.newRev < 2 ^ 52)

include hver hops hQ hu in
theorem begun_of_update :
    ∃ b, Begun E s b ∧ u.store.tables = b.store.tables ∧ u.store.dbMeta.rev = b.newRev ∧
      u.newRev = b.newRev ∧ u.keys = b.keys := by
  obtain ⟨b, rs, happly, htables, hrev, -, hnew, hkeys⟩ := update_inv hu
  refine ⟨b, ?_, htables, hrev, hnew, hkeys⟩
  exact applyEntries_inv (I := Begun E s) (fun hb hq heff => hb.step (hops _ _ hq) heff) hQ happly
    (.start hver rfl)

include hver hops hQ hu hr in
/-- Compactions up to `n` keep the events from `n` on. -/
theorem keptFrom_of_update {n : Nat} (hn : n ≤ s.dbMeta.rev + 1)
    (hcompact : ∀ b (revision : Int64), Q b (.compact revision) → revision.toUInt64.toNat ≤ n) :
    KeptFrom n s u.store.tables.kv := by
  obtain ⟨b, rs, happly, htables, -, -, hnew, -⟩ := update_inv hu
  rw [htables]
  rw [hnew] at hr
  have hinv := applyEntries_inv
    (I := fun b => Begun E s b ∧ (b.newRev < 2 ^ 52 → KeptFrom n s b.store.tables.kv)) ?_ hQ happly
    ⟨.start hver rfl, fun hr => ?_⟩
  · exact hinv.2 hr
  · intro b b' cmd ⟨hb, hkept⟩ hq heff
    refine ⟨hb.step (hops _ _ hq) heff, fun hr => ?_⟩
    refine KeptFrom.step hn hb (hops _ _ hq) (fun revision hcmd => ?_) hr heff
      (hkept (heff.newRev_le.trans_lt hr))
    subst hcmd
    exact hcompact b revision hq
  · -- nothing is above the revision of the start
    have hnone : s.tables.kv.eventsFrom (s.dbMeta.rev + 1) = [] := by
      refine List.filter_eq_nil_iff.mpr (fun evt hevt => ?_)
      have hfresh := (Begun.start hver rfl).fresh hr evt hevt
      simp only [decide_eq_true_eq]
      intro hlt
      have := (hfresh hlt).2
      cases this
    rw [KeptFrom]
    exact (List.append_nil _).symm.trans (congrArg _ hnone.symm)

include hver hops hQ hu hr in
theorem recorded_of_update {floor : Nat}
    (hcompact : ∀ b (revision : Int64), Q b (.compact revision) → revision.toUInt64.toNat ≤ floor)
    (h : Recorded s.tables.kv floor) : Recorded u.store.tables.kv floor := by
  obtain ⟨b, rs, happly, htables, -, -, hnew, -⟩ := update_inv hu
  rw [htables]
  rw [hnew] at hr
  have hinv := applyEntries_inv
    (I := fun b => Begun E s b ∧ (b.newRev < 2 ^ 52 → Recorded b.store.tables.kv floor)) ?_ hQ
      happly
    ⟨.start hver rfl, fun _ => h⟩
  · exact hinv.2 hr
  · intro b b' cmd ⟨hb, hrec⟩ hq heff
    refine ⟨hb.step (hops _ _ hq) heff, fun hr => ?_⟩
    have hr' := heff.newRev_le.trans_lt hr
    refine heff.recorded (hops _ _ hq) (hb.versioned hr') (fun revision hcmd => ?_) (hrec hr')
    subst hcmd
    exact hcompact b revision hq

include hops hQ hu hr in
theorem versions_of_update {C : Nat}
    (hputs : ∀ b cmd, Q b cmd → cmd.PutsMeet (fun req => S → req.SendsNoKept))
    (hcompact : ∀ b (revision : Int64), Q b (.compact revision) → revision.toUInt64.toNat ≤ C)
    (h : s.tables.kv.KeptFrom E S C ((s.dbMeta.rev + 1) * 4096)) :
    u.store.tables.kv.KeptFrom E S C ((u.store.dbMeta.rev + 1) * 4096) := by
  obtain ⟨b, rs, happly, htables, hrev, -, hnew, -⟩ := update_inv hu
  rw [htables, hrev]
  rw [hnew] at hr
  refine applyEntries_inv (I := fun b => b.newRev < 2 ^ 52 →
    b.store.tables.kv.KeptFrom E S C ((b.newRev + 1) * 4096)) ?_ hQ happly (fun _ => h) hr
  intro b b' cmd hkept hq heff hr
  refine heff.keptFrom (hops _ _ hq) (hputs _ _ hq) (fun revision hcmd => ?_) hr
    (hkept (heff.newRev_le.trans_lt hr))
  subst hcmd
  exact hcompact b revision hq

include hQ hu in
theorem log_of_update (hok : s.tables.kv.RecsOk) :
    ∃ new, u.store.tables.kv.log = s.tables.kv.log ++ new ∧ ∀ w ∈ new, s.dbMeta.rev < w.rev := by
  obtain ⟨b, rs, happly, htables, -⟩ := update_inv hu
  rw [htables]
  have hinv := applyEntries_inv
    (I := fun b => s.dbMeta.rev ≤ b.newRev ∧ b.store.tables.kv.RecsOk ∧
      ∃ new, b.store.tables.kv.log = s.tables.kv.log ++ new ∧ ∀ w ∈ new, s.dbMeta.rev < w.rev)
    ?_ hQ happly ⟨le_rfl, hok, [], (List.append_nil _).symm, by simp⟩
  · exact hinv.2.2
  · intro b b' cmd ⟨hle, hok, new, hnew, hrev⟩ hq heff
    obtain ⟨n, hn, hops⟩ := opsAtMost_longest cmd
    rcases heff.kvRun hn hops (putsMeet_true cmd) hok with hrun | ⟨_, _, _, hsame, hc⟩
    · obtain ⟨-, new', hnew', hrev'⟩ := hrun.log_append
      refine ⟨hle.trans heff.newRev_le, hok.kvRun hrun, new ++ new', ?_, fun w hw => ?_⟩
      · rw [hnew', hnew, List.append_assoc]
      · rcases List.mem_append.mp hw with hw | hw
        · exact hrev w hw
        · exact hle.trans_lt (hrev' w hw)
    · refine ⟨hle.trans hsame.ge, (compact_shrunk hc).recsOk hok, new, ?_, hrev⟩
      rw [(compact_shrunk hc).log, hnew]

end Batch

end Turbokube
