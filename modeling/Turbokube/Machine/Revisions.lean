import Turbokube.Machine.Runs
import Turbokube.Record.Keyrev

/-!
# Revisions do not collide

Operation `i` of the command at revision `R` writes the word `4096 R + 4 i`, or
two more for a deletion, as long as the index stays below 1024.  The words of the
puts of a run therefore grow, and the revision of a command can be read off
everything it has written.  A longer transaction carries into the next revision.
-/

namespace Turbokube

open Encoding Lmdb

def WriteOp.isPut : WriteOp → Bool
  | .put _ _ _ _ => true
  | .delete => false

/-- The revisions under which the puts of a run stored their values. -/
def putRevs (log : List Write) : List Keyrev := (log.filter (fun w => w.op.isPut)).map Write.kr

theorem mem_log_of_mem_putRevs {log : List Write} {kr : Keyrev} (h : kr ∈ putRevs log) :
    ∃ w ∈ log, w.kr = kr := by
  obtain ⟨w, hw, rfl⟩ := List.mem_map.mp h
  exact ⟨w, (List.mem_filter.mp hw).1, rfl⟩

theorem putRevs_append (log log' : List Write) :
    putRevs (log ++ log') = putRevs log ++ putRevs log' := by
  rw [putRevs, List.filter_append, List.map_append, putRevs, putRevs]

namespace DbKv

/-- Everything in the tables was put there by a logged write. -/
structure FromLog (db : DbKv) : Prop where
  rev : ∀ k b, b ∈ db.rev.dups k →
    ∃ w ∈ db.log, ∃ lease, w.key = k ∧ b = Keyrecord.bytes ⟨k, w.kr, lease⟩
  val : ∀ k v, db.val.get k = some v → ∃ kr ∈ putRevs db.log, k = kr.key
  evt : ∀ k v, v ∈ db.evt.dups k →
    ∃ w ∈ db.log, ∃ epoch, k = w.kr.key ∧ v = evtBytes w.kr epoch w.key

variable {E : Env} {A : PutRequest → Prop} {db db' : DbKv}

theorem FromLog.empty : DbKv.empty.FromLog := by
  refine ⟨fun k b hb => ?_, fun k v hv => ?_, fun k v hv => ?_⟩
  · exact absurd hb (by simp [DbKv.empty])
  · exact absurd hv (by simp [DbKv.empty])
  · exact absurd hv (by simp [DbKv.empty])

theorem FromLog.shrunk (h : db.FromLog) (hs : db.Shrunk db') : db'.FromLog := by
  refine ⟨fun k b hb => ?_, fun k v hv => ?_, fun k v hv => ?_⟩
  · rw [hs.log]
    exact h.rev k b (hs.rev k b hb)
  · rw [hs.log]
    exact h.val k v (hs.val k v hv)
  · rw [hs.log]
    exact h.evt k v (hs.evt k v hv)

/-- A write that is logged with what it stores. -/
theorem FromLog.write (h : db.FromLog) {w : Write} {lease epoch : UInt64}
    (hlog : db'.log = db.log ++ [w])
    (hrev : db'.rev = db.rev.put w.key (Keyrecord.bytes ⟨w.key, w.kr, lease⟩))
    (hevt : db'.evt = db.evt.put w.kr.key (evtBytes w.kr epoch w.key))
    (hval : ∀ k v, db'.val.get k = some v →
      w.op.isPut = true ∧ k = w.kr.key ∨ ∃ v', db.val.get k = some v') : db'.FromLog := by
  have hold : ∀ w' ∈ db.log, w' ∈ db'.log := by
    intro w' hw'
    rw [hlog]
    exact List.mem_append_left _ hw'
  have hnew : w ∈ db'.log := by simp [hlog]
  refine ⟨fun k b hb => ?_, fun k v hv => ?_, fun k v hv => ?_⟩
  · rw [hrev, DupTable.mem_dups_put] at hb
    rcases hb with ⟨rfl, rfl⟩ | hb
    · exact ⟨w, hnew, lease, rfl, rfl⟩
    · obtain ⟨w', hw', rest⟩ := h.rev k b hb
      exact ⟨w', hold w' hw', rest⟩
  · rw [hlog, putRevs_append]
    rcases hval k v hv with ⟨hput, hk⟩ | ⟨v', hv'⟩
    · exact ⟨w.kr, List.mem_append_right _ (by simp [putRevs, hput]), hk⟩
    · obtain ⟨kr, hkr, hk⟩ := h.val k v' hv'
      exact ⟨kr, List.mem_append_left _ hkr, hk⟩
  · rw [hevt, DupTable.mem_dups_put] at hv
    rcases hv with ⟨rfl, rfl⟩ | hv
    · exact ⟨w, hnew, epoch, rfl, rfl⟩
    · obtain ⟨w', hw', rest⟩ := h.evt k v hv
      exact ⟨w', hold w' hw', rest⟩

/-- The log of commands whose writes are below `bound`. -/
structure LogBelow (db : DbKv) (bound : Nat) : Prop where
  upper : ∀ w ∈ db.log, w.kr.upper.toNat = w.rev
  lt : ∀ w ∈ db.log, w.kr.word.toNat < bound
  asc : (putRevs db.log).Pairwise (fun a b => a.word.toNat < b.word.toNat)
  tables : db.FromLog

namespace LogBelow

theorem empty (bound : Nat) : DbKv.empty.LogBelow bound :=
  ⟨by simp [DbKv.empty], by simp [DbKv.empty], by simp [DbKv.empty, putRevs], .empty⟩

theorem mono {bound bound' : Nat} (h : db.LogBelow bound) (hle : bound ≤ bound') :
    db.LogBelow bound' :=
  ⟨h.upper, fun w hw => lt_of_lt_of_le (h.lt w hw) hle, h.asc, h.tables⟩

theorem shrunk {bound : Nat} (h : db.LogBelow bound) (hs : db.Shrunk db') :
    db'.LogBelow bound :=
  ⟨by rw [hs.log]; exact h.upper, by rw [hs.log]; exact h.lt, by rw [hs.log]; exact h.asc,
    h.tables.shrunk hs⟩

theorem write {bound bound' : Nat} {w : Write} (h : db.LogBelow bound)
    (hlog : db'.log = db.log ++ [w]) (htables : db'.FromLog) (hupper : w.kr.upper.toNat = w.rev)
    (hlt : w.kr.word.toNat < bound') (hle : bound ≤ bound')
    (hput : w.op.isPut = true → bound ≤ w.kr.word.toNat) : db'.LogBelow bound' := by
  refine ⟨fun w' hw' => ?_, fun w' hw' => ?_, ?_, htables⟩
  · rw [hlog, List.mem_append, List.mem_singleton] at hw'
    rcases hw' with hw' | rfl
    · exact h.upper w' hw'
    · exact hupper
  · rw [hlog, List.mem_append, List.mem_singleton] at hw'
    rcases hw' with hw' | rfl
    · exact lt_of_lt_of_le (h.lt w' hw') hle
    · exact hlt
  · rw [hlog, putRevs_append, List.pairwise_append]
    cases hw : w.op.isPut with
    | false => simpa [putRevs, hw] using h.asc
    | true =>
        refine ⟨h.asc, by simp [putRevs, hw], fun a ha b hb => ?_⟩
        obtain ⟨w', hw', rfl⟩ := mem_log_of_mem_putRevs ha
        obtain rfl : b = w.kr := by simpa [putRevs, hw] using hb
        exact lt_of_lt_of_le (h.lt w' hw') (hput hw)

theorem put {bound rev subrev : Nat} {epoch : UInt64} {req : PutRequest} {prev next : Kv}
    {patched : Bool} (h : db.LogBelow bound) (hrev : rev < 2 ^ 52) (hsub : subrev < 1024)
    (hbound : bound ≤ rev * 4096 + subrev * 4)
    (hput : db.put E rev subrev req.lease.toUInt64 epoch req.key req.value req.ignoreValue
      req.ignoreLease = .ok (db', prev, next, patched)) :
    db'.LogBelow (rev * 4096 + (subrev + 1) * 4) := by
  have hword := revAt_toNat hrev hsub false
  simp only [Bool.false_eq_true, if_false, Nat.add_zero] at hword
  obtain ⟨hrev', hevt, hlog, hval⟩ := put_tables hput
  refine h.write hlog (h.tables.write hlog hrev' hevt
    (fun k v hv => (hval k v hv).imp (fun hk => ⟨rfl, hk⟩) id)) (revAt_upper hrev hsub false) ?_
    (by omega) (fun _ => ?_)
  · rw [hword]
    omega
  · rw [hword]
    exact hbound

theorem tombstone {rev subrev : Nat} {epoch : UInt64} {key : Bytes}
    (h : db.LogBelow (rev * 4096 + (subrev + 1) * 4)) (hrev : rev < 2 ^ 52) (hsub : subrev < 1024) :
    (db.tombstone rev subrev epoch key).LogBelow (rev * 4096 + (subrev + 1) * 4) := by
  have hword := revAt_toNat hrev hsub true
  simp only [if_true] at hword
  refine h.write (w := ⟨rev, revAt rev subrev true, key, .delete⟩) rfl
    (h.tables.write rfl rfl rfl (fun k v hv => .inr ⟨v, hv⟩)) (revAt_upper hrev hsub true) ?_ le_rfl
    (fun hput => by cases hput)
  rw [hword]
  omega

theorem tombstones {rev subrev : Nat} (h : db.LogBelow (rev * 4096 + (subrev + 1) * 4))
    (hrev : rev < 2 ^ 52) (hsub : subrev < 1024) (epoch : UInt64) (ks : List Bytes) :
    (db.tombstones rev subrev epoch ks).LogBelow (rev * 4096 + (subrev + 1) * 4) := by
  induction ks generalizing db with
  | nil => exact h
  | cons k ks ih => exact ih (h.tombstone hrev hsub)

theorem opStep {rev subrev : Nat} (h : db.LogBelow (rev * 4096 + subrev * 4)) (hrev : rev < 2 ^ 52)
    (hsub : subrev < 1024) (hop : OpStep E A rev subrev db db') :
    db'.LogBelow (rev * 4096 + (subrev + 1) * 4) := by
  cases hop with
  | put _ hput => exact h.put hrev hsub le_rfl hput
  | tombs _ => exact (h.mono (by omega)).tombstones hrev hsub _ _

theorem kvRun {r r' : Nat} (h : db.LogBelow ((r + 1) * 4096)) (hr' : r' < 2 ^ 52)
    (hrun : KvRun E A 1024 db r db' r') : db'.LogBelow ((r' + 1) * 4096) :=
  hrun.keeps_below mono (fun _ hrev hsub hlog hop => hlog.opStep hrev hsub hop) h hr'

end LogBelow

/-- Everything a command wrote carries its revision, and no two puts share one. -/
def NoCollision (db : DbKv) : Prop :=
  (∀ w ∈ db.log, w.kr.upper.toNat = w.rev) ∧ (putRevs db.log).Nodup

instance (db : DbKv) : Decidable db.NoCollision := by
  unfold NoCollision
  infer_instance

end DbKv

open DbKv

theorem Reached.logBelow {E : Env} {b : Batch}
    (h : Reached E (fun _ cmd => cmd.OpsAtMost 1024) b) (hrev : b.newRev < 2 ^ 52) :
    b.store.tables.kv.LogBelow ((b.newRev + 1) * 4096) := by
  have hinv := h.inv (I := fun t r _ => t.kv.RecsOk ∧ (r < 2 ^ 52 → t.kv.LogBelow ((r + 1) * 4096)))
    ⟨.empty, fun _ => .empty _⟩ ?_
  · exact hinv.2 hrev
  · intro b b' cmd hinv hops heff
    have hle := heff.newRev_le
    rcases heff.kvRun (A := fun _ => True) (by decide) hops (putsMeet_true cmd) hinv.1 with
      hrun | ⟨_, _, _, hsame, hcompact⟩
    · exact ⟨hinv.1.kvRun hrun, fun hr => (hinv.2 (by omega)).kvRun hr hrun⟩
    · refine ⟨(compact_shrunk hcompact).recsOk hinv.1, fun hr => ?_⟩
      rw [hsame] at hr ⊢
      exact (hinv.2 hr).shrunk (compact_shrunk hcompact)

/-- With transactions of at most 1024 operations revisions never collide, and the
tables hold nothing but what the logged writes stored. -/
theorem noCollision_of_ops_at_most {E : Env} {b : Batch}
    (h : Reached E (fun _ cmd => cmd.OpsAtMost 1024) b) (hrev : b.newRev < 2 ^ 51) :
    b.store.tables.kv.NoCollision ∧ b.store.tables.kv.FromLog := by
  have hlog := h.logBelow (by omega)
  refine ⟨⟨hlog.upper, ?_⟩, hlog.tables⟩
  exact hlog.asc.imp (fun {x y} hlt heq => absurd hlt (by rw [heq]; exact lt_irrefl _))

theorem noCollision_after_two_puts :
    ∃ s ∈ storeAfter [[.put { key := [97], value := [1] }], [.put { key := [97], value := [2] }]],
      s.dbMeta.rev = 3 ∧ s.tables.kv.NoCollision ∧ s.tables.kv.FromLog := by
  refine exists_mem_imp (D := fun s => s.dbMeta.rev = 3) (by decide +kernel) (fun s hs hrev => ?_)
  have hlt : s.dbMeta.rev < 2 ^ 51 := by
    rw [hrev]
    decide
  exact ⟨hrev, noCollision_of_ops_at_most (reached_of_storeAfter (by decide +kernel) hs) hlt⟩

/-- A put at index 1024 of revision 2 and the put of revision 3 share one value
key: the first is stored under the revision of the second, which overwrites it. -/
theorem collision_of_oversized_txn :
    ∃ s ∈ storeAfter
      [[.txn { success := List.replicate 1024 .none ++ [.put { key := [97], value := [1] }] }],
        [.put { key := [98], value := [2] }]],
      s.dbMeta.rev < 2 ^ 51 ∧ ¬ s.tables.kv.NoCollision := by
  decide +kernel

end Turbokube
