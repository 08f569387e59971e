import Turbokube.Machine.Histories
import Turbokube.Store.Clearing

/-!
# Compaction is invisible

What compaction at `C` may change in a reached state: nothing a read at `C` or above
returns (`SameReads`).  The outcome is the same whatever the order of the Go map and the
size of the batches.  It has removed all that `C` asks for when the cursor has stepped
over no event below `C`.  Transactions of more than 1024 operations void this: two keys
then share a value, and pruning the one removes the value of the other.
-/

namespace Turbokube

open Encoding Lmdb

namespace DbKv

/-- What a client may not notice of a compaction at `C`, and that no value is left without its
record. -/
structure SameReads (E : Env) (db : DbKv) (C : UInt64) (db' : DbKv) : Prop where
  getRange : ∀ key rangeEnd (a : RangeArgs), a.revision = 0 ∨ C ≤ a.revision →
    db'.getRange E key rangeEnd a = db.getRange E key rangeEnd a
  getRev : ∀ key r, r = 0 ∨ C ≤ r → db'.getRev E key r false = db.getRev E key r false
  getPrev : ∀ evt ∈ db.events, C ≤ evt.rev.upper → ∀ withPrev,
    db'.getRev E evt.key evt.rev.upper withPrev = db.getRev E evt.key evt.rev.upper withPrev
  values : ∀ rk, (db'.val.get rk).isSome = true ↔
    ∃ k, ∃ kr ∈ db'.records k, kr.rev.isdel = false ∧ rk = kr.rev.key
  unshared : ∀ k k', ∀ kr ∈ db'.records k, ∀ kr' ∈ db'.records k', kr.rev.isdel = false →
    kr.rev = kr'.rev → kr = kr'

/-- An invisible compaction that also removes all that it may. -/
structure Invisible (E : Env) (db : DbKv) (C : UInt64) (db' : DbKv) : Prop
    extends SameReads E db C db' where
  events : db'.events = db.events.filter (fun evt => C ≤ evt.rev.upper)
  records : ∀ k, db'.records k = keepFrom Keyrecord.rev C (db.records k)

variable {E : Env} {S : Prop} {db d : DbKv} {ch ch' : Bytes → List Version} {lo hi : Nat}
  {C : UInt64}

/-- The value table has one entry for each record that is no tombstone. -/
theorem Rep.values (h : db.Rep E S ch) (hlog : LogOk db.log lo hi) (rk : Bytes) :
    (db.val.get rk).isSome = true ↔
      ∃ k, ∃ kr ∈ db.records k, kr.rev.isdel = false ∧ rk = kr.rev.key := by
  constructor
  · intro hsome
    obtain ⟨v, hv⟩ := Option.isSome_iff_exists.mp hsome
    obtain ⟨k, x, hx, hitem, hrk⟩ := h.val rk v hv
    refine ⟨k, x.record k, ?_, (hlog.item_isSome (h.mem_versions hx)).mp hitem, hrk⟩
    rw [h.records_eq hlog]
    exact List.mem_map_of_mem hx
  · rintro ⟨k, kr, hkr, hlive, rfl⟩
    rw [h.records_eq hlog] at hkr
    obtain ⟨x, hx, rfl⟩ := List.mem_map.mp hkr
    obtain ⟨e, he⟩ := Option.isSome_iff_exists.mp
      ((hlog.item_isSome (h.mem_versions hx)).mpr hlive)
    obtain ⟨base, hget⟩ := (h.stored k).get hx he
    rw [show (x.record k).rev = x.rev from rfl, hget]
    rfl

theorem Rep.unshared (h : db.Rep E S ch) (hlog : LogOk db.log lo hi) {k k' : Bytes}
    {kr kr' : Keyrecord} (hkr : kr ∈ db.records k) (hkr' : kr' ∈ db.records k')
    (hlive : kr.rev.isdel = false) (hrev : kr.rev = kr'.rev) : kr = kr' := by
  rw [h.records_eq hlog] at hkr hkr'
  obtain ⟨x, hx, rfl⟩ := List.mem_map.mp hkr
  obtain ⟨y, hy, rfl⟩ := List.mem_map.mp hkr'
  obtain ⟨rfl, rfl⟩ := hlog.eq_of_rev_eq (h.mem_versions hx) (h.mem_versions hy) hlive hrev
  rfl

/-- An event is at the revision of a record of its key, or below all that are left. -/
theorem Rep.records_at_event (h : db.Rep E S ch) (hlog : LogOk db.log lo hi) {evt : KvEvent}
    (hevt : evt ∈ db.events) :
    (∃ kr ∈ db.records evt.key, kr.rev.upper = evt.rev.upper) ∨
      ∀ kr ∈ db.records evt.key, evt.rev.upper < kr.rev.upper := by
  obtain ⟨x, hx, hrev⟩ := h.version_of_event hevt
  by_cases hat : ∃ kr ∈ db.records evt.key, kr.rev.upper = evt.rev.upper
  · exact .inl hat
  · refine .inr (fun kr hkr => ?_)
    have hne : kr.rev.upper.toNat ≠ evt.rev.upper.toNat :=
      fun heq => hat ⟨kr, hkr, UInt64.toNat_inj.mp heq⟩
    have hdesc := hlog.desc evt.key
    obtain ⟨rest, hrest⟩ := h.kept evt.key
    rw [h.records_eq hlog] at hkr hat
    obtain ⟨y, hy, rfl⟩ := List.mem_map.mp hkr
    have hnot : x ∉ ch evt.key := fun hin =>
      hat ⟨x.record evt.key, List.mem_map_of_mem hin, congrArg Keyrev.upper hrev⟩
    rw [← hrest] at hx hdesc
    have hlt := (List.pairwise_append.mp hdesc).2.2 y hy x
      ((List.mem_append.mp hx).resolve_left hnot)
    have hle : evt.rev.upper.toNat ≤ y.rev.upper.toNat := by
      rw [← hrev, Keyrev.upper_toNat, Keyrev.upper_toNat]
      exact Nat.div_le_div_right hlt.le
    rw [UInt64.lt_iff_toNat_lt]
    exact lt_of_le_of_ne hle (Ne.symm hne)

theorem Compacted.sameReads (hc : Compacted ch ch' db C d) (h : db.Rep E S ch)
    (hlog : LogOk db.log lo hi) : SameReads E db C d := by
  have hrep := hc.rep h hlog
  have hlog' := hc.logOk hlog
  constructor
  case getRange => exact fun key rangeEnd a hr => hc.getRange h hlog hr key rangeEnd
  case getRev => exact fun key r hr => hc.getRev h hlog hr key false (by simp)
  case getPrev =>
    intro evt hevt hle withPrev
    exact hc.getRev h hlog (.inr hle) evt.key withPrev
      (fun _ => ⟨hle, h.records_at_event hlog hevt⟩)
  case values => exact hrep.values hlog'
  case unshared => exact fun k k' kr hkr kr' hkr' => hrep.unshared hlog' hkr hkr'

end DbKv

open DbKv

theorem pos_of_one_le {C : UInt64} (hC : 1 ≤ C) : 0 < C := by
  rw [UInt64.lt_iff_toNat_lt]
  rw [UInt64.le_iff_toNat_le] at hC
  exact hC

/-- With transactions of at most 1024 operations, a compaction succeeds with one outcome, is
invisible and removes all that it may, exactly when the cursor steps over no event below `C` and
finds one from `C` on. -/
theorem compaction_invisible_iff {E : Env} {b : Batch}
    (h : Reached E (fun _ cmd => cmd.OpsAtMost 1024) b) (hrev : b.newRev < 2 ^ 52) {C : UInt64}
    (hC : 1 ≤ C) :
    (∃ db' last,
      (∀ (E' : Env) (limit : Nat), 1 ≤ limit →
        b.store.tables.kv.compactBy E' limit C = .ok (db', last)) ∧
      b.store.tables.kv.compact E C = .ok (db', last) ∧
      b.store.tables.kv.Invisible E C db') ↔
      b.store.tables.kv.StepsOverNone C ∧ b.store.tables.kv.StopsAt C := by
  obtain ⟨ch, hrep, hlog, -⟩ := h.versioned (S := False) (U := False) (fun _ _ hQ => hQ)
    (fun _ cmd _ => by cases cmd <;> simp [Cmd.PutsMeet]) (fun hU => hU.elim) hrev
  have hpos := pos_of_one_le hC
  constructor
  · rintro ⟨db', last, -, hc, hinv⟩
    obtain ⟨hmeets, hpiece, -⟩ := hrep.compactBy_inv hlog hc
    have hnone : b.store.tables.kv.StepsOverNone C := by
      refine hpiece.stepsOverNone hrep (fun evt hevt => ?_)
      rw [hinv.events] at hevt
      simpa using (List.mem_filter.mp hevt).2
    exact ⟨hnone, hrep.stopsAt hnone hmeets⟩
  · rintro ⟨hnone, hstop⟩
    obtain ⟨db', hpiece, hcases⟩ := hrep.compactBy hlog C
    have hok := fun E' limit => (hcases E' limit).1 (hrep.meetsStop hpos hstop)
    have hcomp := hpiece.compacted hrep hlog (fun p hp => not_le_of_mem_removedEvents hpos hp)
    exact ⟨db', _, fun E' limit _ => hok E' limit, hok E limitCompactionMaxKeys,
      hcomp.sameReads hrep hlog, hpiece.events_eq hrep hpos hnone,
      hpiece.records_eq hrep hlog hpos hnone⟩

/-- The first version of a key is removed when two versions from `C` on are there. -/
theorem compaction_invisible_after_three_puts :
    ∃ s ∈ storeAfter (putsOf [97] [1, 2, 3]),
      ∃ db' last,
        (∀ (E' : Env) (limit : Nat), 1 ≤ limit →
          s.tables.kv.compactBy E' limit 3 = .ok (db', last)) ∧
        s.tables.kv.compact .plain 3 = .ok (db', last) ∧ s.tables.kv.Invisible .plain 3 db' := by
  refine exists_mem_imp (D := fun s => s.dbMeta.rev < 2 ^ 52 ∧ s.tables.kv.StepsOverNone 3 ∧
    s.tables.kv.StopsAt 3) (by decide +kernel) (fun s hs hD => ?_)
  exact (compaction_invisible_iff (reached_of_storeAfter (by decide +kernel) hs) hD.1
    (by decide)).mpr hD.2

/-- The last operation of a long transaction puts `a` under the revision of the put of `b` that
follows.  Then `a` and `c` are put twice. -/
def sharedRevision : List (List Cmd) :=
  [[.txn { success := List.replicate 1024 .none ++ [.put { key := [97], value := [1] }] }],
    [.put { key := [98], value := [2] }]] ++ putsOf [97] [3, 4] ++ putsOf [99] [5, 6]

/-- Three versions of `a` are compacted at the last: the event of the second is left.  With two
versions the compaction fails.  And after a transaction of 1025 operations `a` is stored
under the revision of `b`: once `a` is pruned, `b` has lost its value. -/
theorem compaction_leaves_event :
    (∃ s ∈ storeAfter (putsOf [97] [1, 2, 3]),
      (∃ evt ∈ s.tables.kv.events, 4 ≤ evt.rev.upper) ∧
      ∃ r ∈ (s.tables.kv.compact .plain 4).toOption, ∃ evt ∈ r.1.events, evt.rev.upper = 3) ∧
    (∃ s ∈ storeAfter (putsOf [97] [1, 2]),
      (∃ evt ∈ s.tables.kv.events, 3 ≤ evt.rev.upper) ∧
      (s.tables.kv.compact .plain 3).toOption = none) ∧
    ∃ s ∈ storeAfter sharedRevision,
      (∃ evt ∈ s.tables.kv.events, 7 ≤ evt.rev.upper) ∧
      ∃ r ∈ (s.tables.kv.compact .plain 7).toOption,
        r.1.getRange .plain [98] [] { revision := 7 } ≠
          s.tables.kv.getRange .plain [98] [] { revision := 7 } := by
  decide +kernel

end Turbokube
