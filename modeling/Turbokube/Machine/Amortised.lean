import Turbokube.Machine.Compactions
import Turbokube.Store.PartialCompaction

/-!
# Compaction in pieces

The storage module compacts on every tick, at most 1024 events at a time, where the native
state machine does all of it when it applies the command.  No read at the compaction revision
or above can tell.  The end is the same when the cursor steps over no event: one that the
native call leaves is removed by a later call of the module.  The stores considered are those
of either build: they may have been compacted at once, or in pieces and not to the end.
-/

namespace Turbokube

open Encoding Lmdb DbKv

/-- The states of a replica of either build.  Over the native one, the module may compact a
piece at any time, and a transaction it gives up after its first write takes a revision. -/
inductive TickReached (E : Env) (Q : Batch → Cmd → Prop) : Batch → Prop where
  | init : TickReached E Q (.start .init)
  | entry {b b' : Batch} {ent : Entry} {res : Result} (hb : TickReached E Q b) (hQ : Q b ent.cmd)
      (h : applyEntry E b ent = .ok (b', res)) : TickReached E Q b'
  | commit {b : Batch} (index : UInt64) (hb : TickReached E Q b) :
      TickReached E Q (.start (b.finish b.store.dbMeta.rev index))
  | givenUp {b : Batch} (r : Nat) (hb : TickReached E Q b) (hle : b.newRev ≤ r) :
      TickReached E Q { b with newRev := r }
  | compact {b : Batch} {max last : UInt64} {kv : DbKv} {scanned : Nat} (hb : TickReached E Q b)
      (h : StorageKv.compact E b.store.tables.kv max = .ok (kv, last, scanned)) :
      TickReached E Q
        { b with store := { b.store with tables := { b.store.tables with kv := kv } } }

namespace TickReached

variable {E : Env} {Q : Batch → Cmd → Prop} {b : Batch}

theorem of_reached (h : Reached E Q b) : TickReached E Q b := by
  induction h with
  | init => exact .init
  | entry _ hQ happly ih => exact ih.entry hQ happly
  | commit index _ ih => exact ih.commit index

theorem synced (h : TickReached E Q b) : b.Synced b.store.dbMeta.rev := by
  induction h with
  | init => exact synced_start _
  | entry _ _ happly ih => exact (effect_of_applyEntry happly).synced_self ih
  | commit index _ ih => exact synced_start _
  | givenUp r _ hle ih => exact ⟨ih.epoch, rfl, ih.le.trans hle⟩
  | compact _ _ ih => exact ⟨ih.epoch, rfl, ih.le⟩

end TickReached

namespace StorageKv

variable {E F : Env} {S U : Prop} {db d : DbKv}

theorem compactBy_versioned {limit scanned bound : Nat} {max last : UInt64}
    (h : db.Versioned E S U bound) (hU : ¬ U) (hlimit : 1 ≤ limit)
    (hcall : compactBy F limit db max = .ok (d, last, scanned)) : d.Versioned E S U bound := by
  obtain ⟨ch, hrep, hlog, -⟩ := h
  have hs := (compactBy_inv hrep hlog hlimit hcall).2.1.shortened hrep hlog
  exact ⟨_, hs.rep hrep hlog, hs.logOk hlog, fun hu => absurd hu hU⟩

/-- Stores after any number of calls at `max`. -/
inductive Rounds (F : Env) (max : UInt64) (db : DbKv) : DbKv → Prop where
  | none : Rounds F max db db
  | call {d d' : DbKv} {last : UInt64} {scanned : Nat} (hd : Rounds F max db d)
      (hcall : compact F d max = .ok (d', last, scanned)) : Rounds F max db d'

/-- What every call finds: versioned tables, an event to stop at and none to step over, and the
reads of the start. -/
structure Underway (E : Env) (S U : Prop) (bound : Nat) (max : UInt64) (db d : DbKv) : Prop where
  versioned : d.Versioned E S U bound
  stepsOverNone : d.StepsOverNone max
  stopsAt : d.StopsAt max
  getRange : ∀ key rangeEnd (a : RangeArgs), a.revision = 0 ∨ max ≤ a.revision →
    d.getRange E key rangeEnd a = db.getRange E key rangeEnd a

theorem Underway.call {bound : Nat} {max : UInt64} (h : Underway E S U bound max db d)
    (hU : ¬ U) (hpos : 0 < max) :
    ∃ d' last scanned, compact F d max = .ok (d', last, scanned) ∧
      Underway E S U bound max db d' := by
  obtain ⟨ch, hrep, hlog, -⟩ := h.versioned
  have hlimit : 1 ≤ limitCompactionMaxKeys := by decide
  obtain ⟨d', hpiece, hcases⟩ := compactBy_cases hrep hlog hlimit max
  have hcall := (hcases F).2.1 (.inl (hrep.meetsStop hpos h.stopsAt))
  have hcomp := hpiece.compacted hrep hlog (fun p hp => piece_below hpos hp)
  refine ⟨d', _, _, hcall, compactBy_versioned h.versioned hU hlimit hcall,
    hpiece.stepsOverNone_left hrep h.stepsOverNone,
    hpiece.stopsAt_left hrep (fun p hp => piece_below hpos hp) h.stopsAt,
    fun key rangeEnd a ha => ?_⟩
  rw [hcomp.getRange hrep hlog ha, h.getRange key rangeEnd a ha]

theorem Rounds.underway {bound : Nat} {max : UInt64} (hU : ¬ U) (hpos : 0 < max)
    (hstart : Underway E S U bound max db db) (h : Rounds F max db d) :
    Underway E S U bound max db d := by
  induction h with
  | none => exact hstart
  | call _ hcall ih =>
      obtain ⟨d', last, scanned, hcall', hnext⟩ := ih.call (F := F) hU hpos
      obtain ⟨rfl, -⟩ := Prod.mk.inj (Except.ok.inj (hcall.symm.trans hcall'))
      exact hnext

theorem length_removedEvents_le (db : DbKv) (max : UInt64) :
    (db.removedEvents max).length ≤ db.events.length := by
  rw [DbKv.events, List.length_map]
  exact (db.removedEvents_sublist max).length_le

end StorageKv

theorem TickReached.versioned {E : Env} {Q : Batch → Cmd → Prop} {b : Batch}
    (hops : ∀ b cmd, Q b cmd → cmd.OpsAtMost 1024) (h : TickReached E Q b) :
    VersionedTo E False False b.store.tables b.newRev := by
  induction h with
  | init => exact fun _ => .empty
  | @entry b b' ent res _ hQ happly ih =>
      refine (effect_of_applyEntry happly).versionedTo (hops _ _ hQ) ?_ (fun hU => hU.elim) ih
      cases ent.cmd <;> simp [Cmd.PutsMeet]
  | commit index hb ih =>
      obtain ⟨htables, hrev, -⟩ := eq_of_core_eq (core_start_finish hb.synced index)
      rw [htables, hrev]
      exact ih
  | givenUp r _ hle ih => exact fun hr => (ih (hle.trans_lt hr)).mono (by simp only; omega)
  | compact _ hcall ih =>
      exact fun hr => StorageKv.compactBy_versioned (ih hr) (fun hU => hU) (by decide) hcall

/-- Calls of the module's compaction until one finds no event end with the tables of the native
one.  No call fails on the way, and none changes a read at the compaction revision or above. -/
def AmortisesCompaction (E : Env) (db : DbKv) (C : UInt64) : Prop :=
  ∃ db' last, db.compact E C = .ok (db', last) ∧
    (∀ F fuel, db.events.length < fuel →
      StorageKv.compactAll F StorageKv.limitCompactionMaxKeys C fuel db = .ok db') ∧
    ∀ F d, StorageKv.Rounds F C db d →
      (∃ d' last scanned, StorageKv.compact F d C = .ok (d', last, scanned)) ∧
      ∀ key rangeEnd (a : RangeArgs), a.revision = 0 ∨ C ≤ a.revision →
        d.getRange E key rangeEnd a = db.getRange E key rangeEnd a

end Turbokube
