import Turbokube.Machine.Histories
import Turbokube.Store.Ranges

/-!
# Snapshot reads

A read at a past revision returns the map that the writes up to that revision leave.
This takes a run without compaction in which no transaction overflows the op index
and the puts that keep the present value send none, and it takes that the read has no
record to decode that is shorter than the decoder accepts: a key of one byte with an
empty value makes such a record, and a read of it fails.
-/

namespace Turbokube

open Encoding Lmdb DbKv

def Cmd.isCompact : Cmd → Bool
  | .compact _ => true
  | _ => false

/-- The commands of a run whose history stays in the tables. -/
def Cmd.KeepsHistory (cmd : Cmd) : Prop :=
  cmd.OpsAtMost txnOpsLimit ∧ cmd.PutsMeet PutRequest.SendsNoKept ∧ cmd.isCompact = false

instance (cmd : Cmd) : Decidable cmd.KeepsHistory := by
  unfold Cmd.KeepsHistory
  infer_instance

/-- All versions are in the tables. -/
theorem Reached.history {E : Env} {Q : Batch → Cmd → Prop} {b : Batch}
    (hQ : ∀ b cmd, Q b cmd → cmd.KeepsHistory) (h : Reached E Q b) (hrev : b.newRev < 2 ^ 52) :
    b.store.tables.kv.Rep E True (versions b.store.tables.kv.log) ∧
      LogOk b.store.tables.kv.log ((b.newRev + 1) * 4096) ((b.newRev + 1) * 4096) := by
  obtain ⟨ch, hrep, hlog, hall⟩ := h.versioned (S := True) (U := True)
    (fun b cmd hq => (hQ b cmd hq).1)
    (fun b cmd hq => (hQ b cmd hq).2.1.imp (fun _ hreq _ => hreq))
    (fun _ b revision hq => by simpa [Cmd.isCompact] using (hQ b _ hq).2.2) hrev
  rw [funext (hall trivial)] at hrep
  exact ⟨hrep, hlog⟩

/-- The version a read stops at is the entry of the snapshot. -/
theorem current_versionsAt {log : List Write} {lo hi : Nat} (hlog : LogOk log lo hi) {r : Nat}
    (hpos : 1 ≤ r) (hr : r < 2 ^ 64) (k : Bytes) :
    current (versionsAt (UInt64.ofNat r) (versions log k)) = snapshotAt log r k := by
  have hnat : (UInt64.ofNat r).toNat = r := by
    rw [UInt64.toNat_ofNat', Nat.mod_eq_of_lt hr]
  have hnew : Version.tooNew (UInt64.ofNat r) = fun v => decide (r < v.rev.upper.toNat) := by
    funext v
    simp only [Version.tooNew, UInt64.lt_iff_toNat_lt, hnat, UInt64.toNat_zero]
    exact decide_eq_decide.mpr ⟨fun h => h.2, fun h => ⟨by omega, h⟩⟩
  rw [snapshotAt_eq hlog.upper hlog.order, versionsAt, hnew]

/-- A range read at `r` returns the entries of the snapshot at `r`, in key order,
exactly when every key of the range can be read. -/
theorem getRange_eq_snapshot_iff {E : Env} {b : Batch}
    (h : Reached E (fun _ cmd => cmd.KeepsHistory) b) (hrev : b.newRev < 2 ^ 52) {r : Nat}
    (hpos : 1 ≤ r) (hr : r ≤ b.newRev) {key : Bytes} (hkey : key ≠ []) (rangeEnd : Bytes) :
    (∃ items, b.store.tables.kv.getRange E key rangeEnd { revision := UInt64.ofNat r } =
        .ok (items, items.length, false) ∧
      items.Pairwise (fun x y => x.key < y.key) ∧
      ∀ kv, kv ∈ items ↔
        InRange key rangeEnd kv.key ∧ snapshotAt b.store.tables.kv.log r kv.key = some kv) ↔
      ∀ k, InRange key rangeEnd k →
        Readable (UInt64.ofNat r) (versions b.store.tables.kv.log k) := by
  obtain ⟨hrep, hlog⟩ := h.history (fun _ _ hq => hq) hrev
  have hsnap := current_versionsAt hlog hpos (by omega : r < 2 ^ 64)
  constructor
  · rintro ⟨items, hget, -⟩
    exact ((hrep.getRange_at hlog hkey).mp hget).1
  · intro hread
    refine ⟨_, (hrep.getRange_at hlog hkey).mpr ⟨hread, rfl⟩, hrep.entriesAt_sorted hlog _ _ _,
      fun kv => ?_⟩
    rw [hrep.mem_entriesAt hlog, hrep.visibleAt_eq hlog, hsnap]

theorem getRange_eq_snapshot_after_overwrite :
    ∃ s ∈ storeAfter [[.put { key := [97], value := [1] }], [.put { key := [97], value := [2] }]],
      ∃ items, s.tables.kv.getRange .plain [97] [] { revision := UInt64.ofNat 2 } =
          .ok (items, items.length, false) ∧
        items.Pairwise (fun x y => x.key < y.key) ∧
        ∀ kv, kv ∈ items ↔
          InRange [97] [] kv.key ∧ snapshotAt s.tables.kv.log 2 kv.key = some kv := by
  refine exists_mem_imp (D := fun s => s.dbMeta.rev = 3 ∧
    Readable (UInt64.ofNat 2) (versions s.tables.kv.log [97])) (by decide +kernel)
    (fun s hs hD => ?_)
  have hnew : (Batch.start s).newRev = 3 := hD.1
  refine (getRange_eq_snapshot_iff (reached_of_storeAfter (by decide +kernel) hs)
    (by rw [hnew]; decide) (by decide) (by rw [hnew]; decide) (by decide) []).mpr (fun k hin => ?_)
  obtain rfl : k = [97] := by simpa [InRange] using hin
  exact hD.2

/-- The empty value of a key of one byte is stored in ten bytes, one less than the
decoder asks for.  The snapshot has the key and no read returns it. -/
theorem getRange_fails_on_empty_value :
    ∃ s ∈ storeAfter [[.put { key := [97] }]], s.dbMeta.rev = 2 ∧
      Reached .plain (fun _ cmd => cmd.KeepsHistory) (.start s) ∧
      InRange [97] [] [97] ∧ (snapshotAt s.tables.kv.log 2 [97]).isSome = true ∧
      s.tables.kv.getRange .plain [97] [] { revision := UInt64.ofNat 2 } =
        .error .checksumMissing :=
  ⟨_, Option.get_mem (by decide +kernel), by decide +kernel, reached_of_storeAfter
    (by decide +kernel) (Option.get_mem _), by decide, by decide +kernel, by decide +kernel⟩

end Turbokube
