import Turbokube.Machine.Histories
import Turbokube.Watch.Creation

/-!
# When compaction succeeds

Both builds walk over the events until one at the requested revision stops them.  When they meet
none, the native loop ends with the error of the event it could not read, and so does the loop of
the storage module unless its budget runs out first.  The module takes its revision from what a
client asked for, so a revision above the last event fails on every tick.  An event that the
cursor steps over is left.
-/

namespace Turbokube

open Encoding Lmdb DbKv

/-- The entries compaction should remove. -/
def DbKv.belowEvents (db : DbKv) (max : UInt64) : List (Bytes × Bytes) :=
  db.evt.pairs.filter (fun p => ¬ max ≤ (decodeEvt p).rev.upper)

/-- The entries compaction should leave. -/
def DbKv.keptEvents (db : DbKv) (max : UInt64) : List (Bytes × Bytes) :=
  db.evt.pairs.filter (fun p => max ≤ (decodeEvt p).rev.upper)

/-- Compaction returns, and the events below the revision are gone. -/
def DbKv.CompactsExactly (E : Env) (db : DbKv) (max : UInt64) : Prop :=
  ∃ d last, db.compact E max = .ok (d, last) ∧ d.evt.pairs = db.keptEvents max

/-- A call of the module returns, and the first of the events below the revision are gone. -/
def StorageKv.CompactsExactly (E : Env) (db : DbKv) (max : UInt64) : Prop :=
  ∃ d last scanned, StorageKv.compact E db max = .ok (d, last, scanned) ∧
    d.evt.pairs = (db.belowEvents max).drop limitCompactionMaxKeys ++ db.keptEvents max

/-- A call of the module steps over none of the events that its budget covers. -/
def StorageKv.StepsOverNone (db : DbKv) (max : UInt64) : Prop :=
  ∀ p ∈ (db.belowEvents max).take limitCompactionMaxKeys, db.Met (decodeEvt p)

instance (db : DbKv) (max : UInt64) : Decidable (StorageKv.StepsOverNone db max) :=
  inferInstanceAs (Decidable (∀ _ ∈ _, _))

section Stores

variable {E F : Env} {S : Prop} {db d : DbKv} {ch : Bytes → List Version} {lo hi : Nat}
  {max : UInt64}

theorem DbKv.mem_belowEvents {p : Bytes × Bytes} :
    p ∈ db.belowEvents max ↔ p ∈ db.evt.pairs ∧ ¬ max ≤ (decodeEvt p).rev.upper := by
  rw [belowEvents, List.mem_filter, decide_eq_true_eq]

theorem DbKv.Rep.pairs_eq_append (h : db.Rep E S ch) (max : UInt64) :
    db.evt.pairs = db.belowEvents max ++ db.keptEvents max :=
  eq_filter_append (h.pairs_upper_le.imp (fun hle hmax => UInt64.le_trans hmax hle))

theorem nodup_pairs (t : DupTable Bytes Bytes) : t.pairs.Nodup := by
  refine t.pairs_sorted.imp (fun {a b} hlt heq => ?_)
  subst heq
  rcases hlt with hlt | ⟨-, hlt⟩ <;> exact lt_irrefl _ hlt

theorem DbKv.Rep.compactsExactly_iff (h : db.Rep E S ch) (hlog : LogOk db.log lo hi) :
    db.CompactsExactly F max ↔ 0 < max ∧ db.StepsOverNone max ∧ db.StopsAt max := by
  have hkept : ∀ {p}, p ∈ db.keptEvents max → max ≤ (decodeEvt p).rev.upper := by
    intro p hp
    simpa using (List.mem_filter.mp hp).2
  constructor
  · rintro ⟨d, last, hcall, hpairs⟩
    obtain ⟨hmeets, hpiece, -⟩ := h.compactBy_inv hlog hcall
    have hnone : db.StepsOverNone max := by
      refine hpiece.stepsOverNone h (fun evt hevt => ?_)
      obtain ⟨p, hp, rfl⟩ := List.mem_map.mp hevt
      rw [hpairs] at hp
      exact hkept hp
    exact ⟨hmeets.pos, hnone, h.stopsAt hnone hmeets⟩
  · rintro ⟨hpos, hnone, hstop⟩
    obtain ⟨d, hpiece, hcases⟩ := h.compactBy hlog max
    exact ⟨d, _, (hcases F limitCompactionMaxKeys).1 (h.meetsStop hpos hstop),
      hpiece.pairs_eq h hpos hnone⟩

/-- A part of a list that has the first elements of it begins with them. -/
theorem take_eq_of_sublist {α : Type} {l' l : List α} (hsub : l'.Sublist l) (hnodup : l.Nodup)
    {n : Nat} (h : ∀ a ∈ l.take n, a ∈ l') : l'.take n = l.take n := by
  induction hsub generalizing n with
  | slnil => rfl
  | @cons l' l a hsub ih =>
      obtain ⟨ha, hnodup⟩ := List.nodup_cons.mp hnodup
      cases n with
      | zero => rfl
      | succ n => exact absurd (hsub.subset (h a (by simp))) ha
  | @cons_cons l' l a hsub ih =>
      obtain ⟨ha, hnodup⟩ := List.nodup_cons.mp hnodup
      cases n with
      | zero => rfl
      | succ n =>
          rw [List.take_succ_cons, List.take_succ_cons, ih hnodup (fun b hb => ?_)]
          refine (List.mem_cons.mp (h b (by simp [hb]))).resolve_left (fun heq => ha ?_)
          rw [← heq]
          exact List.mem_of_mem_take hb

namespace StorageKv

/-- Without a revision a call takes events that it should leave. -/
theorem not_compactsExactly_zero (h : db.Rep E S ch) (hlog : LogOk db.log lo hi) :
    ¬ CompactsExactly F db 0 := by
  rintro ⟨d, last, scanned, hcall, hpairs⟩
  obtain ⟨hreturns, hpiece, -⟩ := compactBy_inv h hlog (by decide) hcall
  have hlen := hreturns.resolve_left (fun hmeets => UInt64.lt_irrefl _ hmeets.pos)
  cases hl : db.removedEvents 0 with
  | nil =>
      rw [hl] at hlen
      exact absurd hlen (by decide)
  | cons p l =>
      have hp : p ∈ (db.removedEvents 0).take limitCompactionMaxKeys := by
        rw [hl]
        simp [limitCompactionMaxKeys]
      refine (hpiece.mem_pairs.mp (?_ : p ∈ d.evt.pairs)).2 hp
      have hmem := hpiece.sublist.subset hp
      rw [hpairs]
      exact List.mem_append_right _ (List.mem_filter.mpr ⟨hmem, by simp⟩)

theorem removedEvents_sublist_below (hpos : 0 < max) :
    (db.removedEvents max).Sublist (db.belowEvents max) := by
  have heq : db.removedEvents max =
      db.evt.walk.filter (fun p => ¬ max ≤ (decodeEvt p).rev.upper) :=
    List.filter_congr (fun p _ => by simp [Stops, hpos])
  rw [heq]
  exact db.evt.walk_sublist.filter _

/-- The first events below the revision are met when they are removed. -/
theorem stepsOverNone_of_mem_walk (h : db.Rep E S ch)
    (hall : ∀ p ∈ (db.belowEvents max).take limitCompactionMaxKeys, p ∈ db.evt.walk) :
    StepsOverNone db max := by
  intro p hp
  refine h.met_of_mem_walk (hall p hp) (fun q hq hqp => hall q ?_)
  have hpmem := mem_belowEvents.mp (List.mem_of_mem_take hp)
  have hqbelow : q ∈ db.belowEvents max := by
    refine mem_belowEvents.mpr ⟨hq, fun hle => hpmem.2 (UInt64.le_trans hle ?_)⟩
    exact upper_le_of_word_le ((h.word_le_iff hq hpmem.1).mpr hqp.le)
  have hsorted : (db.belowEvents max).Pairwise
      (fun a b => a.1 < b.1 ∨ a.1 = b.1 ∧ a.2 < b.2) :=
    db.evt.pairs_sorted.sublist List.filter_sublist
  rw [← List.take_append_drop limitCompactionMaxKeys (db.belowEvents max)] at hqbelow hsorted
  refine (List.mem_append.mp hqbelow).resolve_right (fun hdrop => ?_)
  rcases (List.pairwise_append.mp hsorted).2.2 p hp q hdrop with hlt | ⟨heq, -⟩
  · exact lt_asymm hlt hqp
  · exact hqp.ne heq.symm

theorem compactsExactly_iff (h : db.Rep E S ch) (hlog : LogOk db.log lo hi) :
    CompactsExactly F db max ↔ 0 < max ∧ StepsOverNone db max ∧
      (limitCompactionMaxKeys ≤ (db.belowEvents max).length ∨ db.StopsAt max) := by
  by_cases hpos : 0 < max
  swap
  · obtain rfl : max = 0 := UInt64.le_zero_iff.mp (UInt64.not_lt.mp hpos)
    exact iff_of_false (not_compactsExactly_zero h hlog) (fun hc => hpos hc.1)
  rw [and_iff_right hpos]
  have hsub := @removedEvents_sublist_below db max hpos
  have hsplit := h.pairs_eq_append max
  have hnodup := nodup_pairs db.evt
  rw [hsplit, ← List.take_append_drop limitCompactionMaxKeys (db.belowEvents max),
    List.append_assoc] at hnodup
  obtain ⟨-, -, hdisjoint⟩ := List.nodup_append.mp hnodup
  constructor
  · rintro ⟨d, last, scanned, hcall, hpairs⟩
    obtain ⟨hreturns, hpiece, -⟩ := compactBy_inv h hlog (by decide) hcall
    have hnone : StepsOverNone db max := by
      refine stepsOverNone_of_mem_walk h (fun p hp => ?_)
      have hnot : p ∉ d.evt.pairs := by
        rw [hpairs]
        exact fun hin => hdisjoint p hp p hin rfl
      have hmem := (mem_belowEvents.mp (List.mem_of_mem_take hp)).1
      have hgone : p ∈ (db.removedEvents max).take limitCompactionMaxKeys := by
        by_contra hleft
        exact hnot (hpiece.mem_pairs.mpr ⟨hmem, hleft⟩)
      exact (mem_removedEvents.mp (List.mem_of_mem_take hgone)).1
    refine ⟨hnone, ?_⟩
    by_cases hlen : limitCompactionMaxKeys ≤ (db.belowEvents max).length
    · exact .inl hlen
    · refine .inr (h.stopsAt (fun evt hevt hlt => ?_)
        (hreturns.resolve_right (fun hge => hlen (hge.trans hsub.length_le))))
      obtain ⟨p, hp, rfl⟩ := List.mem_map.mp hevt
      refine hnone p ?_
      rw [List.take_of_length_le (Nat.not_le.mp hlen).le]
      exact mem_belowEvents.mpr ⟨hp, UInt64.not_le.mpr hlt⟩
  · rintro ⟨hnone, hstop⟩
    have htake : (db.removedEvents max).take limitCompactionMaxKeys =
        (db.belowEvents max).take limitCompactionMaxKeys := by
      refine take_eq_of_sublist hsub ((nodup_pairs db.evt).sublist List.filter_sublist)
        (fun p hp => ?_)
      obtain ⟨hmem, hlt⟩ := mem_belowEvents.mp (List.mem_of_mem_take hp)
      exact mem_removedEvents.mpr ⟨h.mem_walk_of_met hmem (hnone p hp), fun hs => hlt hs.2⟩
    obtain ⟨d, hpiece, hcases⟩ :=
      compactBy_cases h hlog (by decide : 1 ≤ limitCompactionMaxKeys) max
    have hreturns : Returns limitCompactionMaxKeys db max := by
      rcases hstop with hlen | hstop
      · refine .inr ?_
        have heq := congrArg List.length htake
        rw [List.length_take, List.length_take] at heq
        omega
      · exact .inl (h.meetsStop hpos hstop)
    refine ⟨d, _, _, (hcases F).2.1 hreturns, ?_⟩
    refine DupTable.pairs_ext d.evt.pairs_sorted ?_ (fun p => ?_)
    · refine db.evt.pairs_sorted.sublist ?_
      rw [hsplit]
      exact (List.drop_sublist _ _).append_right _
    · rw [hpiece.mem_pairs, htake]
      conv => lhs; rw [hsplit, ← List.take_append_drop limitCompactionMaxKeys (db.belowEvents max),
        List.append_assoc, List.mem_append, List.take_append_drop]
      exact ⟨fun hp => hp.1.resolve_left hp.2,
        fun hp => ⟨.inr hp, fun hin => hdisjoint p hin p hp rfl⟩⟩

end StorageKv

end Stores

/-- The replica has told its watches of what it wrote. -/
theorem StorageRun.flushes {E : Env} {σ : Storage}
    (h : StorageRun E (fun _ cmd => cmd.OpsAtMost 1024) σ) : ∃ r, Flushes E σ r := by
  induction h with
  | init => exact ⟨_, .init⟩
  | update _ hops hact ih =>
      obtain ⟨r, hr⟩ := ih
      exact ⟨r, hr.update hops hact⟩
  | commit _ hact ih =>
      obtain ⟨r, hr⟩ := ih
      exact ⟨r, hr.commit hact⟩
  | flush _ hact ih =>
      obtain ⟨r, hr⟩ := ih
      exact ⟨_, hr.flush hact⟩

/-- Compaction returns without an error, with the events below the requested revision deleted,
exactly when the revision is not 0, the cursor steps over none of them, and it finds an event from
the revision on.  For a call of the module only the events that its budget covers count, and it
also returns when they use up the budget. -/
theorem compact_succeeds_iff {E : Env} :
    (∀ b, Reached E (fun _ cmd => cmd.OpsAtMost 1024) b → b.newRev < 2 ^ 52 → ∀ max,
      (b.store.tables.kv.CompactsExactly E max ↔
        0 < max ∧ b.store.tables.kv.StepsOverNone max ∧ b.store.tables.kv.StopsAt max)) ∧
    (∀ σ : Storage, StorageRun E (fun _ cmd => cmd.OpsAtMost 1024) σ → σ.batch.newRev < 2 ^ 52 →
      ∀ max, (StorageKv.CompactsExactly E σ.batch.store.tables.kv max ↔
        0 < max ∧ StorageKv.StepsOverNone σ.batch.store.tables.kv max ∧
          (StorageKv.limitCompactionMaxKeys ≤ (σ.batch.store.tables.kv.belowEvents max).length ∨
            σ.batch.store.tables.kv.StopsAt max))) := by
  constructor
  · intro b hb hrev max
    obtain ⟨ch, hrep, hlog, -⟩ := hb.versioned_of_opsAtMost (fun _ _ hQ => hQ) hrev
    exact hrep.compactsExactly_iff hlog
  · intro σ hσ hrev max
    obtain ⟨r, hflush⟩ := hσ.flushes
    obtain ⟨ch, hrep, hlog, -⟩ := (hflush.current hrev).versioned
    exact StorageKv.compactsExactly_iff hrep hlog

/-- Three puts: compaction at the second succeeds, and compaction at the third leaves an event. -/
theorem compact_succeeds_after_three_puts :
    (∃ s ∈ storeAfter [[.put { key := [97], value := [1] }], [.put { key := [98], value := [2] }],
        [.put { key := [97], value := [3] }]],
      s.tables.kv.CompactsExactly .plain 3 ∧ ¬ s.tables.kv.CompactsExactly .plain 4) ∧
    ∃ σ ∈ storageAfter [[.put { key := [97], value := [1] }], [.put { key := [98], value := [2] }],
        [.put { key := [97], value := [3] }]],
      StorageKv.CompactsExactly .plain σ.batch.store.tables.kv 3 ∧
        ¬ StorageKv.CompactsExactly .plain σ.batch.store.tables.kv 4 := by
  obtain ⟨hnative, hmodule⟩ := @compact_succeeds_iff .plain
  constructor
  · refine exists_mem_imp (D := fun s => s.dbMeta.rev < 2 ^ 52 ∧
      (s.tables.kv.StepsOverNone 3 ∧ s.tables.kv.StopsAt 3) ∧ ¬ s.tables.kv.StepsOverNone 4)
      (by decide +kernel) (fun s hs hD => ?_)
    have hiff := hnative (.start s) (reached_of_storeAfter (by decide +kernel) hs) hD.1
    exact ⟨(hiff 3).mpr ⟨by decide, hD.2.1⟩, fun hc => hD.2.2 ((hiff 4).mp hc).2.1⟩
  · refine exists_mem_imp (D := fun σ => σ.batch.newRev < 2 ^ 52 ∧
      (StorageKv.StepsOverNone σ.batch.store.tables.kv 3 ∧ σ.batch.store.tables.kv.StopsAt 3) ∧
      ¬ StorageKv.StepsOverNone σ.batch.store.tables.kv 4) (by decide +kernel) (fun σ hσ hD => ?_)
    have hiff := hmodule σ (storageRun_of_storageAfter (by decide +kernel) hσ) hD.1
    exact ⟨(hiff 3).mpr ⟨by decide, hD.2.1.1, .inr hD.2.1.2⟩,
      fun hc => hD.2.2 ((hiff 4).mp hc).2.1⟩

/-- A new store has no event.  A store with one event is compacted at the next revision, which
the next write would have, and a native replica stops at the entry.  It stops as well when a
store with two events is compacted at the second, which the cursor steps over, and with three
events a compaction at the third leaves the second. -/
theorem compact_fails_without_event :
    (Store.init.tables.kv.compact .plain 1).map Prod.snd = .error .checksumMissing ∧
    (StorageKv.compact .plain Store.init.tables.kv 1).map Prod.snd = .error .checksumMissing ∧
    (∃ s ∈ storeAfter [[.put { key := [97], value := [1] }]],
      s.tables.kv.events.map (fun evt => evt.rev.upper) = [2] ∧
      (s.tables.kv.compact .plain 3).map Prod.snd = .error .checksumInvalid ∧
      (StorageKv.compact .plain s.tables.kv 3).map Prod.snd = .error .checksumInvalid ∧
      (applyEntry .plain (.start s) { index := 2, cmd := .compact 3 }).map Prod.snd =
        .error .checksumInvalid) ∧
    (∃ s ∈ storeAfter (putsOf [97] [1, 2]),
      s.tables.kv.events.map (fun evt => evt.rev.upper) = [2, 3] ∧
      (s.tables.kv.compact .plain 3).map Prod.snd = .error .checksumInvalid ∧
      (StorageKv.compact .plain s.tables.kv 3).map Prod.snd = .error .checksumInvalid ∧
      (applyEntry .plain (.start s) { index := 3, cmd := .compact 3 }).map Prod.snd =
        .error .checksumInvalid) ∧
    ∃ s ∈ storeAfter (putsOf [97] [1, 2, 3]),
      (∃ r ∈ (s.tables.kv.compact .plain 4).toOption,
        r.1.events.map (fun evt => evt.rev.upper) = [3, 4]) ∧
      ∃ r ∈ (StorageKv.compact .plain s.tables.kv 4).toOption,
        r.1.events.map (fun evt => evt.rev.upper) = [3, 4] := by
  decide +kernel

end Turbokube
