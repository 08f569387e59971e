import Turbokube.Store.Records

/-!
# What the operations write

A put that succeeds ends in one `record`, and a deletion is a series of
`tombstone`s with one revision.  Compaction only removes.
-/

namespace Turbokube

open Encoding Lmdb

namespace DbKv

variable {E : Env} {db db' : DbKv} {rev subrev : Nat} {lease epoch : UInt64} {key val : Bytes}

theorem patchPrev_frame (E : Env) (db : DbKv) (prev : Kv) (v val : Bytes) :
    (db.patchPrev E prev v val).1.rev = db.rev ∧ (db.patchPrev E prev v val).1.evt = db.evt ∧
      (db.patchPrev E prev v val).1.log = db.log := by
  simp only [patchPrev]
  split
  · exact ⟨rfl, rfl, rfl⟩
  · exact ⟨rfl, rfl, rfl⟩

/-- The patch replaces a value that is there. -/
theorem patchPrev_val {kr : Keyrev} {prev : Kv} {v val : Bytes} (hget : db.val.get kr.key = some v)
    (hdecode : Kv.fromBytes E.codec {} kr.key v none false = (prev, none)) {k v' : Bytes}
    (hv : (db.patchPrev E prev v val).1.val.get k = some v') : ∃ v', db.val.get k = some v' := by
  simp only [patchPrev] at hv
  split at hv
  · have hrev := Kv.fromBytes_rev hdecode
    rw [kr.mk_uint64_key] at hrev
    simp only [hrev, Table.get_put] at hv
    split at hv
    · rename_i hk
      exact ⟨v, hk ▸ hget⟩
    · exact ⟨v', hv⟩
  · exact ⟨v', hv⟩

/-- A put writes one record, one event and one entry of the log, and its own value.  At most it
rewrites a value that is there. -/
theorem put_tables {ignoreValue ignoreLease patched : Bool} {prev next : Kv}
    (h : db.put E rev subrev lease epoch key val ignoreValue ignoreLease =
      .ok (db', prev, next, patched)) :
    db'.rev = db.rev.put key (Keyrecord.bytes ⟨key, revAt rev subrev false, lease⟩) ∧
      db'.evt = db.evt.put (revAt rev subrev false).key
        (evtBytes (revAt rev subrev false) epoch key) ∧
      db'.log = db.log ++
        [⟨rev, revAt rev subrev false, key, .put val lease ignoreValue ignoreLease⟩] ∧
      ∀ k v, db'.val.get k = some v →
        k = (revAt rev subrev false).key ∨ ∃ v', db.val.get k = some v' := by
  unfold put at h
  split at h
  · cases h
  · split at h
    · cases h
    · split at h
      · cases h
      · split at h
        · obtain ⟨rfl, -⟩ := Prod.mk.inj (Except.ok.inj h)
          refine ⟨rfl, rfl, rfl, fun k v hv => ?_⟩
          simp only [record, Table.get_put] at hv
          split at hv
          · exact .inl ‹_›
          · exact .inr ⟨v, hv⟩
        · split at h
          · cases h
          · unfold putOver Table.fetch at h
            split at h
            · cases h
            · rename_i stored hfetch
              split at h
              · cases h
              · rename_i prev' hdecode
                obtain ⟨rfl, -⟩ := Prod.mk.inj (Except.ok.inj h)
                obtain ⟨hrev, hevt, hlog⟩ := patchPrev_frame E db prev' stored val
                rw [record, hrev, hevt, hlog]
                refine ⟨rfl, rfl, rfl, fun k v hv => ?_⟩
                simp only [Table.get_put] at hv
                split at hv
                · exact .inl ‹_›
                · split at hfetch
                  · cases hfetch
                  · rename_i hget
                    rw [Except.ok.inj hfetch] at hget
                    exact .inr (patchPrev_val hget hdecode hv)

/-- Tombstones for several keys, written with one revision. -/
def tombstones (rev subrev : Nat) (epoch : UInt64) (keys : List Bytes) (db : DbKv) : DbKv :=
  keys.foldl (fun db k => db.tombstone rev subrev epoch k) db

@[simp] theorem tombstones_nil (rev subrev : Nat) (epoch : UInt64) (db : DbKv) :
    db.tombstones rev subrev epoch [] = db := rfl

@[simp] theorem tombstones_cons (rev subrev : Nat) (epoch : UInt64) (k : Bytes) (ks : List Bytes)
    (db : DbKv) :
    db.tombstones rev subrev epoch (k :: ks) =
      (db.tombstone rev subrev epoch k).tombstones rev subrev epoch ks := rfl

theorem tombstones_append (rev subrev : Nat) (epoch : UInt64) (ks ks' : List Bytes) (db : DbKv) :
    db.tombstones rev subrev epoch (ks ++ ks') =
      (db.tombstones rev subrev epoch ks).tombstones rev subrev epoch ks' :=
  List.foldl_append

theorem tombstones_log (rev subrev : Nat) (epoch : UInt64) (ks : List Bytes) (db : DbKv) :
    (db.tombstones rev subrev epoch ks).log =
      db.log ++ ks.map (fun k => ⟨rev, revAt rev subrev true, k, .delete⟩) := by
  induction ks generalizing db with
  | nil => simp
  | cons k ks ih => simp [ih, tombstone]

theorem tombstones_val (rev subrev : Nat) (epoch : UInt64) (ks : List Bytes) (db : DbKv) :
    (db.tombstones rev subrev epoch ks).val = db.val := by
  induction ks generalizing db with
  | nil => rfl
  | cons k ks ih => rw [tombstones_cons, ih, tombstone]

/-- What remains after compaction: the log, and nothing that was not there. -/
structure Shrunk (db db' : DbKv) : Prop where
  log : db'.log = db.log
  rev : ∀ k b, b ∈ db'.rev.dups k → b ∈ db.rev.dups k
  evt : ∀ k v, v ∈ db'.evt.dups k → v ∈ db.evt.dups k
  val : ∀ k v, db'.val.get k = some v → db.val.get k = some v

namespace Shrunk

theorem refl (db : DbKv) : db.Shrunk db := ⟨rfl, fun _ _ h => h, fun _ _ h => h, fun _ _ h => h⟩

theorem trans {a b c : DbKv} (hab : a.Shrunk b) (hbc : b.Shrunk c) : a.Shrunk c :=
  ⟨hbc.log.trans hab.log, fun k v h => hab.rev k v (hbc.rev k v h),
    fun k v h => hab.evt k v (hbc.evt k v h), fun k v h => hab.val k v (hbc.val k v h)⟩

theorem delRev (db : DbKv) (k b : Bytes) : db.Shrunk { db with rev := db.rev.delDup k b } :=
  ⟨rfl, fun _ _ h => (DupTable.mem_dups_delDup.mp h).1, fun _ _ h => h, fun _ _ h => h⟩

theorem delEvt (db : DbKv) (k v : Bytes) : db.Shrunk { db with evt := db.evt.delDup k v } :=
  ⟨rfl, fun _ _ h => h, fun _ _ h => (DupTable.mem_dups_delDup.mp h).1, fun _ _ h => h⟩

theorem delVal (db : DbKv) (k : Bytes) : db.Shrunk { db with val := db.val.del k } := by
  refine ⟨rfl, fun _ _ h => h, fun _ _ h => h, fun k' v h => ?_⟩
  simp only [Table.get_del] at h
  split at h
  · cases h
  · exact h

theorem recsOk {db db' : DbKv} (h : db.Shrunk db') (hok : db.RecsOk) : db'.RecsOk :=
  fun k b hb => hok k b (h.rev k b hb)

end Shrunk

theorem pruneDups_shrunk {rev : Keyrev} {l : List Bytes} {hasNewer : Bool}
    (h : pruneDups key rev l hasNewer db = .ok db') : db.Shrunk db' := by
  induction l generalizing db hasNewer with
  | nil =>
      obtain rfl := Except.ok.inj h
      exact .refl db
  | cons b rest ih =>
      rw [pruneDups] at h
      split at h
      · cases h
      · split at h
        · exact ih h
        · split at h
          · split at h
            · cases h
            · rename_i krec _ _ _ _ val' hval
              have hdel : val' = db.val.del krec.rev.key := by
                unfold Table.remove at hval
                split at hval
                · cases hval
                · exact (Except.ok.inj hval).symm
              subst hdel
              exact ((Shrunk.delVal db krec.rev.key).trans (Shrunk.delRev _ key b)).trans (ih h)
          · exact (Shrunk.delRev db key b).trans (ih h)

theorem prune_shrunk {l : List (Bytes × Keyrev)} (h : prune l db = .ok db') : db.Shrunk db' := by
  induction l generalizing db with
  | nil =>
      obtain rfl := Except.ok.inj h
      exact .refl db
  | cons p rest ih =>
      obtain ⟨k, r⟩ := p
      rw [prune] at h
      split at h
      · cases h
      · rename_i db₁ hkey
        refine Shrunk.trans ?_ (ih h)
        unfold pruneKey at hkey
        split at hkey
        · obtain rfl := Except.ok.inj hkey
          exact .refl db
        · cases hkey
        · split at hkey
          · exact pruneDups_shrunk hkey
          · obtain rfl := Except.ok.inj hkey
            exact .refl db
        · obtain rfl := Except.ok.inj hkey
          exact .refl db

/-- A full batch is pruned, and the map starts again. -/
theorem flush_cases {limit n n' : Nat} {keys keys' : Table Bytes Keyrev}
    (h : flush E limit n keys db = .ok (n', keys', db')) :
    keys' = .empty ∧ prune (E.order n keys.entries) db = .ok db' ∨ keys' = keys ∧ db' = db := by
  unfold flush at h
  split at h
  · split at h
    · cases h
    · rename_i hprune
      obtain ⟨-, rfl, rfl⟩ : _ ∧ _ = keys' ∧ _ = db' := by simpa using Except.ok.inj h
      exact .inl ⟨rfl, hprune⟩
  · obtain ⟨-, rfl, rfl⟩ : _ ∧ _ = keys' ∧ _ = db' := by simpa using Except.ok.inj h
    exact .inr ⟨rfl, rfl⟩

theorem compactLoop_shrunk {limit : Nat} {max : UInt64} {l : List (Bytes × Bytes)} {n : Nat}
    {keys : Table Bytes Keyrev} {last last' : UInt64}
    (h : compactLoop E limit max l n keys last db = .ok (db', last')) : db.Shrunk db' := by
  induction l generalizing db n keys last with
  | nil =>
      rw [compactLoop] at h
      split at h <;> cases h
  | cons p rest ih =>
      obtain ⟨k, v⟩ := p
      rw [compactLoop] at h
      split at h
      · split at h
        · cases h
        · rename_i hprune
          obtain ⟨rfl, -⟩ := Prod.mk.inj (Except.ok.inj h)
          exact prune_shrunk hprune
      · split at h
        · split at h
          · cases h
          · rename_i hprune
            obtain ⟨rfl, -⟩ := Prod.mk.inj (Except.ok.inj h)
            exact prune_shrunk hprune
        · split at h
          · cases h
          · rename_i n' keys' db₁ hflush
            have hdb₁ : db.Shrunk db₁ := by
              rcases flush_cases hflush with ⟨-, hprune⟩ | ⟨-, rfl⟩
              · exact prune_shrunk hprune
              · exact .refl _
            split at h
            · cases h
            · split at h
              · cases h
              · exact (hdb₁.trans (Shrunk.delEvt db₁ k v)).trans (ih h)

theorem compact_shrunk {max last : UInt64} (h : db.compact E max = .ok (db', last)) :
    db.Shrunk db' := by
  unfold compact compactBy at h
  split at h
  · cases h
  · split at h
    · cases h
    · exact compactLoop_shrunk h

theorem RecsOk.tombstones (h : db.RecsOk) (ks : List Bytes) :
    (db.tombstones rev subrev epoch ks).RecsOk := by
  induction ks generalizing db with
  | nil => exact h
  | cons k ks ih => exact ih (h.put { key := k, rev := revAt rev subrev true } rfl)

end DbKv

end Turbokube
