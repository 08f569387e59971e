import Turbokube.Store.Events
import Turbokube.Store.Steps

/-!
# Every event has a record at or above it

Compaction prunes the records of a key below an event that it removes.  As long as each
event has a record of its key that is not older (`Anchored`), that record stays, and so no
key ever loses all its records.  This holds whatever the program is asked to do.
-/

namespace Turbokube

open Encoding Lmdb

namespace DbKv

/-- Some record of the key is not older than the word. -/
def Reaches (db : DbKv) (k : Bytes) (w : UInt64) : Prop := ∃ kr ∈ db.records k, w ≤ kr.rev.word

structure Anchored (db : DbKv) : Prop where
  decodes : ∀ p ∈ db.evt.pairs, EvtOk p
  reaches : ∀ p ∈ db.evt.pairs, db.Reaches (decodeEvt p).key (decodeEvt p).rev.word

variable {E : Env} {A : PutRequest → Prop} {db db' : DbKv} {k : Bytes} {w : UInt64}

theorem reaches_zero_iff : db.Reaches k 0 ↔ db.records k ≠ [] := by
  constructor
  · rintro ⟨kr, hkr, -⟩ hnil
    rw [hnil] at hkr
    cases hkr
  · intro hne
    obtain ⟨kr, hkr⟩ := List.exists_mem_of_ne_nil _ hne
    exact ⟨kr, hkr, UInt64.zero_le⟩

theorem Reaches.mono {w' : UInt64} (h : db.Reaches k w) (hle : w' ≤ w) : db.Reaches k w' := by
  obtain ⟨kr, hkr, hw⟩ := h
  exact ⟨kr, hkr, UInt64.le_trans hle hw⟩

theorem Reaches.of_dups (h : db.Reaches k w)
    (hsub : ∀ b ∈ db.rev.dups k, b ∈ db'.rev.dups k) : db'.Reaches k w := by
  obtain ⟨kr, hkr, hw⟩ := h
  obtain ⟨b, hb, rfl⟩ := List.mem_map.mp hkr
  exact ⟨_, List.mem_map_of_mem (hsub b hb), hw⟩

section Writes

variable {kr : Keyrecord} {epoch : UInt64}

/-- A record and its event are written together. -/
theorem reaches_put (hrev : db'.rev = db.rev.put kr.key kr.bytes) :
    db'.Reaches kr.key kr.rev.word ∧ ∀ k w, db.Reaches k w → db'.Reaches k w := by
  constructor
  · refine ⟨kr.normal, ?_, UInt64.le_refl _⟩
    rw [← decodeRec_bytes]
    refine List.mem_map_of_mem ?_
    rw [hrev, DupTable.mem_dups_put]
    exact .inl ⟨rfl, rfl⟩
  · intro k w h
    refine h.of_dups (fun b hb => ?_)
    rw [hrev, DupTable.mem_dups_put]
    exact .inr hb

theorem Anchored.put (h : db.Anchored) (hrev : db'.rev = db.rev.put kr.key kr.bytes)
    (hevt : db'.evt = db.evt.put kr.rev.key (evtBytes kr.rev epoch kr.key)) : db'.Anchored := by
  obtain ⟨hself, hmono⟩ := @reaches_put db db' kr hrev
  have hcases : ∀ p ∈ db'.evt.pairs,
      p = (kr.rev.key, evtBytes kr.rev epoch kr.key) ∨ p ∈ db.evt.pairs := by
    intro p hp
    rw [DupTable.mem_pairs, hevt, DupTable.mem_dups_put] at hp
    rcases hp with ⟨hk, hv⟩ | hp
    · exact .inl (Prod.ext hk hv)
    · exact .inr (DupTable.mem_pairs.mpr hp)
  constructor
  case decodes =>
    intro p hp
    rcases hcases p hp with rfl | hp
    · exact evtOk_evtBytes _ _ _
    · exact h.decodes p hp
  case reaches =>
    intro p hp
    rcases hcases p hp with rfl | hp
    · rw [decodeEvt_evtBytes]
      exact hself
    · exact hmono _ _ (h.reaches p hp)

theorem Anchored.tombstones {rev subrev : Nat} (h : db.Anchored) (ks : List Bytes) :
    (db.tombstones rev subrev epoch ks).Anchored ∧
      ∀ k w, db.Reaches k w → (db.tombstones rev subrev epoch ks).Reaches k w := by
  induction ks generalizing db with
  | nil => exact ⟨h, fun _ _ hr => hr⟩
  | cons key ks ih =>
      have hone : (db.tombstone rev subrev epoch key).Anchored :=
        @Anchored.put db _ { key := key, rev := revAt rev subrev true } epoch h rfl rfl
      obtain ⟨hrest, hmono⟩ := ih hone
      refine ⟨hrest, fun k w hr => hmono k w ?_⟩
      exact (@reaches_put db _ { key := key, rev := revAt rev subrev true } rfl).2 k w hr

theorem Anchored.dbPut {rev subrev : Nat} {lease : UInt64} {key val : Bytes}
    {ignoreValue ignoreLease patched : Bool} {prev next : Kv} (h : db.Anchored)
    (hput : db.put E rev subrev lease epoch key val ignoreValue ignoreLease =
      .ok (db', prev, next, patched)) :
    db'.Anchored ∧ db'.Reaches key 0 ∧ ∀ k w, db.Reaches k w → db'.Reaches k w := by
  obtain ⟨hrev, hevt, -⟩ := put_tables hput
  obtain ⟨hself, hmono⟩ := @reaches_put db _ ⟨key, revAt rev subrev false, lease⟩ hrev
  exact ⟨@Anchored.put db _ ⟨key, revAt rev subrev false, lease⟩ epoch h hrev hevt,
    hself.mono UInt64.zero_le, hmono⟩

end Writes

section Compaction

/-- Pruning a key keeps its records from `rev` on and the other keys. -/
theorem pruneDups_mem {key : Bytes} {rev : Keyrev} {l : List Bytes} {hasNewer : Bool}
    (h : pruneDups key rev l hasNewer db = .ok db') {b : Bytes} (hb : b ∈ db.rev.dups k)
    (hkeep : k = key → rev.word ≤ (decodeRec key b).rev.word) : b ∈ db'.rev.dups k := by
  induction l generalizing db hasNewer with
  | nil =>
      obtain rfl := Except.ok.inj h
      exact hb
  | cons c rest ih =>
      rw [pruneDups] at h
      split at h
      · cases h
      · rename_i krec hdecode
        split at h
        · exact ih h hb
        · rename_i hold
          have hstays : b ∈ (db.rev.delDup key c).dups k := by
            refine DupTable.mem_dups_delDup.mpr ⟨hb, ?_⟩
            rintro ⟨hk, rfl⟩
            have hle := hkeep hk
            rw [decodeRec, hdecode] at hle
            exact hold hle
          split at h
          · split at h
            · cases h
            · exact ih h hstays
          · exact ih h hstays

theorem pruneKey_reaches {key : Bytes} {rev : Keyrev} (hrev : db.Reaches key rev.word)
    (h : db.pruneKey key rev = .ok db') (hk : db.Reaches k w) : db'.Reaches k w := by
  unfold pruneKey at h
  split at h
  · obtain rfl := Except.ok.inj h
    exact hk
  · cases h
  · split at h
    · have hmem : ∀ {k b}, b ∈ db.rev.dups k → (k = key → rev.word ≤ (decodeRec key b).rev.word) →
          b ∈ db'.rev.dups k := fun hb hkeep => pruneDups_mem h hb hkeep
      obtain ⟨kr, hkr, hw⟩ := hk
      obtain ⟨b, hb, rfl⟩ := List.mem_map.mp hkr
      by_cases hkey : k = key
      · subst hkey
        by_cases hle : rev.word ≤ (decodeRec k b).rev.word
        · exact ⟨_, List.mem_map_of_mem (hmem hb (fun _ => hle)), hw⟩
        · -- the record that anchored the word goes, the one that reaches `rev` stays
          obtain ⟨kr', hkr', hrev'⟩ := hrev
          obtain ⟨b', hb', rfl⟩ := List.mem_map.mp hkr'
          refine ⟨_, List.mem_map_of_mem (hmem hb' (fun _ => hrev')), ?_⟩
          exact UInt64.le_trans hw (UInt64.le_trans (UInt64.le_of_lt (UInt64.not_le.mp hle)) hrev')
      · exact ⟨_, List.mem_map_of_mem (hmem hb (fun heq => absurd heq hkey)), hw⟩
    · obtain rfl := Except.ok.inj h
      exact hk
  · obtain rfl := Except.ok.inj h
    exact hk

theorem prune_reaches {l : List (Bytes × Keyrev)} (hl : ∀ p ∈ l, db.Reaches p.1 p.2.word)
    (h : prune l db = .ok db') (hk : db.Reaches k w) : db'.Reaches k w := by
  induction l generalizing db with
  | nil =>
      obtain rfl := Except.ok.inj h
      exact hk
  | cons p rest ih =>
      obtain ⟨key, rev⟩ := p
      have hrev := hl (key, rev) List.mem_cons_self
      rw [prune] at h
      split at h
      · cases h
      · rename_i db₁ hone
        exact ih (fun p hp => pruneKey_reaches hrev hone (hl p (List.mem_cons_of_mem _ hp))) h
          (pruneKey_reaches hrev hone hk)

/-- The entries of the map of a batch are words that the store reaches. -/
def MapReached (db : DbKv) (keys : Table Bytes Keyrev) : Prop :=
  ∀ k r, keys.get k = some r → db.Reaches k r.word

theorem MapReached.order {keys : Table Bytes Keyrev} (h : db.MapReached keys) (n : Nat) :
    ∀ p ∈ E.order n keys.entries, db.Reaches p.1 p.2.word :=
  fun p hp => h p.1 p.2 (Table.get_eq_some_iff.mpr ((E.order_perm n keys.entries).mem_iff.mp hp))

theorem flush_reaches {limit n n' : Nat} {keys keys' : Table Bytes Keyrev}
    (hkeys : db.MapReached keys) (h : flush E limit n keys db = .ok (n', keys', db')) :
    db'.MapReached keys' ∧ ∀ k w, db.Reaches k w → db'.Reaches k w := by
  rcases flush_cases h with ⟨rfl, hprune⟩ | ⟨rfl, rfl⟩
  · exact ⟨fun _ _ hget => (by cases hget), fun k w hk => prune_reaches (hkeys.order n) hprune hk⟩
  · exact ⟨hkeys, fun _ _ hk => hk⟩

theorem compactLoop_reaches {limit : Nat} {max : UInt64} {l : List (Bytes × Bytes)} {n : Nat}
    {keys : Table Bytes Keyrev} {last last' : UInt64}
    (hl : ∀ p ∈ l, EvtOk p ∧ db.Reaches (decodeEvt p).key (decodeEvt p).rev.word)
    (hkeys : db.MapReached keys)
    (h : compactLoop E limit max l n keys last db = .ok (db', last')) (hk : db.Reaches k w) :
    db'.Reaches k w := by
  induction l generalizing db n keys last with
  | nil =>
      rw [compactLoop] at h
      split at h <;> cases h
  | cons p rest ih =>
      obtain ⟨hok, hreach⟩ := hl p List.mem_cons_self
      rw [show p = (p.1, p.2) from rfl, compactLoop, fromKey_of_evtOk hok] at h
      simp only at h
      split at h
      · split at h
        · cases h
        · rename_i hprune
          obtain ⟨rfl, -⟩ := Prod.mk.inj (Except.ok.inj h)
          exact prune_reaches (hkeys.order n) hprune hk
      · split at h
        · cases h
        · rename_i n₁ keys₁ db₁ hflush
          obtain ⟨hkeys₁, hmono⟩ := flush_reaches hkeys hflush
          simp only [trimChecksum_of_evtOk hok, skipUvarint_putUvarint] at h
          refine @ih { db₁ with evt := db₁.evt.delDup p.1 p.2 } n₁ _ _ (fun q hq => ?_)
            (fun key r hget => ?_) h (hmono k w hk)
          · obtain ⟨hq, hreach'⟩ := hl q (List.mem_cons_of_mem _ hq)
            exact ⟨hq, hmono _ _ hreach'⟩
          · rw [Table.get_put] at hget
            split at hget
            · rename_i hkey
              rw [hkey, ← Option.some.inj hget]
              exact hmono _ _ hreach
            · exact hkeys₁ key r hget

theorem compact_reaches {max last : UInt64} (h : db.Anchored)
    (hcompact : db.compact E max = .ok (db', last)) (hk : db.Reaches k w) : db'.Reaches k w := by
  have hl : ∀ p ∈ db.evt.walk, EvtOk p ∧ db.Reaches (decodeEvt p).key (decodeEvt p).rev.word := by
    intro p hp
    have hmem := db.evt.walk_sublist.subset hp
    exact ⟨h.decodes p hmem, h.reaches p hmem⟩
  unfold compact compactBy at hcompact
  split at hcompact
  · cases hcompact
  · rename_i hwalk
    rw [hwalk] at hl
    split at hcompact
    · cases hcompact
    · exact compactLoop_reaches hl (fun _ _ hget => (by cases hget)) hcompact hk

theorem Anchored.compact {max last : UInt64} (h : db.Anchored)
    (hcompact : db.compact E max = .ok (db', last)) : db'.Anchored := by
  have hsub : ∀ p ∈ db'.evt.pairs, p ∈ db.evt.pairs := fun p hp =>
    DupTable.mem_pairs.mpr ((compact_shrunk hcompact).evt p.1 p.2 (DupTable.mem_pairs.mp hp))
  exact ⟨fun p hp => h.decodes p (hsub p hp),
    fun p hp => compact_reaches h hcompact (h.reaches p (hsub p hp))⟩

end Compaction

end DbKv

end Turbokube
