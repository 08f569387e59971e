import Turbokube.Machine.Histories
import Turbokube.Record.Stamp
import Turbokube.Store.Events

/-!
# Cursors meet the newest record first

The order of stamps is the order a cursor sees: the records of a key from the newest to the
oldest, the events of the store from the oldest to the newest.  The tables of every reached
store hold stamped records, at most one of each stamp for a key, and events that decode.
-/

namespace Turbokube

open Encoding Lmdb DbKv

namespace DbKv

/-- The records of a key in the order of the revision table, each of a stamp of its own. -/
structure Lists (db : DbKv) (key : Bytes) (recs : List (Stamp × UInt64)) : Prop where
  dups : db.rev.dups key = recs.map (fun r => (r.1.record key r.2).bytes)
  nodup : (recs.map Prod.fst).Nodup

variable {E : Env} {S : Prop} {db db' : DbKv} {key : Bytes} {recs : List (Stamp × UInt64)}

/-- Every record is older than those before it. -/
theorem Lists.newest_first (h : db.Lists key recs) :
    recs.Pairwise (fun a b => b.1.Older a.1) := by
  have hsorted := db.rev.dups_sorted key
  rw [h.dups, List.pairwise_map] at hsorted
  have hne := List.pairwise_map.mp h.nodup
  exact hne.imp₂ (fun a b hne hlt => (Stamp.record_lt_iff hne).mp hlt) hsorted

/-- A cursor set to the key is on the newest record, with the others behind it. -/
theorem Lists.setRange_eq (h : db.Lists key recs) (hne : recs ≠ []) (hkey : 0 < key.length) :
    ∃ rest, setRange db.rev key =
      .ok ((key, recs.map (fun r => (r.1.record key r.2).bytes)) :: rest) := by
  have hdups : db.rev.dups key ≠ [] := by
    rw [h.dups]
    exact fun hnil => hne (List.map_eq_nil_iff.mp hnil)
  obtain ⟨rest, hset, -⟩ := setRange_of_dups_ne_nil (List.ne_nil_of_length_pos hkey) hdups
  exact ⟨rest, by rw [hset, h.dups]⟩

/-- The writes of the log are packed by `newkeyrev`, which leaves the lowest bit clear. -/
def Packed (db : DbKv) : Prop := ∀ w ∈ db.log, w.kr.word.toNat % 2 = 0

theorem revAt_even (rev subrev : Nat) (isdel : Bool) :
    (revAt rev subrev isdel).word.toNat % 2 = 0 := by
  rw [revAt, newkeyrev_word_toNat]
  cases isdel
  · simp only [Bool.false_eq_true, if_false]
    omega
  · simp only [if_true]
    omega

theorem Packed.append {new : List Write} (h : db.Packed) (hlog : db'.log = db.log ++ new)
    (hnew : ∀ w ∈ new, w.kr.word.toNat % 2 = 0) : db'.Packed := by
  intro w hw
  rw [hlog] at hw
  exact (List.mem_append.mp hw).elim (h w) (hnew w)

theorem Packed.opStep {A : PutRequest → Prop} {rev subrev : Nat} (h : db.Packed)
    (hop : OpStep E A rev subrev db db') : db'.Packed := by
  cases hop with
  | put hreq hput =>
      refine h.append (put_tables hput).2.2.1 (fun w hw => ?_)
      rw [List.mem_singleton.mp hw]
      exact revAt_even _ _ _
  | tombs hchain =>
      refine h.append (tombstones_log _ _ _ _ _) (fun w hw => ?_)
      obtain ⟨k, -, rfl⟩ := List.mem_map.mp hw
      exact revAt_even _ _ _

/-- The versions of a key are stamped records in the order of the table. -/
theorem Rep.lists {ch : Bytes → List Version} {lo hi : Nat} (h : db.Rep E S ch)
    (hlog : LogOk db.log lo hi) (hpacked : db.Packed) (key : Bytes) :
    db.Lists key ((ch key).map (fun v => (Stamp.ofKeyrev v.rev, v.lease))) := by
  have hstamp : ∀ v ∈ ch key, (Stamp.ofKeyrev v.rev).keyrev = v.rev := by
    intro v hv
    obtain ⟨w, hw, -, cur, rfl⟩ := write_of_mem_versions (h.mem_versions hv)
    exact Stamp.keyrev_ofKeyrev (hpacked w hw)
  constructor
  case dups =>
    rw [h.dups, List.map_map]
    refine List.map_congr_left (fun v hv => ?_)
    simp only [Function.comp, Stamp.record, hstamp v hv]
    rfl
  case nodup =>
    rw [List.map_map, List.Nodup, List.pairwise_map]
    have hdesc := (hlog.desc key).sublist (h.kept key).sublist
    refine hdesc.imp_of_mem (fun {a b} ha hb hlt heq => ?_)
    have hrev : a.rev = b.rev := by
      rw [← hstamp a ha, ← hstamp b hb]
      exact congrArg Stamp.keyrev heq
    rw [hrev] at hlt
    exact lt_irrefl _ hlt

end DbKv

variable {E : Env} {Q : Batch → Cmd → Prop} {b : Batch}

theorem Reached.packed (h : Reached E Q b) : b.store.tables.kv.Packed := by
  refine (h.inv (I := fun t _ _ => t.kv.RecsOk ∧ t.kv.Packed) ⟨.empty, ?_⟩ ?_).2
  · exact fun w hw => absurd hw List.not_mem_nil
  · intro b b' cmd ⟨hok, hpacked⟩ _ heff
    obtain ⟨n, hn, hops⟩ := opsAtMost_longest cmd
    rcases heff.kvRun hn hops (putsMeet_true cmd) hok with hrun | ⟨_, _, _, _, hcompact⟩
    · exact ⟨hok.kvRun hrun, hrun.keeps (fun h hop => h.opStep hop) hpacked⟩
    · refine ⟨(compact_shrunk hcompact).recsOk hok, ?_⟩
      rw [Packed, (compact_shrunk hcompact).log]
      exact hpacked

theorem Reached.lists (hops : ∀ b cmd, Q b cmd → cmd.OpsAtMost 1024) (h : Reached E Q b)
    (hrev : b.newRev < 2 ^ 52) (key : Bytes) : ∃ recs, b.store.tables.kv.Lists key recs := by
  obtain ⟨ch, hrep, hlog, -⟩ := h.versioned_of_opsAtMost hops hrev
  exact ⟨_, hrep.lists hlog h.packed key⟩

theorem Reached.evtOk (hops : ∀ b cmd, Q b cmd → cmd.OpsAtMost 1024) (h : Reached E Q b)
    (hrev : b.newRev < 2 ^ 52) : ∀ p ∈ b.store.tables.kv.evt.pairs, EvtOk p := by
  obtain ⟨ch, hrep, -⟩ := h.versioned_of_opsAtMost hops hrev
  exact hrep.evtOk

/-- Packed revisions and stored records of a key: they come back, they sort by the revision,
the operation and the flag, and so a cursor finds the newest record of the key first and a scan
starts at the first event of its revision.  The tables of reached stores are of this kind, and
the Zig module packs and encodes the same. -/
theorem records_newest_first (key : Bytes) :
    (∀ s : Stamp, s.keyrev.upper = s.upper ∧ s.keyrev.lower = s.lower ∧
      s.keyrev.isdel = s.del) ∧
    (∀ (s : Stamp) (lease : UInt64),
      Keyrecord.fromBytes {} key (s.record key lease).bytes =
        .ok ⟨key, s.keyrev, if s.del then 0 else lease⟩) ∧
    (∀ s t : Stamp, s.keyrev.key < t.keyrev.key ↔ s.Older t) ∧
    (∀ (s t : Stamp) (lease lease' : UInt64), s ≠ t →
      ((s.record key lease).bytes < (t.record key lease').bytes ↔ t.Older s)) ∧
    (∀ (db : DbKv) (recs : List (Stamp × UInt64)), db.Lists key recs →
      recs.Pairwise (fun a b => b.1.Older a.1) ∧
      (recs ≠ [] → 0 < key.length → key.length ≤ maxKeySize →
        ∃ rest, setRange db.rev key =
          .ok ((key, recs.map (fun r => (r.1.record key r.2).bytes)) :: rest))) ∧
    (∀ (db : DbKv) (r : UInt64), (∀ p ∈ db.evt.pairs, EvtOk p) → r.toNat < 2 ^ 52 →
      ∃ low high, db.events = low ++ high ∧ (∀ evt ∈ low, evt.rev.upper < r) ∧
        (∀ evt ∈ high, r ≤ evt.rev.upper) ∧ db.scan r = .ok high) ∧
    (∀ (E : Env) (b : Batch), Reached E (fun _ cmd => cmd.OpsAtMost 1024) b →
      b.newRev < 2 ^ 52 → (∃ recs, b.store.tables.kv.Lists key recs) ∧
        ∀ p ∈ b.store.tables.kv.evt.pairs, EvtOk p) ∧
    (∀ s : Stamp, ZigKeyrev.init s.upper s.lower s.del = s.keyrev) ∧
    (∀ kr : Keyrecord, ZigKeyrecord.bytes kr = .ok kr.bytes) ∧
    ∀ buf : Bytes, ZigKeyrecord.fromBytes key buf = Keyrecord.fromBytes {} key buf := by
  refine ⟨?_, ?_, ?_, ?_, ?_, ?_, ?_, ?_, ?_, ?_⟩
  · exact fun s => ⟨s.keyrev_upper, s.keyrev_lower, s.keyrev_isdel⟩
  · exact fun s lease => s.fromBytes_record key lease
  · exact fun s t => Stamp.key_lt_key_iff
  · exact fun s t lease lease' hne => Stamp.record_lt_iff hne
  · exact fun db recs h => ⟨h.newest_first, fun hne hkey _ => h.setRange_eq hne hkey⟩
  · exact fun db r hok hr => scan_split hok hr
  · exact fun E b h hrev =>
      ⟨h.lists (fun _ _ hops => hops) hrev key, h.evtOk (fun _ _ hops => hops) hrev⟩
  · exact fun s => ZigKeyrev.init_eq _ _ _
  · exact ZigKeyrecord.bytes_eq
  · exact ZigKeyrecord.fromBytes_eq key

theorem records_newest_first_two_puts :
    ∃ s ∈ storeAfter [[.put { key := [97], value := [1] }], [.put { key := [97], value := [2] }]],
      ∃ a b rest, s.tables.kv.Lists [97] [a, b] ∧ b.1.Older a.1 ∧
        setRange s.tables.kv.rev [97] =
          .ok (([97], [(a.1.record [97] a.2).bytes, (b.1.record [97] b.2).bytes]) :: rest) := by
  refine exists_mem_imp (D := fun s => s.dbMeta.rev < 2 ^ 52 ∧
    (s.tables.kv.rev.dups [97]).length = 2) (by decide +kernel) (fun s hs hD => ?_)
  obtain ⟨hrev, hlen⟩ := hD
  obtain ⟨-, -, -, -, htable, -, hstore, -⟩ := records_newest_first [97]
  obtain ⟨recs, hlists⟩ : ∃ recs, s.tables.kv.Lists [97] recs :=
    (hstore .plain (.start s) (reached_of_storeAfter (by decide +kernel) hs) hrev).1
  rw [hlists.dups, List.length_map] at hlen
  obtain ⟨a, c, rfl⟩ := List.length_eq_two.mp hlen
  obtain ⟨hpair, hset⟩ := htable s.tables.kv [a, c] hlists
  obtain ⟨rest, hset⟩ := hset (by simp) (by decide) (by decide)
  exact ⟨a, c, rest, hlists, (List.pairwise_cons.mp hpair).1 c (by simp), hset⟩

end Turbokube
