import Turbokube.Store.Compaction
import Turbokube.Store.Reads

/-!
# Reads after compaction

A read at a compacted revision or above, or at the newest one, walks down a key no
further than its newest version below that revision, and the versions down to there
are what compaction keeps.
-/

namespace Turbokube

open Encoding Lmdb

namespace DbKv

variable {E : Env} {S : Prop} {db d : DbKv} {ch ch' : Bytes → List Version} {lo hi : Nat}
  {max : UInt64}

/-- The walk stops at the same record, and what is left below it is cut. -/
theorem descendRecs_keepFrom {r : UInt64} (hr : r = 0 ∨ max ≤ r) (keep : Bool)
    (l : List Keyrecord) (next : List Keyrev) :
    descendRecs r keep (keepFrom Keyrecord.rev max l) next =
      (descendRecs r keep l next).map (fun f =>
        (f.1, f.2.1, if max ≤ f.1.upper then keepFrom Keyrecord.rev max f.2.2 else [])) := by
  induction l generalizing next with
  | nil => rfl
  | cons kr rest ih =>
      rw [keepFrom]
      by_cases hgo : 0 < r ∧ r < kr.rev.upper
      · have hle : max ≤ kr.rev.upper := by
          have hpos := hgo.1
          have hlt := hgo.2
          rcases hr with rfl | hr
          · exact absurd hpos (by decide)
          · rw [UInt64.le_iff_toNat_le] at hr ⊢
            rw [UInt64.lt_iff_toNat_lt] at hlt
            omega
        rw [if_pos hle, descendRecs, descendRecs, if_pos hgo, if_pos hgo]
        exact ih _
      · by_cases hle : max ≤ kr.rev.upper
        · rw [if_pos hle, descendRecs, descendRecs, if_neg hgo, if_neg hgo]
          simp [hle]
        · rw [if_neg hle, descendRecs, if_neg hgo, descendRecs, if_neg hgo]
          simp [hle]

/-- What a walk returns are records it met, and live ones before the last. -/
theorem mem_of_descendRecs {r : UInt64} {keep : Bool} {l rest : List Keyrecord}
    {next next' : List Keyrev} {rev : Keyrev}
    (h : descendRecs r keep l next = some (rev, next', rest)) :
    (∃ kr ∈ l, kr.rev = rev) ∧ (∀ kr ∈ rest, kr ∈ l) ∧
      ∀ x ∈ next', x ∈ next ∨ x.isdel = false ∧ ∃ kr ∈ l, kr.rev = x := by
  induction l generalizing next with
  | nil => cases h
  | cons kr l ih =>
      rw [descendRecs] at h
      split at h
      · obtain ⟨⟨kr', hkr', hrev⟩, hrest, hnext⟩ := ih h
        refine ⟨⟨kr', List.mem_cons_of_mem _ hkr', hrev⟩,
          fun kr' hkr' => List.mem_cons_of_mem _ (hrest kr' hkr'), fun x hx => ?_⟩
        rcases hnext x hx with hx | ⟨hlive, kr'', hkr'', hx⟩
        · split at hx
          · cases hx
          · rename_i hdel
            split at hx
            · rcases List.mem_append.mp hx with hx | hx
              · exact .inl hx
              · refine .inr ⟨?_, kr, List.mem_cons_self, (List.mem_singleton.mp hx).symm⟩
                rw [List.mem_singleton.mp hx]
                exact Bool.eq_false_iff.mpr hdel
            · exact .inl hx
        · exact .inr ⟨hlive, kr'', List.mem_cons_of_mem _ hkr'', hx⟩
      · simp only [Option.some.injEq, Prod.mk.injEq] at h
        obtain ⟨rfl, rfl, rfl⟩ := h
        exact ⟨⟨kr, List.mem_cons_self, rfl⟩, fun kr' hkr' => List.mem_cons_of_mem _ hkr',
          fun x hx => .inl hx⟩

/-- A walk does not pass a record that is old enough. -/
theorem le_of_descendRecs {r : UInt64} {keep : Bool} {l rest : List Keyrecord}
    {next next' : List Keyrev} {rev : Keyrev} {kr : Keyrecord}
    (hdesc : l.Pairwise (fun a b => b.rev.word.toNat ≤ a.rev.word.toNat))
    (h : descendRecs r keep l next = some (rev, next', rest)) (hkr : kr ∈ l)
    (hold : ¬ (0 < r ∧ r < kr.rev.upper)) : kr.rev.word.toNat ≤ rev.word.toNat := by
  induction l generalizing next with
  | nil => cases h
  | cons x l ih =>
      obtain ⟨hx, hdesc⟩ := List.pairwise_cons.mp hdesc
      rw [descendRecs] at h
      split at h
      · rename_i hgo
        rcases List.mem_cons.mp hkr with rfl | hkr
        · exact absurd hgo hold
        · exact ih hdesc h hkr
      · simp only [Option.some.injEq, Prod.mk.injEq] at h
        rw [← h.1]
        rcases List.mem_cons.mp hkr with rfl | hkr
        · exact le_rfl
        · exact hx kr hkr

namespace Compacted

theorem keepFrom_records (hc : Compacted ch ch' db max d) (h : db.Rep E S ch)
    (hlog : LogOk db.log lo hi) (k : Bytes) :
    keepFrom Keyrecord.rev max (d.records k) = keepFrom Keyrecord.rev max (db.records k) := by
  rw [(hc.rep h hlog).records_eq (hc.logOk hlog), h.records_eq hlog, keepFrom_map, keepFrom_map]
  exact congrArg (List.map _) (hc.keep k)

/-- Records that are kept have their values, and tombstones have none. -/
theorem get_of_record (hc : Compacted ch ch' db max d) (h : db.Rep E S ch)
    (hlog : LogOk db.log lo hi) {k : Bytes} {kr : Keyrecord} (hkr : kr ∈ d.records k) :
    d.val.get kr.rev.key = db.val.get kr.rev.key := by
  rw [(hc.rep h hlog).records_eq (hc.logOk hlog)] at hkr
  obtain ⟨x, hx, rfl⟩ := List.mem_map.mp hkr
  cases hdel : x.rev.isdel with
  | false => exact hc.get_eq h hlog hx hdel
  | true =>
      rw [show (x.record k).rev = x.rev from rfl, h.get_of_isdel hlog hdel,
        (hc.rep h hlog).get_of_isdel (hc.logOk hlog) hdel]

/-- Both walks of one key, side by side. -/
theorem descend (hc : Compacted ch ch' db max d) (h : db.Rep E S ch) (hlog : LogOk db.log lo hi)
    {r : UInt64} (hr : r = 0 ∨ max ≤ r) (k : Bytes) (keep : Bool) :
    DbKv.descend k r keep (db.rev.dups k) [] = .ok none ∧
        DbKv.descend k r keep (d.rev.dups k) [] = .ok none ∨
      ∃ f rest', DbKv.descend k r keep (db.rev.dups k) [] = .ok (some f) ∧
        DbKv.descend k r keep (d.rev.dups k) [] = .ok (some { f with rest := rest' }) ∧
        (∀ x ∈ f.next ++ [f.rev], d.val.get x.key = db.val.get x.key) ∧
        (max ≤ f.rev.upper → f.rest = [] ∧ rest' = [] ∨
          ∃ kr ∈ d.records k, f.rest.head? = some kr.bytes ∧ rest'.head? = some kr.bytes) := by
  have hok := h.recsOk
  have hok' := (hc.rep h hlog).recsOk
  have hboth := congrArg (fun l => descendRecs r keep l []) (hc.keepFrom_records h hlog k)
  simp only [descendRecs_keepFrom hr] at hboth
  rw [descend_eq hok, descend_eq hok']
  cases hd : descendRecs r keep (db.records k) [] with
  | none =>
      rw [hd, Option.map_none, Option.map_eq_none_iff] at hboth
      rw [hboth]
      exact .inl ⟨rfl, rfl⟩
  | some f =>
      obtain ⟨rev, next, rest⟩ := f
      rw [hd, Option.map_some, Option.map_eq_some_iff] at hboth
      obtain ⟨⟨rev', next', rest'⟩, hd', heq⟩ := hboth
      simp only [Prod.mk.injEq] at heq
      obtain ⟨rfl, rfl, hcut⟩ := heq
      rw [hd']
      obtain ⟨⟨kr, hkr, hrev⟩, hrest, hnext⟩ := mem_of_descendRecs hd'
      refine .inr ⟨⟨rev', next', rest.map Keyrecord.bytes⟩, _, rfl, rfl, fun x hx => ?_,
        fun hle => ?_⟩
      · rcases List.mem_append.mp hx with hx | hx
        · rcases hnext x hx with hx | ⟨-, kr', hkr', rfl⟩
          · cases hx
          · exact hc.get_of_record h hlog hkr'
        · rw [List.mem_singleton.mp hx, ← hrev]
          exact hc.get_of_record h hlog hkr
      · rw [if_pos hle, if_pos hle] at hcut
        have hhead := congrArg List.head? hcut
        rw [keepFrom_head?, keepFrom_head?] at hhead
        cases rest' with
        | nil =>
            cases rest with
            | nil => exact .inl ⟨rfl, rfl⟩
            | cons kr rest => cases hhead
        | cons kr rest' =>
            obtain ⟨tail, rfl⟩ := List.head?_eq_some_iff.mp hhead.symm
            exact .inr ⟨kr, hrest kr List.mem_cons_self, rfl, rfl⟩

/-- One key of a range reads the same. -/
theorem rangeKey (hc : Compacted ch ch' db max d) (h : db.Rep E S ch) (hlog : LogOk db.log lo hi)
    {a : RangeArgs} (hr : a.revision = 0 ∨ max ≤ a.revision) (k : Bytes) (acc : RangeAcc) :
    DbKv.rangeKey E d a k (d.rev.dups k) acc = DbKv.rangeKey E db a k (db.rev.dups k) acc := by
  have hread := fun keep => hc.descend h hlog hr k keep
  have hdups := hc.dups k
  have hdups₀ := h.dups k
  rcases hc.head k with ⟨hnil, hnil₀⟩ | ⟨x, xs, xs', hcons, hcons₀⟩
  · rw [hdups, hdups₀, hnil, hnil₀]
    rfl
  · rw [hcons, List.map_cons] at hdups
    rw [hcons₀, List.map_cons] at hdups₀
    rw [hdups, hdups₀] at hread ⊢
    rw [DbKv.rangeKey, DbKv.rangeKey]
    cases Keyrecord.fromBytes {} k (x.record k).bytes with
    | error e => rfl
    | ok krec =>
        simp only
        split
        · rfl
        · generalize (if (!acc.countOnly && decide (0 < a.limit) &&
            decide ((acc.items.length : Int) = a.limit.toInt64.toInt)) = true then
            { acc with more := true, countOnly := true } else acc) = acc'
          rcases hread (!acc'.countOnly) with ⟨hdb, hd⟩ | ⟨f, rest', hdb, hd, hval, -⟩
          · rw [hdb, hd]
          · rw [hdb, hd]
            simp only
            rw [readRevs_congr hval]

theorem dups_eq_nil_iff (hc : Compacted ch ch' db max d) (h : db.Rep E S ch) (k : Bytes) :
    d.rev.dups k = [] ↔ db.rev.dups k = [] := by
  rw [hc.dups, h.dups, List.map_eq_nil_iff, List.map_eq_nil_iff]
  rcases hc.head k with ⟨hnil, hnil₀⟩ | ⟨x, xs, xs', hcons, hcons₀⟩
  · simp [hnil, hnil₀]
  · simp [hcons, hcons₀]

theorem rangeLoop (hc : Compacted ch ch' db max d) (h : db.Rep E S ch) (hlog : LogOk db.log lo hi)
    {a : RangeArgs} (hr : a.revision = 0 ∨ max ≤ a.revision) (key rangeEnd : Bytes)
    (ks : List Bytes) (acc : RangeAcc) :
    DbKv.rangeLoop E d a key rangeEnd (ks.map (fun k => (k, d.rev.dups k))) acc =
      DbKv.rangeLoop E db a key rangeEnd (ks.map (fun k => (k, db.rev.dups k))) acc := by
  induction ks generalizing acc with
  | nil => rfl
  | cons k ks ih =>
      rw [List.map_cons, List.map_cons, DbKv.rangeLoop, DbKv.rangeLoop, hc.rangeKey h hlog hr]
      split
      · rfl
      · split
        · rfl
        · split
          · rfl
          · exact ih _

/-- A cursor set to a key finds the same keys in both tables, or fails in the same
way. -/
theorem setRange (hc : Compacted ch ch' db max d) (h : db.Rep E S ch) (key : Bytes) :
    (∃ e, Lmdb.setRange db.rev key = .error e ∧ Lmdb.setRange d.rev key = .error e) ∨
      ∃ k ks, Lmdb.setRange db.rev key = .ok ((k :: ks).map (fun k => (k, db.rev.dups k))) ∧
        Lmdb.setRange d.rev key = .ok ((k :: ks).map (fun k => (k, d.rev.dups k))) := by
  by_cases hkey : ValidKey key
  · rw [setRange_eq hkey, setRange_eq hkey, DupTable.seek_eq_map, DupTable.seek_eq_map,
      DupTable.keysFrom_congr (hc.dups_eq_nil_iff h)]
    cases db.rev.keysFrom key with
    | nil => exact .inl ⟨.notFound, rfl, rfl⟩
    | cons k ks => exact .inr ⟨k, ks, rfl, rfl⟩
  · rw [not_ne_iff.mp hkey]
    exact .inl ⟨.badValSize, setRange_nil _, setRange_nil _⟩

theorem getRange (hc : Compacted ch ch' db max d) (h : db.Rep E S ch) (hlog : LogOk db.log lo hi)
    {a : RangeArgs} (hr : a.revision = 0 ∨ max ≤ a.revision) (key rangeEnd : Bytes) :
    d.getRange E key rangeEnd a = db.getRange E key rangeEnd a := by
  rw [DbKv.getRange, DbKv.getRange]
  rcases hc.setRange h key with ⟨e, hdb, hd⟩ | ⟨k, ks, hdb, hd⟩
  · rw [hdb, hd]
    cases e <;> rfl
  · rw [hdb, hd]
    simp only
    rw [hc.rangeLoop h hlog hr]

/-- The version below the one a read stops at. -/
theorem prev (hc : Compacted ch ch' db max d) (h : db.Rep E S ch) (hlog : LogOk db.log lo hi)
    {k : Bytes} {rest rest' : List Bytes} (next : Option Bytes)
    (hrest : rest = [] ∧ rest' = [] ∨
      ∃ kr ∈ d.records k, rest.head? = some kr.bytes ∧ rest'.head? = some kr.bytes) :
    d.prev E k rest' next = db.prev E k rest next := by
  rcases hrest with ⟨rfl, rfl⟩ | ⟨kr, hkr, hhead, hhead'⟩
  · rfl
  · obtain ⟨tail, rfl⟩ := List.head?_eq_some_iff.mp hhead
    obtain ⟨tail', rfl⟩ := List.head?_eq_some_iff.mp hhead'
    have hkey := (hc.rep h hlog).recsOk.key_of_mem hkr
    obtain ⟨prec, hdecode, hrev⟩ : ∃ prec : Keyrecord,
        Keyrecord.fromBytes {} k kr.bytes = .ok prec ∧ prec.rev = kr.rev :=
      ⟨kr.normal, by rw [← hkey]; exact kr.fromBytes_zero, rfl⟩
    have hfetch : d.val.fetch prec.rev.key = db.val.fetch prec.rev.key := by
      rw [Table.fetch, Table.fetch, hrev, hc.get_of_record h hlog hkr]
    rw [DbKv.prev, DbKv.prev, hdecode]
    simp only [hfetch]

/-- A read at the revision of a record, or below all of them, stops at that revision or
above. -/
theorem le_upper_of_descend (h : db.Rep E S ch) {r : UInt64} {key : Bytes} {f : Found}
    (hf : DbKv.descend key r true (db.rev.dups key) [] = .ok (some f))
    (hat : (∃ kr ∈ db.records key, kr.rev.upper = r) ∨ ∀ kr ∈ db.records key, r < kr.rev.upper) :
    r ≤ f.rev.upper := by
  rw [descend_eq h.recsOk] at hf
  cases hd : descendRecs r true (db.records key) [] with
  | none =>
      rw [hd] at hf
      cases hf
  | some g =>
      obtain ⟨rev, next, rest⟩ := g
      rw [hd] at hf
      obtain rfl := Option.some.inj (Except.ok.inj hf)
      rcases hat with ⟨kr, hkr, rfl⟩ | hall
      · have hword := le_of_descendRecs (h.recsOk.records_desc key) hd hkr
          (fun hgo => lt_irrefl _ (UInt64.lt_iff_toNat_lt.mp hgo.2))
        rw [UInt64.le_iff_toNat_le, Keyrev.upper_toNat, Keyrev.upper_toNat]
        exact Nat.div_le_div_right hword
      · obtain ⟨kr, hkr, rfl⟩ := (mem_of_descendRecs hd).1
        exact UInt64.le_of_lt (hall kr hkr)

/-- The previous version is asked for only at the revision of an event. -/
theorem getRev (hc : Compacted ch ch' db max d) (h : db.Rep E S ch) (hlog : LogOk db.log lo hi)
    {r : UInt64} (hr : r = 0 ∨ max ≤ r) (key : Bytes) (withPrev : Bool)
    (hprev : withPrev = true → max ≤ r ∧
      ((∃ kr ∈ db.records key, kr.rev.upper = r) ∨ ∀ kr ∈ db.records key, r < kr.rev.upper)) :
    d.getRev E key r withPrev = db.getRev E key r withPrev := by
  rw [DbKv.getRev, DbKv.getRev]
  rcases hc.setRange h key with ⟨e, hdb, hd⟩ | ⟨k, ks, hdb, hd⟩
  · rw [hdb, hd]
  · rw [hdb, hd]
    simp only [List.map_cons]
    split
    · rfl
    · rename_i hk
      obtain rfl : k = key := Classical.not_not.mp hk
      rcases hc.descend h hlog hr k true with ⟨hdb, hd⟩ | ⟨f, rest', hdb, hd, hval, hrest⟩
      · rw [hdb, hd]
      · rw [hdb, hd]
        have hbelow : ∀ next, withPrev = true →
            d.prev E k rest' next = db.prev E k f.rest next := by
          intro next hw
          obtain ⟨hle, hat⟩ := hprev hw
          exact hc.prev h hlog next (hrest (UInt64.le_trans hle (le_upper_of_descend h hdb hat)))
        simp only
        rw [readRevs_congr hval]
        cases withPrev with
        | false => rfl
        | true => simp only [hbelow _ rfl]

end Compacted

end DbKv

end Turbokube
