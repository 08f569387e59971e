import Turbokube.Model.DbKv
import Turbokube.Record.Codec

/-!
# The revision table as lists of records

`records db k` are the decoded versions of a key, newest first.  While every entry
of the revision table is the encoding of a record of its key (`RecsOk`), the walks
of the program over the encoded table are walks over these lists, and the lemmas of
this file say so for each of them.  The program keeps `RecsOk` whatever it is asked
to do.
-/

namespace Turbokube

open Encoding Lmdb

namespace DbKv

/-- Every entry of the revision table encodes a record of its key. -/
def RecsOk (db : DbKv) : Prop :=
  ∀ k b, b ∈ db.rev.dups k → ∃ kr : Keyrecord, kr.key = k ∧ b = kr.bytes

def decodeRec (k b : Bytes) : Keyrecord :=
  match Keyrecord.fromBytes {} k b with
  | .ok kr => kr
  | .error _ => {}

def records (db : DbKv) (k : Bytes) : List Keyrecord := (db.rev.dups k).map (decodeRec k)

/-- The newest version of the key is not a tombstone. -/
def Live (db : DbKv) (k : Bytes) : Prop :=
  ∃ kr, (db.records k).head? = some kr ∧ kr.rev.isdel = false

instance (db : DbKv) (k : Bytes) : Decidable (db.Live k) :=
  match h : (db.records k).head? with
  | none => .isFalse (by simp [Live, h])
  | some kr =>
      if hd : kr.rev.isdel = false then .isTrue ⟨kr, h, hd⟩
      else .isFalse (by simp [Live, h, hd])

end DbKv

namespace Keyrecord

/-- A record as it decodes: a tombstone has no lease. -/
def normal (kr : Keyrecord) : Keyrecord := ⟨kr.key, kr.rev, if kr.rev.isdel then 0 else kr.lease⟩

@[simp] theorem normal_key (kr : Keyrecord) : kr.normal.key = kr.key := rfl

@[simp] theorem normal_rev (kr : Keyrecord) : kr.normal.rev = kr.rev := rfl

theorem normal_of_live {kr : Keyrecord} (h : kr.rev.isdel = false) : kr.normal = kr := by
  simp [normal, h]

theorem normal_bytes (kr : Keyrecord) : kr.normal.bytes = kr.bytes := by
  cases h : kr.rev.isdel
  · rw [normal_of_live h]
  · rw [bytes_of_isdel h, @bytes_of_isdel kr.normal h]
    rfl

theorem fromBytes_zero (kr : Keyrecord) :
    Keyrecord.fromBytes {} kr.key kr.bytes = .ok kr.normal :=
  fromBytes_bytes {} kr

theorem fromBytes_live (recv : Keyrecord) {kr : Keyrecord} (h : kr.rev.isdel = false) :
    recv.fromBytes kr.key kr.bytes = .ok kr := by
  rw [fromBytes_bytes]
  simp [h]

end Keyrecord

namespace DbKv

variable {db : DbKv}

theorem decodeRec_bytes (kr : Keyrecord) : decodeRec kr.key kr.bytes = kr.normal := by
  rw [decodeRec, kr.fromBytes_zero]

@[simp] theorem records_eq_nil_iff {k : Bytes} : db.records k = [] ↔ db.rev.dups k = [] := by
  simp [records]

namespace RecsOk

theorem decode (h : db.RecsOk) {k b : Bytes} (hb : b ∈ db.rev.dups k) :
    (decodeRec k b).key = k ∧ (decodeRec k b).bytes = b ∧
      Keyrecord.fromBytes {} k b = .ok (decodeRec k b) := by
  obtain ⟨kr, rfl, rfl⟩ := h k b hb
  rw [decodeRec_bytes]
  exact ⟨rfl, kr.normal_bytes, kr.fromBytes_zero⟩

theorem key_of_mem (h : db.RecsOk) {k : Bytes} {kr : Keyrecord} (hkr : kr ∈ db.records k) :
    kr.key = k := by
  obtain ⟨b, hb, rfl⟩ := List.mem_map.mp hkr
  exact (h.decode hb).1

/-- The table holds the encodings of the records. -/
theorem dups_eq (h : db.RecsOk) (k : Bytes) :
    db.rev.dups k = (db.records k).map Keyrecord.bytes := by
  rw [records, List.map_map]
  conv => lhs; rw [← List.map_id (db.rev.dups k)]
  exact List.map_congr_left (fun b hb => ((h.decode hb).2.1).symm)

/-- Newer records come first. -/
theorem records_desc (h : db.RecsOk) (k : Bytes) :
    (db.records k).Pairwise (fun a b => b.rev.word.toNat ≤ a.rev.word.toNat) := by
  have hsorted := db.rev.dups_sorted k
  rw [h.dups_eq k, List.pairwise_map] at hsorted
  refine hsorted.imp (fun {a b} hab => ?_)
  by_contra hlt
  exact lt_asymm hab (Keyrecord.bytes_lt_bytes (Nat.lt_of_not_le hlt))

theorem empty : DbKv.empty.RecsOk := by
  intro k b hb
  exact absurd hb (by simp [DbKv.empty])

theorem put (h : db.RecsOk) {db' : DbKv} (kr : Keyrecord)
    (hrev : db'.rev = db.rev.put kr.key kr.bytes) : db'.RecsOk := by
  intro k b hb
  rw [hrev, DupTable.mem_dups_put] at hb
  rcases hb with ⟨rfl, rfl⟩ | hb
  · exact ⟨kr, rfl, rfl⟩
  · exact h k b hb

end RecsOk

/-- What a put of a record does to the versions of the keys: a record newer than
all others goes in front. -/
theorem records_put {db' : DbKv} {kr : Keyrecord} (h : db.RecsOk)
    (hrev : db'.rev = db.rev.put kr.key kr.bytes)
    (hnew : ∀ v ∈ db.records kr.key, v.rev.word.toNat < kr.rev.word.toNat) (k : Bytes) :
    db'.records k = if k = kr.key then kr.normal :: db.records k else db.records k := by
  rw [records, hrev, DupTable.dups_put]
  split
  · rename_i hk
    have hlt : ∀ b ∈ db.rev.dups kr.key, kr.bytes < b := by
      intro b hb
      rw [h.dups_eq] at hb
      obtain ⟨v, hv, rfl⟩ := List.mem_map.mp hb
      exact Keyrecord.bytes_lt_bytes (hnew v hv)
    rw [insertDup_of_forall_lt hlt, List.map_cons, hk, decodeRec_bytes, records]
  · rfl

theorem setRange_records {k : Bytes} (hk : k ≠ []) (hne : db.records k ≠ []) :
    ∃ rest, setRange db.rev k = .ok ((k, db.rev.dups k) :: rest) ∧ ∀ e ∈ rest, k < e.1 :=
  setRange_of_dups_ne_nil hk (fun h => hne (records_eq_nil_iff.mpr h))

theorem newest_eq (h : db.RecsOk) {k : Bytes} (hk : k ≠ []) :
    db.newest k = .ok ((db.records k).headD {}) := by
  rw [newest]
  by_cases hne : db.rev.dups k = []
  · rw [records_eq_nil_iff.mpr hne]
    rcases setRange_of_dups_eq_nil hk hne with hs | ⟨e, rest, hs, hlt⟩
    · rw [hs]
      rfl
    · obtain ⟨k', dups⟩ := e
      rw [hs]
      cases dups with
      | nil => rfl
      | cons b bs => simp [ne_of_gt hlt]
  · obtain ⟨rest, hs, -⟩ := setRange_of_dups_ne_nil hk hne
    rw [hs]
    cases hd : db.rev.dups k with
    | nil => exact absurd hd hne
    | cons b bs =>
        have hb : b ∈ db.rev.dups k := by simp [hd]
        simp [records, hd, (h.decode hb).2.2]

/-- The walk of `descend` on decoded records. -/
def descendRecs (revision : UInt64) (keep : Bool) :
    List Keyrecord → List Keyrev → Option (Keyrev × List Keyrev × List Keyrecord)
  | [], _ => none
  | kr :: rest, next =>
      if 0 < revision ∧ revision < kr.rev.upper then
        descendRecs revision keep rest
          (if kr.rev.isdel then [] else if keep then next ++ [kr.rev] else next)
      else some (kr.rev, next, rest)

theorem descend_bytes (k : Bytes) (revision : UInt64) (keep : Bool) (l : List Keyrecord)
    (hl : ∀ kr ∈ l, kr.key = k) (next : List Keyrev) :
    descend k revision keep (l.map Keyrecord.bytes) next =
      .ok ((descendRecs revision keep l next).map
        (fun f => ⟨f.1, f.2.1, f.2.2.map Keyrecord.bytes⟩)) := by
  induction l generalizing next with
  | nil => rfl
  | cons kr rest ih =>
      have hkey : kr.key = k := hl kr List.mem_cons_self
      simp only [List.map_cons, descend, descendRecs, ← hkey, kr.fromBytes_zero]
      by_cases hc : 0 < revision ∧ revision < kr.rev.upper
      · rw [if_pos (show 0 < revision ∧ revision < kr.normal.rev.upper from hc), if_pos hc, hkey]
        exact ih (fun v hv => hl v (List.mem_cons_of_mem _ hv)) _
      · rw [if_neg (show ¬ (0 < revision ∧ revision < kr.normal.rev.upper) from hc), if_neg hc]
        rfl

theorem descend_eq (h : db.RecsOk) (k : Bytes) (revision : UInt64) (keep : Bool) :
    descend k revision keep (db.rev.dups k) [] =
      .ok ((descendRecs revision keep (db.records k) []).map
        (fun f => ⟨f.1, f.2.1, f.2.2.map Keyrecord.bytes⟩)) := by
  rw [h.dups_eq]
  exact descend_bytes k revision keep _ (fun kr hkr => h.key_of_mem hkr) []

/-- Decoding depends on the values it reads. -/
theorem readRevs_congr {E : Env} {d : DbKv} {keysOnly : Bool} {l : List Keyrev} {item : Kv}
    {next : Option Bytes}
    (h : ∀ r ∈ l, d.val.get r.key = db.val.get r.key) :
    readRevs E d keysOnly l item next = readRevs E db keysOnly l item next := by
  induction l generalizing item next with
  | nil => rfl
  | cons r l ih =>
      have hfetch : d.val.fetch r.key = db.val.fetch r.key := by
        rw [Table.fetch, Table.fetch, h r List.mem_cons_self]
      rw [readRevs, readRevs, hfetch]
      cases db.val.fetch r.key with
      | error e => rfl
      | ok v =>
          simp only
          split
          · rfl
          · exact ih (fun r hr => h r (List.mem_cons_of_mem _ hr))

end DbKv

end Turbokube
