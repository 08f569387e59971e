import Turbokube.Store.Events
import Turbokube.Store.Deletes

/-!
# What reads return

A read of a key at a revision walks down its versions to the newest one that is old
enough and then decodes back up to it: the value of a version may be a patch against
the next newer one, so every live version since the last tombstone above is decoded
first.  `decodedAbove` lists these.

A record that is too short for the decoder stops such a read.  `Readable` says that
there is none on the way, and then a read returns the version it stopped at.
-/

namespace Turbokube

open Encoding Lmdb

/-- A read at revision `r` passes this version.  Revision 0 asks for the newest. -/
def Version.tooNew (r : UInt64) (v : Version) : Bool := decide (0 < r ∧ r < v.rev.upper)

def Version.Short (v : Version) : Prop := ∃ e ∈ v.item, e.Short

instance (v : Version) : Decidable v.Short := by
  unfold Version.Short
  infer_instance

theorem short_iff {v : Version} {e : Kv} (he : v.item = some e) : v.Short ↔ e.Short := by
  simp [Version.Short, he]

/-- The versions from the one a read at `r` stops at. -/
def versionsAt (r : UInt64) (vs : List Version) : List Version := vs.dropWhile (Version.tooNew r)

def liveStep (acc : List Version) (v : Version) : List Version :=
  if v.item.isSome then acc ++ [v] else []

/-- The versions above it whose values lead to its own. -/
def decodedAbove (r : UInt64) (vs : List Version) : List Version :=
  (vs.takeWhile (Version.tooNew r)).foldl liveStep []

/-- The read meets no record that is too short to decode. -/
def Readable (r : UInt64) (vs : List Version) : Prop :=
  ∀ v ∈ (versionsAt r vs).head?, v.item.isSome = true →
    ∀ x ∈ decodedAbove r vs ++ [v], ¬ x.Short

instance (r : UInt64) (vs : List Version) : Decidable (Readable r vs) := by
  unfold Readable
  infer_instance

/-- A read that asks for keys only leaves the value out. -/
def Kv.shown (keysOnly : Bool) (e : Kv) : Kv := { e with val := if keysOnly then [] else e.val }

@[simp] theorem Kv.shown_false (e : Kv) : e.shown false = e := rfl

/-- The keys a range of the store covers.  Without an end it is one key, and a range
from `0` to `0` is open. -/
def InRange (key rangeEnd k : Bytes) : Prop :=
  if rangeEnd = [] then k = key
  else key ≤ k ∧ (k < rangeEnd ∨ DbKv.isFullScan key rangeEnd = true)

instance (key rangeEnd k : Bytes) : Decidable (InRange key rangeEnd k) := by
  unfold InRange
  infer_instance

/-- What holds of everything a run has stored. -/
theorem LogOk.sound {log : List Write} {lo hi : Nat} (h : LogOk log lo hi) {k : Bytes}
    {v : Version} {e : Kv} (hv : v ∈ versions log k) (he : v.item = some e) :
    e.rev = v.rev ∧ e.rev.isdel = false ∧ e.key = k ∧ k ≠ [] ∧ k.length ≤ limitKeyLength := by
  obtain ⟨hrev, hkey⟩ := item_of_mem_versions hv he
  have hlive := (h.item_isSome hv).mp (by rw [he]; rfl)
  obtain ⟨hne, hlen⟩ := h.key_of_mem hv
  exact ⟨hrev, by rw [hrev]; exact hlive, hkey, hne, hlen⟩

namespace DbKv

variable {E : Env} {S : Prop} {db : DbKv} {ch : Bytes → List Version} {lo hi : Nat}

section Walk

/-- The walk over the records stops at the version the read is about. -/
theorem descendRecs_versions (r : UInt64) (keep : Bool) (k : Bytes) (vs acc : List Version)
    (hitem : ∀ v ∈ vs, v.item.isSome = true ↔ v.rev.isdel = false) :
    descendRecs r keep (vs.map (Version.record k)) (if keep then acc.map Version.rev else []) =
      (versionsAt r vs).head?.map (fun v => (v.rev,
        if keep then ((vs.takeWhile (Version.tooNew r)).foldl liveStep acc).map Version.rev else [],
        (versionsAt r vs).tail.map (Version.record k))) := by
  induction vs generalizing acc with
  | nil => rfl
  | cons v vs ih =>
      have ih := fun acc => ih acc (fun x hx => hitem x (List.mem_cons_of_mem _ hx))
      have hv := hitem v List.mem_cons_self
      rw [List.map_cons, descendRecs, versionsAt]
      by_cases hgo : 0 < r ∧ r < v.rev.upper
      · have htoo : v.tooNew r = true := decide_eq_true hgo
        rw [if_pos (show 0 < r ∧ r < (v.record k).rev.upper from hgo),
          List.dropWhile_cons_of_pos htoo, List.takeWhile_cons_of_pos htoo, List.foldl_cons]
        have hacc : (if (v.record k).rev.isdel then []
            else if keep then (if keep then acc.map Version.rev else []) ++ [(v.record k).rev]
            else if keep then acc.map Version.rev else []) =
            if keep then (liveStep acc v).map Version.rev else [] := by
          rw [show (v.record k).rev = v.rev from rfl, liveStep]
          cases hdel : v.rev.isdel with
          | true =>
              have hsome : ¬ v.item.isSome = true := by
                rw [hv, hdel]
                simp
              simp [hsome]
          | false =>
              have hsome := hv.mpr hdel
              cases keep <;> simp [hsome]
        rw [hacc]
        exact ih (liveStep acc v)
      · have htoo : ¬ v.tooNew r = true := by
          simpa [Version.tooNew] using hgo
        rw [if_neg (show ¬ (0 < r ∧ r < (v.record k).rev.upper) from hgo),
          List.dropWhile_cons_of_neg htoo, List.takeWhile_cons_of_neg htoo]
        rfl

theorem Rep.descend (h : db.Rep E S ch) (hlog : LogOk db.log lo hi) (k : Bytes) (r : UInt64)
    (keep : Bool) :
    DbKv.descend k r keep (db.rev.dups k) [] =
      .ok ((versionsAt r (ch k)).head?.map (fun v =>
        ⟨v.rev, if keep then (decodedAbove r (ch k)).map Version.rev else [],
          (versionsAt r (ch k)).tail.map (fun v => (v.record k).bytes)⟩)) := by
  have hwalk := descendRecs_versions r keep k (ch k) []
    (fun v hv => hlog.item_isSome (h.mem_versions hv))
  rw [List.map_nil, ite_self] at hwalk
  rw [descend_eq h.recsOk, h.records_eq hlog, hwalk, Option.map_map]
  cases (versionsAt r (ch k)).head? with
  | none => rfl
  | some v =>
      rw [Option.map_some, Option.map_some, Function.comp_apply, List.map_map]
      rfl

end Walk

section Decode

/-- Decoding the versions `acc` leads to the value `above`, or stops at a record that
is too short. -/
def Decodes (E : Env) (db : DbKv) (keysOnly : Bool) (acc : List Version) (above : Option Bytes) :
    Prop :=
  ∀ rs, (∃ v ∈ acc, v.Short) ∧
      (∃ item, readRevs E db keysOnly (acc.map Version.rev ++ rs) {} none =
        (item, some .checksumMissing)) ∨
    (∀ v ∈ acc, ¬ v.Short) ∧
      ∃ item next, readRevs E db keysOnly (acc.map Version.rev ++ rs) {} none =
          readRevs E db keysOnly rs item next ∧
        (keysOnly = true → item.val = []) ∧ (keysOnly = false → next = above)

theorem Decodes.nil (keysOnly : Bool) : Decodes E db keysOnly [] none := fun _ =>
  .inr ⟨by simp, {}, none, rfl, fun _ => rfl, fun _ => rfl⟩

/-- One more record. -/
theorem readRevs_cons {keysOnly : Bool} {v : Version} {vs : List Version} {e item : Kv}
    {above next : Option Bytes} (rs : List Keyrev)
    (hstored : Stored E True db.val above (v :: vs)) (he : v.item = some e) (hrev : e.rev = v.rev)
    (hlive : e.rev.isdel = false) (hkey : e.key ≠ []) (hlen : e.key.length ≤ limitKeyLength)
    (hval : keysOnly = true → item.val = []) (hnext : keysOnly = false → next = above) :
    readRevs E db keysOnly (v.rev :: rs) item next =
      if e.Short then (item, some .checksumMissing)
      else readRevs E db keysOnly rs (e.shown keysOnly)
        (if keysOnly then none else some (e.shown keysOnly).val) := by
  obtain ⟨base, hget, hbase⟩ := hstored.1 e he
  have hfetch : db.val.fetch e.rev.key = .ok (e.bytes E.flags E.codec base) := by
    rw [Table.fetch, hrev, hget]
  rw [readRevs, ← hrev, hfetch]
  by_cases hshort : e.Short
  · rw [if_pos hshort]
    simp only [Kv.fromBytes_short item hlive hshort]
  · have hpatch : keysOnly = false → base = none ∨ next = base := by
      intro hko
      rw [hnext hko]
      exact (hbase trivial).imp_right Eq.symm
    have hdecode : item.fromBytes E.codec e.rev.key (e.bytes E.flags E.codec base) next keysOnly =
        (e.shown keysOnly, none) := by
      rw [Kv.fromBytes_bytes item hlive hkey (lt_of_le_of_lt hlen (by decide)) hshort hpatch]
      cases keysOnly with
      | false => rfl
      | true => rw [hval rfl]; rfl
    rw [if_neg hshort]
    simp only [hdecode]

theorem Decodes.live {keysOnly : Bool} {acc vs : List Version} {above : Option Bytes} {v : Version}
    {e : Kv} (h : Decodes E db keysOnly acc above)
    (hstored : Stored E True db.val above (v :: vs)) (he : v.item = some e) (hrev : e.rev = v.rev)
    (hlive : e.rev.isdel = false) (hkey : e.key ≠ []) (hlen : e.key.length ≤ limitKeyLength) :
    Decodes E db keysOnly (acc ++ [v]) (v.item.map Kv.val) := by
  intro rs
  rw [List.map_append, List.append_assoc, List.map_singleton, List.singleton_append]
  rcases h (v.rev :: rs) with ⟨⟨x, hx, hshort⟩, item, hread⟩ |
    ⟨hshort, item, next, hread, hval, hnext⟩
  · exact .inl ⟨⟨x, List.mem_append_left _ hx, hshort⟩, item, hread⟩
  · rw [hread, readRevs_cons rs hstored he hrev hlive hkey hlen hval hnext]
    by_cases hs : e.Short
    · rw [if_pos hs]
      exact .inl ⟨⟨v, by simp, e, he, hs⟩, item, rfl⟩
    · rw [if_neg hs]
      refine .inr ⟨fun x hx => ?_, _, _, rfl, fun hko => ?_, fun hko => ?_⟩
      · rcases List.mem_append.mp hx with hx | hx
        · exact hshort x hx
        · rw [List.mem_singleton.mp hx, short_iff he]
          exact hs
      · simp [Kv.shown, hko]
      · simp [Kv.shown, hko, he]

/-- What has been decoded when the walk has passed the versions `pre`. -/
theorem Decodes.foldl {keysOnly : Bool} {k : Bytes} {pre vs acc : List Version}
    {above : Option Bytes} (hlog : LogOk db.log lo hi)
    (hmem : ∀ v ∈ pre, v ∈ versions db.log k) (h : Decodes E db keysOnly acc above)
    (hstored : Stored E True db.val above (pre ++ vs)) :
    ∃ above', Decodes E db keysOnly (pre.foldl liveStep acc) above' ∧
      Stored E True db.val above' vs := by
  induction pre generalizing acc above with
  | nil => exact ⟨above, h, hstored⟩
  | cons v pre ih =>
      rw [List.foldl_cons]
      refine ih (fun x hx => hmem x (List.mem_cons_of_mem _ hx)) ?_ hstored.2
      rw [liveStep]
      cases he : v.item with
      | none => exact .nil keysOnly
      | some e =>
          obtain ⟨hrev, hlive, hkey, hne, hlen⟩ := hlog.sound (hmem v List.mem_cons_self) he
          have hstep := h.live hstored he hrev hlive (by rw [hkey]; exact hne)
            (by rw [hkey]; exact hlen)
          rw [he] at hstep
          exact hstep

/-- Either nothing on the way is too short and the read returns the version it
stopped at, or it fails. -/
theorem Rep.read (h : db.Rep E True ch) (hlog : LogOk db.log lo hi) {k : Bytes} {r : UInt64}
    {v : Version} {e : Kv} (hv : (versionsAt r (ch k)).head? = some v) (he : v.item = some e)
    (keysOnly : Bool) :
    Readable r (ch k) ∧
        readRevs E db keysOnly ((decodedAbove r (ch k)).map Version.rev ++ [v.rev]) {} none =
          (e.shown keysOnly, none) ∨
      ¬ Readable r (ch k) ∧ ∃ item,
        readRevs E db keysOnly ((decodedAbove r (ch k)).map Version.rev ++ [v.rev]) {} none =
          (item, some .checksumMissing) := by
  have hsplit : (ch k).takeWhile (Version.tooNew r) ++ versionsAt r (ch k) = ch k :=
    List.takeWhile_append_dropWhile
  have hmem : ∀ x ∈ ch k, x ∈ versions db.log k := fun x hx => h.mem_versions hx
  have hstored := h.stored k
  rw [← hsplit] at hstored hmem
  obtain ⟨above, hdec, hrest⟩ := (Decodes.nil keysOnly).foldl hlog
    (fun x hx => hmem x (List.mem_append_left _ hx)) hstored
  obtain ⟨tail, htail⟩ := List.head?_eq_some_iff.mp hv
  rw [htail] at hrest hmem
  obtain ⟨hrev, hlive, hkey, hne, hlen⟩ := hlog.sound (hmem v (by simp)) he
  have hlast : ∀ x ∈ decodedAbove r (ch k) ++ [v], x.Short → ¬ Readable r (ch k) :=
    fun x hx hs hread => hread v hv (by rw [he]; rfl) x hx hs
  rcases hdec [v.rev] with ⟨⟨x, hx, hs⟩, hread⟩ | ⟨hshort, item, next, hread, hval, hnext⟩
  · exact .inr ⟨hlast x (List.mem_append_left _ hx) hs, hread⟩
  · rw [decodedAbove, hread, readRevs_cons [] hrest he hrev hlive (by rw [hkey]; exact hne)
      (by rw [hkey]; exact hlen) hval hnext]
    by_cases hs : e.Short
    · rw [if_pos hs]
      exact .inr ⟨hlast v (by simp) ((short_iff he).mpr hs), item, rfl⟩
    · rw [if_neg hs]
      refine .inl ⟨fun v' hv' _ x hx => ?_, rfl⟩
      obtain rfl : v = v' := Option.some.inj (hv.symm.trans hv')
      rcases List.mem_append.mp hx with hx | hx
      · exact hshort x hx
      · rw [List.mem_singleton.mp hx, short_iff he]
        exact hs

/-- What is stored from the version a read stops at on. -/
theorem Rep.stored_at (h : db.Rep E True ch) (hlog : LogOk db.log lo hi) (k : Bytes) (r : UInt64) :
    ∃ above, Stored E True db.val above (versionsAt r (ch k)) := by
  have hstored := h.stored k
  rw [← List.takeWhile_append_dropWhile (p := Version.tooNew r) (l := ch k)] at hstored
  have hmem : ∀ v ∈ (ch k).takeWhile (Version.tooNew r), v ∈ versions db.log k := fun v hv =>
    h.mem_versions ((List.takeWhile_sublist _).mem hv)
  obtain ⟨above, -, hrest⟩ := (Decodes.nil true).foldl hlog hmem hstored
  exact ⟨above, hrest⟩

theorem Rep.get_of_isdel (h : db.Rep E S ch) (hlog : LogOk db.log lo hi) {rev : Keyrev}
    (hdel : rev.isdel = true) : db.val.get rev.key = none := by
  cases hget : db.val.get rev.key with
  | none => rfl
  | some v =>
      obtain ⟨k, x, hx, hsome, heq⟩ := h.val _ _ hget
      have hlive := (hlog.item_isSome (h.mem_versions hx)).mp hsome
      rw [← Keyrev.key_inj heq, hdel] at hlive
      cases hlive

/-- The version below the one a read stopped at. -/
theorem Rep.prev (h : db.Rep E True ch) (hlog : LogOk db.log lo hi) {k : Bytes}
    {vs : List Version} (hmem : ∀ v ∈ vs, v ∈ ch k) {above : Option Bytes}
    (hstored : Stored E True db.val above vs) (hshort : ∀ v ∈ vs.head?, ¬ v.Short) :
    ∃ err, DbKv.prev E db k (vs.map (fun v => (v.record k).bytes)) above =
      ((current vs).getD {}, err) ∧ absentOk err = none := by
  cases vs with
  | nil => exact ⟨_, rfl, rfl⟩
  | cons v vs =>
      obtain ⟨prec, hdecode, hprec⟩ : ∃ prec : Keyrecord,
          Keyrecord.fromBytes {} k (v.record k).bytes = .ok prec ∧ prec.rev = v.rev :=
        ⟨(v.record k).normal, (v.record k).fromBytes_zero, rfl⟩
      have hv := h.mem_versions (hmem v List.mem_cons_self)
      rw [List.map_cons, DbKv.prev, hdecode]
      simp only [hprec, current_cons]
      cases he : v.item with
      | none =>
          have hdel : v.rev.isdel = true := by
            have hitem := hlog.item_isSome hv
            rw [he] at hitem
            simpa using hitem
          rw [Table.fetch, h.get_of_isdel hlog hdel]
          exact ⟨_, rfl, rfl⟩
      | some e =>
          obtain ⟨base, hget, hbase⟩ := hstored.1 e he
          obtain ⟨hrev, hlive, hkey, hne, hlen⟩ := hlog.sound hv he
          have hs : ¬ e.Short := by
            rw [← short_iff he]
            exact hshort v rfl
          have hdec : Kv.fromBytes E.codec {} e.rev.key (e.bytes E.flags E.codec base) above false =
              (e, none) :=
            Kv.fromBytes_bytes {} hlive (by rw [hkey]; exact hne)
              (by rw [hkey]; exact lt_of_le_of_lt hlen (by decide)) hs
              (fun _ => (hbase trivial).imp_right Eq.symm)
          rw [Table.fetch, hget]
          simp only
          rw [← hrev, hdec]
          exact ⟨_, rfl, rfl⟩

/-- A read of one key returns the version it stops at and the one below. -/
theorem Rep.getRev (h : db.Rep E True ch) (hlog : LogOk db.log lo hi) {key : Bytes}
    (hkey : ValidKey key) {r : UInt64} (hread : Readable r (ch key)) {withPrev : Bool}
    (hprev : withPrev = true → ∀ v ∈ (versionsAt r (ch key)).tail.head?, ¬ v.Short) :
    DbKv.getRev E db key r withPrev =
      ((current (versionsAt r (ch key))).getD {},
        if withPrev then (current (versionsAt r (ch key)).tail).getD {} else {}, none) := by
  by_cases hnil : ch key = []
  · have hdups : db.rev.dups key = [] := by
      rw [h.dups, hnil]
      rfl
    have hnone : DbKv.getRev E db key r withPrev = ({}, {}, none) := by
      rw [DbKv.getRev]
      rcases setRange_of_dups_eq_nil hkey hdups with hs | ⟨⟨k, dups⟩, rest, hs, hlt⟩
      · rw [hs]
        rfl
      · rw [hs]
        exact if_pos (ne_of_gt hlt)
    rw [hnone, hnil]
    cases withPrev <;> rfl
  · have hdups : db.rev.dups key ≠ [] := by
      rw [h.dups]
      simpa using hnil
    obtain ⟨rest, hs, -⟩ := setRange_of_dups_ne_nil hkey hdups
    have hmem : ∀ v ∈ versionsAt r (ch key), v ∈ ch key := fun v hv =>
      (List.dropWhile_sublist _).mem hv
    obtain ⟨above, hstored⟩ := h.stored_at hlog key r
    rw [DbKv.getRev, hs]
    simp only [ne_eq, not_true_eq_false, if_false]
    rw [h.descend hlog]
    cases hat : versionsAt r (ch key) with
    | nil => cases withPrev <;> rfl
    | cons v vs =>
        rw [hat] at hmem hstored hprev
        have hitem := hlog.item_isSome (h.mem_versions (hmem v List.mem_cons_self))
        have hbelow := fun hw => h.prev hlog (fun x hx => hmem x (List.mem_cons_of_mem _ hx))
          hstored.2 (hprev hw)
        simp only [List.head?_cons, Option.map_some, List.tail_cons, current_cons]
        cases he : v.item with
        | none =>
            have hdel : v.rev.isdel = true := by
              rw [he] at hitem
              simpa using hitem
            rw [if_pos hdel]
            cases withPrev with
            | false => rfl
            | true =>
                obtain ⟨err, hp, herr⟩ := hbelow rfl
                rw [he] at hp
                simp only [if_true]
                rw [show (Option.map Kv.val none) = none from rfl] at hp
                simp only [hp, herr]
                rfl
        | some e =>
            have hlive : v.rev.isdel = false := hitem.mp (by rw [he]; rfl)
            rw [if_neg (by simp [hlive])]
            have hhead : (versionsAt r (ch key)).head? = some v := by
              rw [hat]
              rfl
            rcases h.read hlog hhead he false with ⟨-, hr⟩ | ⟨hnot, -⟩
            · simp only [if_true]
              rw [hr]
              cases withPrev with
              | false => rfl
              | true =>
                  obtain ⟨err, hp, herr⟩ := hbelow rfl
                  rw [he] at hp
                  simp only [if_true, Kv.shown_false]
                  rw [show Option.map Kv.val (some e) = some e.val from rfl] at hp
                  simp only [hp, herr]
                  rfl
            · exact absurd hread hnot

end Decode

section Range

/-- The first record of a key decodes. -/
theorem Rep.dups_cases (h : db.Rep E S ch) (k : Bytes) :
    ch k = [] ∧ db.rev.dups k = [] ∨
      ∃ b rest krec, db.rev.dups k = b :: rest ∧ Keyrecord.fromBytes {} k b = .ok krec := by
  have hdups := h.dups k
  cases hch : ch k with
  | nil =>
      rw [hch] at hdups
      exact .inl ⟨rfl, hdups⟩
  | cons v vs =>
      rw [hch, List.map_cons] at hdups
      exact .inr ⟨_, _, _, hdups, (v.record k).fromBytes_zero⟩

theorem rangeOver_iff {key rangeEnd k : Bytes} (hle : key ≤ k) :
    rangeOver key rangeEnd k = true ↔ ¬ InRange key rangeEnd k := by
  unfold rangeOver InRange
  by_cases hend : rangeEnd = []
  · subst hend
    simp [isFullScan]
  · cases isFullScan key rangeEnd <;> simp [hend, hle]

/-- Above a key that is outside the range, or above the only key, nothing is in it. -/
theorem not_inRange_of_lt {key rangeEnd k k' : Bytes} (hle : key ≤ k) (hlt : k < k')
    (h : rangeEnd = [] ∨ ¬ InRange key rangeEnd k) : ¬ InRange key rangeEnd k' := by
  unfold InRange at h ⊢
  by_cases hend : rangeEnd = []
  · simp [hend, ne_of_gt (lt_of_le_of_lt hle hlt)]
  · have hout := h.resolve_left hend
    rw [if_neg hend] at hout ⊢
    rintro ⟨-, hin | hfull⟩
    · exact hout ⟨hle, .inl (hlt.trans hin)⟩
    · exact hout ⟨hle, .inr hfull⟩

theorem filter_inRange_eq_nil {key rangeEnd k : Bytes} {ks : List Bytes} (hle : key ≤ k)
    (hlt : ∀ k' ∈ ks, k < k') (h : rangeEnd = [] ∨ ¬ InRange key rangeEnd k) :
    ks.filter (fun k' => decide (InRange key rangeEnd k')) = [] := by
  rw [List.filter_eq_nil_iff]
  intro k' hk'
  simpa using not_inRange_of_lt hle (hlt k' hk') h

theorem seek_eq {key : Bytes} (hkey : ValidKey key) :
    Lmdb.setRange db.rev key = .error .notFound ∧ db.rev.keysFrom key = [] ∨
      Lmdb.setRange db.rev key =
        .ok ((db.rev.keysFrom key).map (fun k => (k, db.rev.dups k))) := by
  rw [setRange_eq hkey, DupTable.seek_eq_map]
  cases db.rev.keysFrom key with
  | nil => exact .inl ⟨rfl, rfl⟩
  | cons k ks => exact .inr rfl

end Range

end DbKv

end Turbokube
