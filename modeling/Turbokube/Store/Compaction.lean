import Turbokube.Store.Pruning

/-!
# Compaction

What `compact` leaves of the tables.  The cursor goes over some of the events below the
compacted revision.  These are removed, and every key they name is pruned to the
version of the last of them and the newer ones (`Piece`).  This is said for any list of
events that are gone, since a compaction may also stop before it is done.

Whatever the cursor stepped over, each key keeps its versions down to its newest one
below the compacted revision (`keepFrom`).  A version that is not the oldest of its key
has its event, so a key without an event has nothing left to prune.
-/

namespace Turbokube

open Encoding Lmdb

namespace DbKv

variable {E F : Env} {S U : Prop} {db d : DbKv} {ch ch' : Bytes → List Version} {lo hi : Nat}

/-- The revision of the last event of each key. -/
def threshold (evts : List KvEvent) (k : Bytes) : Nat :=
  evts.foldl (fun n evt => if evt.key = k then evt.rev.word.toNat else n) 0

theorem threshold_append_one (evts : List KvEvent) (evt : KvEvent) :
    threshold (evts ++ [evt]) =
      Function.update (threshold evts) evt.key evt.rev.word.toNat := by
  funext k
  rw [threshold, List.foldl_append, List.foldl_cons, List.foldl_nil]
  by_cases hk : evt.key = k
  · rw [if_pos hk, hk, Function.update_self]
  · rw [if_neg hk, Function.update_of_ne (Ne.symm hk)]
    rfl

theorem threshold_eq (evts : List KvEvent) (k : Bytes) :
    threshold evts k = 0 ∧ (∀ evt ∈ evts, evt.key ≠ k) ∨
      ∃ evt ∈ evts, evt.key = k ∧ threshold evts k = evt.rev.word.toNat := by
  induction evts using List.reverseRecOn with
  | nil => exact .inl ⟨rfl, by simp⟩
  | append_singleton evts evt ih =>
      rw [threshold_append_one]
      by_cases hk : evt.key = k
      · rw [← hk, Function.update_self]
        exact .inr ⟨evt, by simp, rfl, rfl⟩
      · rw [Function.update_of_ne (Ne.symm hk)]
        rcases ih with ⟨hzero, hall⟩ | ⟨evt', hmem, rest⟩
        · refine .inl ⟨hzero, fun evt' hmem => ?_⟩
          rcases List.mem_append.mp hmem with hmem | hmem
          · exact hall evt' hmem
          · rw [List.mem_singleton.mp hmem]
            exact hk
        · exact .inr ⟨evt', List.mem_append_left _ hmem, rest⟩

theorem le_threshold {evts : List KvEvent}
    (hsorted : evts.Pairwise (fun a b => a.rev.word.toNat ≤ b.rev.word.toNat)) {evt : KvEvent}
    (hmem : evt ∈ evts) : evt.rev.word.toNat ≤ threshold evts evt.key := by
  induction evts using List.reverseRecOn with
  | nil => exact absurd hmem List.not_mem_nil
  | append_singleton evts last ih =>
      obtain ⟨hevts, -, hle⟩ := List.pairwise_append.mp hsorted
      rw [threshold_append_one]
      by_cases hk : evt.key = last.key
      · rw [hk, Function.update_self]
        rcases List.mem_append.mp hmem with hmem | hmem
        · exact hle evt hmem last (by simp)
        · rw [List.mem_singleton.mp hmem]
      · rw [Function.update_of_ne hk]
        rcases List.mem_append.mp hmem with hmem | hmem
        · exact ih hevts hmem
        · rw [List.mem_singleton.mp hmem] at hk
          exact absurd rfl hk

/-- The revision returned for the last event removed. -/
def lastUpper (last : UInt64) (l : List (Bytes × Bytes)) : UInt64 :=
  l.foldl (fun _ p => (decodeEvt p).rev.upper) last

def dropEvents (l : List (Bytes × Bytes)) (t : DupTable Bytes Bytes) : DupTable Bytes Bytes :=
  l.foldl (fun t p => t.delDup p.1 p.2) t

theorem mem_dropEvents {l : List (Bytes × Bytes)} {t : DupTable Bytes Bytes} {k v : Bytes} :
    v ∈ (dropEvents l t).dups k ↔ v ∈ t.dups k ∧ (k, v) ∉ l := by
  induction l generalizing t with
  | nil => simp [dropEvents]
  | cons p l ih =>
      rw [show dropEvents (p :: l) t = dropEvents l (t.delDup p.1 p.2) from rfl, ih,
        DupTable.mem_dups_delDup, List.mem_cons, not_or, and_assoc]
      rw [show (k, v) = p ↔ k = p.1 ∧ v = p.2 from Prod.ext_iff]

/-- The next event in order, whose key is now to be pruned to its version. -/
theorem Batched.next {done : List KvEvent} {keys : Table Bytes Keyrev} {T : Bytes → Nat}
    (h : Batched ch db (threshold done) keys T d) {evt : KvEvent} {x : Version}
    (hx : x ∈ versions db.log evt.key)
    (hxrev : x.rev = evt.rev) (hdone : ∀ e ∈ done, e.rev.word.toNat ≤ evt.rev.word.toNat)
    (rest : DupTable Bytes Bytes) :
    Batched ch db (threshold (done ++ [evt])) (keys.put evt.key evt.rev) T
      { d with evt := rest } := by
  rw [threshold_append_one, ← hxrev]
  refine h.event hx ?_ rest
  rw [hxrev]
  rcases threshold_eq done evt.key with ⟨hzero, -⟩ | ⟨e, hmem, -, heq⟩
  · omega
  · rw [heq]
    exact hdone e hmem

section Chains

variable {max : UInt64} {vs : List Version} {n : Nat}

/-- From the newest on down to the newest one below `max`. -/
def keepFrom {α : Type} (rev : α → Keyrev) (max : UInt64) : List α → List α
  | [] => []
  | v :: vs => if max ≤ (rev v).upper then v :: keepFrom rev max vs else [v]

theorem keepFrom_isPrefix {α : Type} (rev : α → Keyrev) (max : UInt64) (l : List α) :
    keepFrom rev max l <+: l := by
  induction l with
  | nil => exact List.nil_prefix
  | cons v vs ih =>
      rw [keepFrom]
      split
      · exact (List.prefix_cons_inj v).mpr ih
      · exact (List.prefix_cons_inj v).mpr List.nil_prefix

theorem keepFrom_head? {α : Type} (rev : α → Keyrev) (max : UInt64) (l : List α) :
    (keepFrom rev max l).head? = l.head? := by
  cases l with
  | nil => rfl
  | cons v vs =>
      rw [keepFrom]
      split <;> rfl

theorem keepFrom_map {α β : Type} (rev : β → Keyrev) (max : UInt64) (f : α → β) (l : List α) :
    keepFrom rev max (l.map f) = (keepFrom (fun a => rev (f a)) max l).map f := by
  induction l with
  | nil => rfl
  | cons v vs ih =>
      rw [List.map_cons, keepFrom, keepFrom]
      split
      · rw [List.map_cons, ih]
      · rfl

theorem filter_isPrefix (hdesc : vs.Pairwise (fun a b => b.rev.word.toNat < a.rev.word.toNat))
    (n : Nat) : vs.filter (fun x => n ≤ x.rev.word.toNat) <+: vs := by
  induction vs with
  | nil => exact List.prefix_rfl
  | cons v vs ih =>
      obtain ⟨hv, hdesc⟩ := List.pairwise_cons.mp hdesc
      by_cases hle : n ≤ v.rev.word.toNat
      · rw [List.filter_cons_of_pos (by simpa using hle)]
        exact (List.prefix_cons_inj v).mpr (ih hdesc)
      · have hnil : (v :: vs).filter (fun x => n ≤ x.rev.word.toNat) = [] := by
          refine List.filter_eq_nil_iff.mpr (fun x hx => ?_)
          rw [decide_eq_true_eq]
          rcases List.mem_cons.mp hx with rfl | hx
          · exact hle
          · have := hv x hx
            omega
        rw [hnil]
        exact List.nil_prefix

/-- A threshold at or below all versions, or at one of them that is below `max`. -/
def ThresholdAt (max : UInt64) (vs : List Version) (n : Nat) : Prop :=
  (∀ x ∈ vs, n ≤ x.rev.word.toNat) ∨ ∃ x ∈ vs, ¬ max ≤ x.rev.upper ∧ n = x.rev.word.toNat

theorem ThresholdAt.head {v : Version} (h : ThresholdAt max (v :: vs) n)
    (hdesc : (v :: vs).Pairwise (fun a b => b.rev.word.toNat < a.rev.word.toNat)) :
    n ≤ v.rev.word.toNat := by
  rcases h with hall | ⟨x, hx, -, rfl⟩
  · exact hall v List.mem_cons_self
  · rcases List.mem_cons.mp hx with rfl | hx
    · exact le_rfl
    · exact (List.rel_of_pairwise_cons hdesc hx).le

theorem ThresholdAt.tail {v : Version} (h : ThresholdAt max (v :: vs) n)
    (hle : max ≤ v.rev.upper) : ThresholdAt max vs n := by
  rcases h with hall | ⟨x, hx, hlt, heq⟩
  · exact .inl (fun x hx => hall x (List.mem_cons_of_mem _ hx))
  · rcases List.mem_cons.mp hx with rfl | hx
    · exact absurd hle hlt
    · exact .inr ⟨x, hx, hlt, heq⟩

/-- Pruning down to a version below `max` takes nothing that compaction at `max` keeps. -/
theorem keepFrom_filter (hdesc : vs.Pairwise (fun a b => b.rev.word.toNat < a.rev.word.toNat))
    (hat : ThresholdAt max vs n) :
    keepFrom Version.rev max (vs.filter (fun x => n ≤ x.rev.word.toNat)) =
      keepFrom Version.rev max vs := by
  induction vs with
  | nil => rfl
  | cons v vs ih =>
      have hkeep := hat.head hdesc
      rw [List.filter_cons_of_pos (by simpa using hkeep), keepFrom, keepFrom]
      split
      · rename_i hle
        exact congrArg _ (ih (List.pairwise_cons.mp hdesc).2 (hat.tail hle))
      · rfl

/-- With a threshold at the newest version below `max`, unless that is the oldest one,
nothing else is left. -/
theorem filter_eq_keepFrom (hdesc : vs.Pairwise (fun a b => b.rev.word.toNat < a.rev.word.toNat))
    (hat : ThresholdAt max vs n)
    (hge : ∀ x ∈ vs.dropLast, ¬ max ≤ x.rev.upper → x.rev.word.toNat ≤ n) :
    vs.filter (fun x => n ≤ x.rev.word.toNat) = keepFrom Version.rev max vs := by
  induction vs with
  | nil => rfl
  | cons v vs ih =>
      have hkeep := hat.head hdesc
      obtain ⟨hv, hdesc⟩ := List.pairwise_cons.mp hdesc
      rw [keepFrom, List.filter_cons_of_pos (by simpa using hkeep)]
      split
      · rename_i hle
        refine congrArg _ (ih hdesc (hat.tail hle) (fun x hx => hge x ?_))
        cases vs with
        | nil => cases hx
        | cons y ys =>
            rw [List.dropLast_cons_cons]
            exact List.mem_cons_of_mem _ hx
      · rename_i hlt
        refine congrArg _ (List.filter_eq_nil_iff.mpr (fun y hy => ?_))
        have hvle : v.rev.word.toNat ≤ n := by
          refine hge v ?_ hlt
          cases vs with
          | nil => cases hy
          | cons z zs =>
              rw [List.dropLast_cons_cons]
              exact List.mem_cons_self
        have := hv y hy
        simp only [decide_eq_true_eq]
        omega

end Chains

theorem Stored.of_isPrefix {val : Table Bytes Bytes} {above : Option Bytes} {vs vs' : List Version}
    (h : Stored E S val above vs') (hpre : vs <+: vs') : Stored E S val above vs := by
  induction vs generalizing above vs' with
  | nil => trivial
  | cons v vs ih =>
      obtain ⟨rest, rfl⟩ := hpre
      exact ⟨h.1, ih h.2 (List.prefix_append _ _)⟩

theorem mem_dropLast_of_isPrefix {l l' : List Version} (h : l <+: l') {x : Version}
    (hx : x ∈ l.dropLast) : x ∈ l'.dropLast := by
  obtain ⟨rest, rfl⟩ := h
  by_cases hrest : rest = []
  · rw [hrest, List.append_nil]
    exact hx
  · rw [List.dropLast_append_of_ne_nil hrest]
    exact List.mem_append_left _ ((List.dropLast_sublist l).mem hx)

/-- Every key keeps the versions `ch'` of its versions `ch`, and these keep their values and
their events. -/
structure Shortened (ch ch' : Bytes → List Version) (db d : DbKv) : Prop where
  log : d.log = db.log
  chain : ∀ k, ch' k <+: ch k
  newest : ∀ k, ch' k = [] → ch k = []
  dups : ∀ k, d.rev.dups k = (ch' k).map (fun v => (v.record k).bytes)
  val : ∀ rk v, d.val.get rk = some v ↔
    db.val.get rk = some v ∧ ∃ k, ∃ x ∈ ch' k, x.rev.isdel = false ∧ rk = x.rev.key
  evt : ∀ p ∈ d.evt.pairs, p ∈ db.evt.pairs
  event : ∀ k, ∀ x ∈ (ch' k).dropLast, ∀ epoch,
    evtBytes x.rev epoch k ∈ db.evt.dups x.rev.key → evtBytes x.rev epoch k ∈ d.evt.dups x.rev.key

theorem Shortened.get_eq (hs : Shortened ch ch' db d)
    (h : db.Rep E S ch) (hlog : LogOk db.log lo hi) {k : Bytes} {x : Version} (hx : x ∈ ch' k)
    (hlive : x.rev.isdel = false) : d.val.get x.rev.key = db.val.get x.rev.key := by
  have hxch := (hs.chain k).mem hx
  obtain ⟨e, he⟩ := Option.isSome_iff_exists.mp
    ((hlog.item_isSome (h.mem_versions hxch)).mpr hlive)
  obtain ⟨base, hget⟩ := (h.stored k).get hxch he
  rw [hget]
  exact (hs.val _ _).mpr ⟨hget, k, x, hx, hlive, rfl⟩

/-- Shorter chains keep the representation. -/
theorem Shortened.rep (hs : Shortened ch ch' db d) (h : db.Rep E S ch)
    (hlog : LogOk db.log lo hi) : d.Rep E S ch' := by
  have hlive : ∀ {k x}, x ∈ ch' k → x.item.isSome = true → x.rev.isdel = false :=
    fun hx hsome => (hlog.item_isSome (h.mem_versions ((hs.chain _).mem hx))).mp hsome
  constructor
  case dups => exact hs.dups
  case kept =>
    intro k
    rw [hs.log]
    exact (hs.chain k).trans (h.kept k)
  case newest =>
    intro k hnil
    rw [hs.log]
    exact h.newest k (hs.newest k hnil)
  case stored =>
    intro k
    refine ((h.stored k).of_isPrefix (hs.chain k)).congr (fun x hx hsome => ?_)
    exact hs.get_eq h hlog hx (hlive hx hsome)
  case full =>
    intro k e he
    cases hk : ch' k with
    | nil =>
        rw [hk] at he
        cases he
    | cons x xs =>
        have hx : x ∈ ch' k := by simp [hk]
        have hitem : x.item = some e := by
          rw [hk] at he
          exact he
        obtain ⟨rest, hch⟩ := hs.chain k
        have hcur : current (ch k) = some e := by
          rw [← hch, hk]
          exact hitem
        obtain ⟨hrev, -⟩ := item_of_mem_versions (h.mem_versions ((hs.chain k).mem hx)) hitem
        rw [← h.full k e hcur, hrev]
        exact hs.get_eq h hlog hx (hlive hx (by rw [hitem]; rfl))
  case val =>
    intro rk v hget
    obtain ⟨-, k, x, hx, hxlive, hrk⟩ := (hs.val rk v).mp hget
    exact ⟨k, x, hx, (hlog.item_isSome (h.mem_versions ((hs.chain k).mem hx))).mpr hxlive, hrk⟩
  case evt =>
    intro rk v hv
    rw [hs.log]
    exact h.evt rk v (DupTable.mem_pairs.mp (hs.evt (rk, v) (DupTable.mem_pairs.mpr hv)))
  case event =>
    intro k x hx
    obtain ⟨epoch, hevent⟩ := h.event k x (mem_dropLast_of_isPrefix (hs.chain k) hx)
    exact ⟨epoch, hs.event k x hx epoch hevent⟩

theorem Shortened.head (hs : Shortened ch ch' db d) (k : Bytes) :
    ch' k = [] ∧ ch k = [] ∨ ∃ x xs xs', ch' k = x :: xs' ∧ ch k = x :: xs := by
  cases hk : ch' k with
  | nil => exact .inl ⟨rfl, hs.newest k hk⟩
  | cons x xs' =>
      obtain ⟨rest, hrest⟩ := hs.chain k
      rw [hk] at hrest
      exact .inr ⟨x, xs' ++ rest, xs', rfl, hrest.symm⟩

theorem Shortened.logOk (hs : Shortened ch ch' db d) (hlog : LogOk db.log lo hi) :
    LogOk d.log lo hi := by
  rw [hs.log]
  exact hlog

/-- The tables after a compaction at `max`: what it has to keep of each key is there, and the
events from `max` on. -/
structure Compacted (ch ch' : Bytes → List Version) (db : DbKv) (max : UInt64) (d : DbKv) : Prop
    extends Shortened ch ch' db d where
  keep : ∀ k, keepFrom Version.rev max (ch' k) = keepFrom Version.rev max (ch k)
  above : ∀ p ∈ db.evt.pairs, max ≤ (decodeEvt p).rev.upper → p ∈ d.evt.pairs

/-- The events from a revision on that is not compacted. -/
theorem Compacted.eventsFrom_eq {max : UInt64} (hc : Compacted ch ch' db max d) {n : Nat}
    (hn : max.toNat ≤ n) : d.eventsFrom n = db.eventsFrom n := by
  have hpairs : d.evt.pairs.filter (fun p => n ≤ (decodeEvt p).rev.upper.toNat) =
      db.evt.pairs.filter (fun p => n ≤ (decodeEvt p).rev.upper.toNat) := by
    refine DupTable.pairs_ext (d.evt.pairs_sorted.sublist List.filter_sublist)
      (db.evt.pairs_sorted.sublist List.filter_sublist) (fun p => ?_)
    simp only [List.mem_filter, decide_eq_true_eq]
    refine and_congr_left (fun hle => ⟨fun hp => hc.evt p hp, fun hp => hc.above p hp ?_⟩)
    rw [UInt64.le_iff_toNat_le]
    exact hn.trans hle
  rw [eventsFrom, events, List.filter_map, eventsFrom, events, List.filter_map]
  exact congrArg _ hpairs

theorem Shortened.event_of_event (hs : Shortened ch ch' db d) {evt : KvEvent}
    (hevt : evt ∈ d.events) : evt ∈ db.events := by
  obtain ⟨p, hp, rfl⟩ := List.mem_map.mp hevt
  exact List.mem_map_of_mem (hs.evt p hp)

/-- What the keys keep when the events `gone` are removed. -/
def rest (ch : Bytes → List Version) (gone : List (Bytes × Bytes)) (k : Bytes) : List Version :=
  (ch k).filter (fun x => threshold (gone.map decodeEvt) k ≤ x.rev.word.toNat)

/-- A piece of the work: the events `gone` are removed and their keys pruned. -/
structure Piece (ch : Bytes → List Version) (db : DbKv) (gone : List (Bytes × Bytes))
    (d : DbKv) : Prop where
  sublist : gone.Sublist db.evt.pairs
  pruned : Pruned ch db (threshold (gone.map decodeEvt)) d
  evt : d.evt = dropEvents gone db.evt

namespace Piece

variable {gone : List (Bytes × Bytes)} {max : UInt64}

theorem mem_pairs (hp : Piece ch db gone d) {p : Bytes × Bytes} :
    p ∈ d.evt.pairs ↔ p ∈ db.evt.pairs ∧ p ∉ gone := by
  rw [DupTable.mem_pairs, hp.evt, mem_dropEvents, ← DupTable.mem_pairs]

theorem sorted (hp : Piece ch db gone d) (h : db.Rep E S ch) :
    (gone.map decodeEvt).Pairwise (fun a b => a.rev.word.toNat ≤ b.rev.word.toNat) :=
  h.events_sorted.sublist (hp.sublist.map decodeEvt)

/-- The threshold of a key is 0 or at one of its versions, whose event is gone. -/
theorem threshold_at (hp : Piece ch db gone d) (h : db.Rep E S ch) (k : Bytes) :
    threshold (gone.map decodeEvt) k = 0 ∨
      ∃ x ∈ versions db.log k, (∃ p ∈ gone, x.rev = (decodeEvt p).rev) ∧
        threshold (gone.map decodeEvt) k = x.rev.word.toNat := by
  rcases threshold_eq (gone.map decodeEvt) k with ⟨hzero, -⟩ | ⟨evt, hevt, rfl, heq⟩
  · exact .inl hzero
  · obtain ⟨p, hmem, rfl⟩ := List.mem_map.mp hevt
    obtain ⟨x, hx, hrev⟩ := (h.version_of_evt (hp.sublist.subset hmem)).2
    exact .inr ⟨x, hx, ⟨p, hmem, hrev⟩, by rw [heq, hrev]⟩

theorem shortened (hp : Piece ch db gone d) (h : db.Rep E S ch) (hlog : LogOk db.log lo hi) :
    Shortened ch (rest ch gone) db d := by
  have hdesc : ∀ k, (ch k).Pairwise (fun a b => b.rev.word.toNat < a.rev.word.toNat) :=
    fun k => (hlog.desc k).sublist (h.kept k).sublist
  constructor
  case log => exact hp.pruned.log
  case chain => exact fun k => filter_isPrefix (hdesc k) _
  case newest =>
    intro k hnil
    rw [rest, List.filter_eq_nil_iff] at hnil
    refine List.eq_nil_iff_forall_not_mem.mpr (fun y hy => ?_)
    rcases hp.threshold_at h k with hzero | ⟨x, hx, -, heq⟩
    · exact hnil y hy (by simp [hzero])
    · obtain ⟨z, zs, hch, hle⟩ := h.head_newest hlog hx
      exact hnil z (by simp [hch]) (by simpa [heq] using hle)
  case dups => exact hp.pruned.dups
  case val =>
    intro rk v
    rw [hp.pruned.val]
    refine and_congr_right (fun hget => ⟨fun hall => ?_, ?_⟩)
    · obtain ⟨k, x, hx, hsome, hrk⟩ := h.val rk v hget
      have hlive := (hlog.item_isSome (h.mem_versions hx)).mp hsome
      exact ⟨k, x, List.mem_filter.mpr ⟨hx, by simpa using hall k x hx hlive hrk⟩, hlive, hrk⟩
    · rintro ⟨k, x, hx, hlive, rfl⟩ k' y hy hylive heq
      obtain ⟨hxch, hle⟩ := List.mem_filter.mp hx
      obtain ⟨rfl, rfl⟩ := hlog.eq_of_rev_eq (h.mem_versions hxch) (h.mem_versions hy) hlive
        (Keyrev.key_inj heq)
      simpa using hle
  case evt => exact fun p hmem => (hp.mem_pairs.mp hmem).1
  case event =>
    intro k x hx epoch hevent
    rw [hp.evt, mem_dropEvents]
    refine ⟨hevent, fun hgone => ?_⟩
    -- a version above the last one kept is newer than every event of its key that is gone
    have hle := le_threshold (hp.sorted h) (List.mem_map_of_mem (f := decodeEvt) hgone)
    rw [decodeEvt_evtBytes] at hle
    have hne : rest ch gone k ≠ [] := fun hnil => by simp [hnil] at hx
    have hlast := List.getLast_mem hne
    have hlt : ((rest ch gone k).getLast hne).rev.word.toNat < x.rev.word.toNat := by
      have hrest : (rest ch gone k).Pairwise (fun a b => b.rev.word.toNat < a.rev.word.toNat) :=
        (hdesc k).sublist List.filter_sublist
      rw [← List.dropLast_append_getLast hne] at hrest
      exact (List.pairwise_append.mp hrest).2.2 x hx _ (List.mem_singleton_self _)
    have hge := (List.mem_filter.mp hlast).2
    rw [decide_eq_true_eq] at hge
    simp only at hle
    omega

/-- Where the threshold of a key is when no event from `max` on is gone. -/
theorem thresholdAt (hp : Piece ch db gone d) (h : db.Rep E S ch) (hlog : LogOk db.log lo hi)
    (hgone : ∀ p ∈ gone, ¬ max ≤ (decodeEvt p).rev.upper) (k : Bytes) :
    ThresholdAt max (ch k) (threshold (gone.map decodeEvt) k) := by
  rcases hp.threshold_at h k with hzero | ⟨x, hx, ⟨p, hmem, hrev⟩, heq⟩
  · exact .inl (fun y _ => by omega)
  · rw [heq]
    by_cases hch : x ∈ ch k
    · exact .inr ⟨x, hch, by rw [hrev]; exact hgone p hmem, rfl⟩
    · -- the version is gone already, so all that are left are newer
      obtain ⟨rest, hrest⟩ := h.kept k
      have hdesc := hlog.desc k
      rw [← hrest] at hx hdesc
      refine .inl (fun y hy => ?_)
      exact ((List.pairwise_append.mp hdesc).2.2 y hy x
        ((List.mem_append.mp hx).resolve_left hch)).le

theorem compacted (hp : Piece ch db gone d) (h : db.Rep E S ch) (hlog : LogOk db.log lo hi)
    (hgone : ∀ p ∈ gone, ¬ max ≤ (decodeEvt p).rev.upper) :
    Compacted ch (rest ch gone) db max d where
  toShortened := hp.shortened h hlog
  keep k := keepFrom_filter ((hlog.desc k).sublist (h.kept k).sublist)
    (hp.thresholdAt h hlog hgone k)
  above p hmem hle := hp.mem_pairs.mpr ⟨hmem, fun hin => hgone p hin hle⟩

/-- Once every event below `max` is gone, nothing is left to prune. -/
theorem rest_eq_keepFrom (hp : Piece ch db gone d) (h : db.Rep E S ch) (hlog : LogOk db.log lo hi)
    (hgone : ∀ p, p ∈ gone ↔ p ∈ db.evt.pairs ∧ ¬ max ≤ (decodeEvt p).rev.upper) (k : Bytes) :
    rest ch gone k = keepFrom Version.rev max (ch k) := by
  refine filter_eq_keepFrom ((hlog.desc k).sublist (h.kept k).sublist)
    (hp.thresholdAt h hlog (fun p hmem => ((hgone p).mp hmem).2) k) (fun x hx hlt => ?_)
  obtain ⟨epoch, hevent⟩ := h.event k x hx
  have hmem : (x.rev.key, evtBytes x.rev epoch k) ∈ gone := by
    refine (hgone _).mpr ⟨DupTable.mem_pairs.mpr hevent, ?_⟩
    rw [decodeEvt_evtBytes]
    exact hlt
  have hle := le_threshold (hp.sorted h) (List.mem_map_of_mem (f := decodeEvt) hmem)
  rw [decodeEvt_evtBytes] at hle
  exact hle

/-- What is gone determines the tables. -/
theorem unique {d' : DbKv} (hp : Piece ch db gone d) (hp' : Piece ch db gone d') : d = d' := by
  have hrev : d.rev = d'.rev := by
    refine DupTable.ext_dups (fun k => by rw [hp.pruned.dups, hp'.pruned.dups]) (fun k hne => ?_)
    rw [hp.pruned.sub k hne, hp'.pruned.sub k]
    rwa [hp'.pruned.dups, ← hp.pruned.dups]
  have hval : d.val = d'.val := by
    refine Table.ext_get (fun k => Option.ext (fun v => ?_))
    exact (hp.pruned.val k v).trans (hp'.pruned.val k v).symm
  have hevt : d.evt = d'.evt := hp.evt.trans hp'.evt.symm
  have hlog : d.log = d'.log := hp.pruned.log.trans hp'.pruned.log.symm
  cases d
  cases d'
  simp only [DbKv.mk.injEq]
  exact ⟨hevt, hrev, hval, hlog⟩

end Piece

/-- An event at which compaction stops. -/
def Stops (max : UInt64) (p : Bytes × Bytes) : Prop := 0 < max ∧ max ≤ (decodeEvt p).rev.upper

instance (max : UInt64) (p : Bytes × Bytes) : Decidable (Stops max p) :=
  inferInstanceAs (Decidable (_ ∧ _))

/-- The cursor meets an event at which it stops. -/
def MeetsStop (db : DbKv) (max : UInt64) : Prop := ∃ p ∈ db.evt.walk, Stops max p

instance (db : DbKv) (max : UInt64) : Decidable (db.MeetsStop max) :=
  inferInstanceAs (Decidable (∃ p ∈ db.evt.walk, Stops max p))

/-- The entries compaction removes. -/
def removedEvents (db : DbKv) (max : UInt64) : List (Bytes × Bytes) :=
  db.evt.walk.filter (fun p => ¬ Stops max p)

theorem mem_removedEvents {max : UInt64} {p : Bytes × Bytes} :
    p ∈ db.removedEvents max ↔ p ∈ db.evt.walk ∧ ¬ Stops max p := by
  rw [removedEvents, List.mem_filter, decide_eq_true_eq]

theorem removedEvents_sublist (db : DbKv) (max : UInt64) :
    (db.removedEvents max).Sublist db.evt.pairs :=
  List.filter_sublist.trans db.evt.walk_sublist

/-- A list in which nothing without `P` comes after something with it. -/
theorem eq_filter_append {α : Type} {P : α → Prop} [DecidablePred P] {l : List α}
    (h : l.Pairwise (fun a b => P a → P b)) :
    l = l.filter (fun a => ¬ P a) ++ l.filter (fun a => P a) := by
  induction l with
  | nil => rfl
  | cons a l ih =>
      obtain ⟨ha, h⟩ := List.pairwise_cons.mp h
      by_cases hP : P a
      · have hall : ∀ b ∈ l, P b := fun b hb => ha b hb hP
        rw [List.filter_cons_of_neg (by simpa using hP),
          List.filter_cons_of_pos (by simpa using hP),
          List.filter_eq_nil_iff.mpr (fun b hb => by simpa using hall b hb),
          List.filter_eq_self.mpr (fun b hb => by simpa using hall b hb)]
        rfl
      · rw [List.filter_cons_of_pos (by simpa using hP),
          List.filter_cons_of_neg (by simpa using hP), List.cons_append, ← ih h]

theorem Rep.pairs_upper_le (h : db.Rep E S ch) :
    db.evt.pairs.Pairwise (fun a b => (decodeEvt a).rev.upper ≤ (decodeEvt b).rev.upper) := by
  refine (pairs_rev_le h.evtOk db.evt.pairs_sorted).imp (fun {a b} hle => ?_)
  rw [UInt64.le_iff_toNat_le, Keyrev.upper_toNat, Keyrev.upper_toNat]
  exact Nat.div_le_div_right hle

/-- The cursor meets the events it removes before those at which it stops. -/
theorem Rep.walk_eq (h : db.Rep E S ch) (max : UInt64) :
    db.evt.walk = db.removedEvents max ++ db.evt.walk.filter (fun p => Stops max p) :=
  eq_filter_append ((h.pairs_upper_le.sublist db.evt.walk_sublist).imp
    (fun hle hstop => ⟨hstop.1, UInt64.le_trans hstop.2 hle⟩))

section Loops

variable {R : Type} {Q : Bytes × Bytes → Prop}
  (run : List (Bytes × Bytes) → Nat → Table Bytes Keyrev → UInt64 → DbKv → R) (P : Nat → Nat → Prop)

/-- What a loop does at an event it removes, when it may prune some of the keys before.  `P` says
for how many events the counter is good. -/
structure Removes (ch : Bytes → List Version) (db : DbKv) (Q : Bytes × Bytes → Prop) : Prop where
  step : ∀ {p rest n m keys θ T last d}, EvtOk p → Q p → P n (m + 1) → Batched ch db θ keys T d →
    ∃ n' keys' T' d', run (p :: rest) n keys last d =
        run rest n' (keys'.put (decodeEvt p).key (decodeEvt p).rev) (decodeEvt p).rev.upper
          { d' with evt := d'.evt.delDup p.1 p.2 } ∧
      P n' m ∧ d'.evt = d.evt ∧ Batched ch db θ keys' T' d'

variable {run P}

theorem Removes.over (hstep : Removes run P ch db Q) (hrep : db.Rep E S ch) {last : UInt64}
    {low high : List (Bytes × Bytes)} {done : List KvEvent} {n : Nat} {keys : Table Bytes Keyrev}
    {T : Bytes → Nat} (hlow : ∀ p ∈ low, p ∈ db.evt.pairs ∧ Q p)
    (hsorted : (done ++ low.map decodeEvt).Pairwise
      (fun a b => a.rev.word.toNat ≤ b.rev.word.toNat))
    (hn : P n low.length) (h : Batched ch db (threshold done) keys T d) :
    ∃ n' keys' T' d', run (low ++ high) n keys last d = run high n' keys' (lastUpper last low) d' ∧
      P n' 0 ∧ d'.evt = dropEvents low d.evt ∧
      Batched ch db (threshold (done ++ low.map decodeEvt)) keys' T' d' := by
  induction low generalizing done n keys T d last with
  | nil =>
      rw [List.map_nil, List.append_nil]
      exact ⟨n, keys, T, d, rfl, hn, rfl, h⟩
  | cons p low ih =>
      obtain ⟨hmem, hQ⟩ := hlow p List.mem_cons_self
      obtain ⟨hp, x, hx, hxrev⟩ := hrep.version_of_evt hmem
      obtain ⟨n₁, keys₁, T₁, d₁, hrun₁, hn₁, hevt₁, h₁⟩ := hstep.step hp hQ hn h
      have h₂ := h₁.next hx hxrev (fun evt hmem => (List.pairwise_append.mp hsorted).2.2 evt hmem _
        (by simp)) (d₁.evt.delDup p.1 p.2)
      have happend : done ++ (p :: low).map decodeEvt =
          done ++ [decodeEvt p] ++ low.map decodeEvt := by simp
      rw [happend] at hsorted ⊢
      obtain ⟨n', keys', T', d', hrun, hn', hevt, h'⟩ :=
        ih (fun q hq => hlow q (List.mem_cons_of_mem _ hq)) hsorted hn₁ h₂
      refine ⟨n', keys', T', d', by rw [List.cons_append, hrun₁, hrun]; rfl, hn', ?_, h'⟩
      rw [hevt, hevt₁]
      rfl

/-- The loop over the events it removes, from the start. -/
theorem Removes.piece (hstep : Removes run P ch db Q) (h : db.Rep E S ch)
    (hlog : LogOk db.log lo hi) {low : List (Bytes × Bytes)} (hsub : low.Sublist db.evt.pairs)
    (hlow : ∀ p ∈ low, Q p) (hn : P 0 low.length) (high : List (Bytes × Bytes)) :
    ∃ n keys d₁, run (low ++ high) 0 .empty 0 db = run high n keys (lastUpper 0 low) d₁ ∧
      P n 0 ∧ ∀ (F : Env) m, ∃ d, DbKv.prune (F.order m keys.entries) d₁ = .ok d ∧
        Piece ch db low d := by
  have hempty : Batched ch db (threshold []) .empty (fun _ => 0) db :=
    ⟨h.pruned, fun k r hget => (by cases hget), fun _ _ => rfl, fun _ => le_rfl⟩
  obtain ⟨n, keys, T, d₁, hrun, hn', hevt₁, h₁⟩ := hstep.over h
    (fun p hp => ⟨hsub.subset hp, hlow p hp⟩) (h.events_sorted.sublist (hsub.map decodeEvt)) hn
    hempty
  refine ⟨n, keys, d₁, hrun, hn', fun F m => ?_⟩
  obtain ⟨d, hprune, hevt, hpruned⟩ := h₁.prune (F := F) h hlog m
  exact ⟨d, hprune, hsub, hpruned, hevt.trans hevt₁⟩

end Loops

theorem compactLoop_removes (h : db.Rep E S ch) (hlog : LogOk db.log lo hi) (limit : Nat)
    (max : UInt64) :
    Removes (compactLoop F limit max) (fun _ _ => True) ch db (fun p => ¬ Stops max p) := by
  refine ⟨fun {p rest n m keys θ T last d} hp hlt _ hbatched => ?_⟩
  obtain ⟨n', keys', T', d', hflush, hevt, h'⟩ := hbatched.flush (F := F) h hlog limit n
  refine ⟨n', keys', T', d', ?_, trivial, hevt, h'⟩
  rw [show p = (p.1, p.2) from rfl, compactLoop, fromKey_of_evtOk hp]
  simp only
  rw [if_neg (show ¬ (0 < max ∧ max ≤ (decodeEvt p).rev.upper) from hlt), hflush]
  simp only [trimChecksum_of_evtOk hp, skipUvarint_putUvarint]

theorem Rep.compactBy_eq (h : db.Rep E S ch) {limit : Nat} {max : UInt64}
    (hne : db.evt.walk ≠ []) :
    db.compactBy F limit max = compactLoop F limit max db.evt.walk 0 .empty 0 db := by
  rw [compactBy]
  cases hp : db.evt.walk with
  | nil => exact absurd hp hne
  | cons p ps =>
      have hmem : p ∈ db.evt.pairs := db.evt.walk_sublist.subset (by rw [hp]; simp)
      simp only [fromKey_of_evtOk (h.evtOk p hmem)]

/-- A compaction has one outcome, and succeeds when it meets an event at which it stops. -/
theorem Rep.compactBy (h : db.Rep E S ch) (hlog : LogOk db.log lo hi) (max : UInt64) :
    ∃ d, Piece ch db (db.removedEvents max) d ∧ ∀ F limit,
      (db.MeetsStop max →
        db.compactBy F limit max = .ok (d, lastUpper 0 (db.removedEvents max))) ∧
      (¬ db.MeetsStop max → ∃ e, db.compactBy F limit max = .error e) := by
  have hsplit := h.walk_eq max
  -- the tables do not depend on the order of the map or the size of the batches
  have hrun : ∀ F limit, ∃ d, Piece ch db (db.removedEvents max) d ∧
      (db.MeetsStop max →
        db.compactBy F limit max = .ok (d, lastUpper 0 (db.removedEvents max))) ∧
      (¬ db.MeetsStop max → ∃ e, db.compactBy F limit max = .error e) := by
    intro F limit
    obtain ⟨n, keys, d₁, hloop, -, hpruned⟩ := (compactLoop_removes (F := F) h hlog limit max).piece
      h hlog (db.removedEvents_sublist max) (fun p hp => (mem_removedEvents.mp hp).2) trivial
      (db.evt.walk.filter (fun p => Stops max p))
    rw [← hsplit] at hloop
    obtain ⟨d, hprune, hpiece⟩ := hpruned F n
    refine ⟨d, hpiece, fun hmeets => ?_, fun hnot => ?_⟩
    · obtain ⟨p, hp, hstop⟩ := hmeets
      rw [h.compactBy_eq (List.ne_nil_of_mem hp), hloop]
      have hmem : p ∈ db.evt.walk.filter (fun p => Stops max p) :=
        List.mem_filter.mpr ⟨hp, by simpa using hstop⟩
      cases hhigh : db.evt.walk.filter (fun p => Stops max p) with
      | nil =>
          rw [hhigh] at hmem
          cases hmem
      | cons q rest =>
          obtain ⟨hq, hqstop⟩ := List.mem_filter.mp
            (show q ∈ db.evt.walk.filter (fun p => Stops max p) by rw [hhigh]; simp)
          have hok := fromKey_of_evtOk (h.evtOk q (db.evt.walk_sublist.subset hq))
          have hstop : Stops max q := by simpa using hqstop
          rw [show q = (q.1, q.2) from rfl, compactLoop, hok]
          simp only
          rw [if_pos ⟨hstop.1, hstop.2⟩, hprune]
    · by_cases hnil : db.evt.walk = []
      · exact ⟨.checksumMissing, by rw [DbKv.compactBy, hnil]⟩
      · have hhigh : db.evt.walk.filter (fun p => Stops max p) = [] :=
          List.filter_eq_nil_iff.mpr (fun p hp => by
            rw [decide_eq_true_eq]
            exact fun hstop => hnot ⟨p, hp, hstop⟩)
        refine ⟨.checksumInvalid, ?_⟩
        rw [h.compactBy_eq hnil, hloop, hhigh, compactLoop, hprune]
  obtain ⟨d, hpiece, -⟩ := hrun E 0
  refine ⟨d, hpiece, fun F limit => ?_⟩
  obtain ⟨d', hpiece', hcases⟩ := hrun F limit
  rw [hpiece.unique hpiece']
  exact hcases

/-- What a compaction that succeeded has done. -/
theorem Rep.compactBy_inv (h : db.Rep E S ch) (hlog : LogOk db.log lo hi) {limit : Nat}
    {max last : UInt64} (hc : db.compactBy F limit max = .ok (d, last)) :
    db.MeetsStop max ∧ Piece ch db (db.removedEvents max) d ∧
      last = lastUpper 0 (db.removedEvents max) := by
  obtain ⟨d', hpiece, hcases⟩ := h.compactBy hlog max
  obtain ⟨hok, herr⟩ := hcases F limit
  by_cases hmeets : db.MeetsStop max
  · rw [hok hmeets] at hc
    obtain ⟨rfl, rfl⟩ := Prod.mk.inj (Except.ok.inj hc)
    exact ⟨hmeets, hpiece, rfl⟩
  · obtain ⟨e, he⟩ := herr hmeets
    rw [he] at hc
    cases hc

theorem MeetsStop.pos {max : UInt64} (h : db.MeetsStop max) : 0 < max := by
  obtain ⟨p, -, hpos, -⟩ := h
  exact hpos

theorem MeetsStop.event {max : UInt64} (h : db.MeetsStop max) :
    ∃ evt ∈ db.events, max ≤ evt.rev.upper := by
  obtain ⟨p, hp, -, hle⟩ := h
  exact ⟨decodeEvt p, List.mem_map_of_mem (db.evt.walk_sublist.subset hp), hle⟩

theorem not_le_of_mem_removedEvents {max : UInt64} (hpos : 0 < max) {p : Bytes × Bytes}
    (hp : p ∈ db.removedEvents max) : ¬ max ≤ (decodeEvt p).rev.upper :=
  fun hle => (mem_removedEvents.mp hp).2 ⟨hpos, hle⟩

theorem Rep.compacted (h : db.Rep E S ch) (hlog : LogOk db.log lo hi) {limit : Nat}
    {max last : UInt64} (hc : db.compactBy F limit max = .ok (d, last)) :
    Compacted ch (rest ch (db.removedEvents max)) db max d := by
  obtain ⟨hmeets, hpiece, -⟩ := h.compactBy_inv hlog hc
  exact hpiece.compacted h hlog (fun p hp => not_le_of_mem_removedEvents hmeets.pos hp)

theorem Versioned.compact {bound : Nat} {max last : UInt64} (h : db.Versioned E S U bound)
    (hU : ¬ U) (hc : db.compact F max = .ok (d, last)) : d.Versioned E S U bound := by
  obtain ⟨ch, hrep, hlog, -⟩ := h
  have hcomp := hrep.compacted hlog hc
  exact ⟨_, hcomp.rep hrep hlog, hcomp.logOk hlog, fun hu => absurd hu hU⟩

end DbKv

end Turbokube
