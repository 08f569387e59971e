import Turbokube.History.Versions
import Turbokube.Store.Steps

/-!
# What the tables hold

`Rep E S db ch` says what the three tables hold in terms of versions: `ch k` are the
versions of `k` that have not been compacted away, newest first.  The revision table
lists them, and the value table has one entry for each that is no tombstone.  Each of
them but the oldest has its event.  An event that compaction stepped over may belong
to a version that is gone.

An entry of the value table may be a patch.  `Stored` says against what: the value
of the next newer version, unless that is a tombstone or there is none.  This takes
puts that send no value when they ask for the present one to be kept, so it is
claimed only under `S`.  The newest version of a key is always stored in full.
-/

namespace Turbokube

open Encoding Lmdb

namespace Version

def record (k : Bytes) (v : Version) : Keyrecord := ⟨k, v.rev, v.lease⟩

end Version

namespace DbKv

/-- The entries of the versions of one key.  `above` is the value of the version
before them. -/
def Stored (E : Env) (S : Prop) (val : Table Bytes Bytes) : Option Bytes → List Version → Prop
  | _, [] => True
  | above, v :: vs =>
      (∀ e, v.item = some e → ∃ base, val.get v.rev.key = some (e.bytes E.flags E.codec base) ∧
        (S → base = none ∨ base = above)) ∧
      Stored E S val (v.item.map Kv.val) vs

structure Rep (E : Env) (S : Prop) (db : DbKv) (ch : Bytes → List Version) : Prop where
  dups : ∀ k, db.rev.dups k = (ch k).map (fun v => (v.record k).bytes)
  kept : ∀ k, ch k <+: versions db.log k
  newest : ∀ k, ch k = [] → versions db.log k = []
  stored : ∀ k, Stored E S db.val none (ch k)
  full : ∀ k e, current (ch k) = some e →
    db.val.get e.rev.key = some (e.bytes E.flags E.codec none)
  val : ∀ rk v, db.val.get rk = some v → ∃ k, ∃ x ∈ ch k, x.item.isSome = true ∧ rk = x.rev.key
  evt : ∀ rk v, v ∈ db.evt.dups rk →
    ∃ k, ∃ x ∈ versions db.log k, ∃ epoch, rk = x.rev.key ∧ v = evtBytes x.rev epoch k
  event : ∀ k, ∀ x ∈ (ch k).dropLast, ∃ epoch, evtBytes x.rev epoch k ∈ db.evt.dups x.rev.key

variable {E : Env} {S : Prop} {db db' : DbKv} {ch : Bytes → List Version} {lo hi : Nat}

theorem Stored.congr {val val' : Table Bytes Bytes} {above : Option Bytes} {vs : List Version}
    (h : Stored E S val above vs)
    (heq : ∀ x ∈ vs, x.item.isSome = true → val'.get x.rev.key = val.get x.rev.key) :
    Stored E S val' above vs := by
  induction vs generalizing above with
  | nil => trivial
  | cons v vs ih =>
      refine ⟨fun e he => ?_, ih h.2 (fun x hx => heq x (List.mem_cons_of_mem _ hx))⟩
      rw [heq v List.mem_cons_self (by rw [he]; rfl)]
      exact h.1 e he

/-- Below a tombstone nothing depends on what is above it. -/
theorem Stored.of_current_none {val : Table Bytes Bytes} {above above' : Option Bytes}
    {vs : List Version} (h : Stored E S val above vs) (hcur : current vs = none) :
    Stored E S val above' vs := by
  cases vs with
  | nil => trivial
  | cons v vs =>
      refine ⟨fun e he => ?_, h.2⟩
      rw [current_cons, he] at hcur
      cases hcur

theorem Stored.get {val : Table Bytes Bytes} {above : Option Bytes} {vs : List Version}
    (h : Stored E S val above vs) {x : Version} {e : Kv} (hx : x ∈ vs) (he : x.item = some e) :
    ∃ base, val.get x.rev.key = some (e.bytes E.flags E.codec base) := by
  induction vs generalizing above with
  | nil => exact absurd hx List.not_mem_nil
  | cons v vs ih =>
      rcases List.mem_cons.mp hx with rfl | hx
      · obtain ⟨base, hget, -⟩ := h.1 e he
        exact ⟨base, hget⟩
      · exact ih h.2 hx

namespace Rep

theorem empty : DbKv.empty.Rep E S (fun _ => []) where
  dups k := rfl
  kept k := List.nil_prefix
  newest k _ := rfl
  stored k := trivial
  full k e h := by cases h
  val rk v h := by simp [DbKv.empty] at h
  evt rk v h := by simp [DbKv.empty] at h
  event k x h := by simp at h

theorem mem_versions (h : db.Rep E S ch) {k : Bytes} {x : Version} (hx : x ∈ ch k) :
    x ∈ versions db.log k := (h.kept k).mem hx

/-- The chain starts where the history starts. -/
theorem current_eq (h : db.Rep E S ch) (k : Bytes) :
    current (ch k) = current (versions db.log k) := by
  cases hch : ch k with
  | nil => rw [h.newest k hch]
  | cons v vs =>
      obtain ⟨rest, hrest⟩ := h.kept k
      rw [← hrest, hch]
      rfl

theorem recsOk (h : db.Rep E S ch) : db.RecsOk := by
  intro k b hb
  rw [h.dups k] at hb
  obtain ⟨v, -, rfl⟩ := List.mem_map.mp hb
  exact ⟨v.record k, rfl, rfl⟩

/-- A tombstone names no lease. -/
theorem lease_of_isdel (h : db.Rep E S ch) (hlog : LogOk db.log lo hi) {k : Bytes} {x : Version}
    (hx : x ∈ ch k) (hdel : x.rev.isdel = true) : x.lease = 0 := by
  obtain ⟨w, hw, -, cur, rfl⟩ := write_of_mem_versions (h.mem_versions hx)
  have hop := (hlog.isdel w hw).mp hdel
  simp [Write.version, WriteOp.lease, hop]

theorem records_eq (h : db.Rep E S ch) (hlog : LogOk db.log lo hi) (k : Bytes) :
    db.records k = (ch k).map (Version.record k) := by
  rw [records, h.dups k, List.map_map]
  refine List.map_congr_left (fun v hv => ?_)
  have hdecode := decodeRec_bytes (v.record k)
  rw [Function.comp_apply, show (v.record k).key = k from rfl] at *
  rw [hdecode, Keyrecord.normal]
  cases hdel : v.rev.isdel with
  | false => simp [Version.record, hdel]
  | true => simp [Version.record, hdel, h.lease_of_isdel hlog hv hdel]

/-- A key is live when its newest version holds something. -/
theorem live_iff (h : db.Rep E S ch) (hlog : LogOk db.log lo hi) (k : Bytes) :
    db.Live k ↔ (current (ch k)).isSome = true := by
  rw [Live, h.records_eq hlog]
  cases hch : ch k with
  | nil => simp
  | cons v vs =>
      have hv : v ∈ versions db.log k := h.mem_versions (by simp [hch])
      simp [hlog.item_isSome hv, Version.record]

end Rep

theorem put_eq (hok : db.RecsOk) {rev subrev : Nat} {lease epoch : UInt64} {key val : Bytes}
    {ignoreValue ignoreLease : Bool} (hkey : key ≠ []) (hlen : key.length ≤ limitKeyLength) :
    db.put E rev subrev lease epoch key val ignoreValue ignoreLease =
      if ((db.records key).headD {}).rev = .zero ∨ ((db.records key).headD {}).rev.isdel then
        .ok (db.record E ⟨key, revAt rev subrev false, lease⟩
            (freshKv rev subrev lease key val) epoch
            ⟨rev, revAt rev subrev false, key, .put val lease ignoreValue ignoreLease⟩, {},
          freshKv rev subrev lease key val, false)
      else if ((db.records key).headD {}).rev.upper = UInt64.ofNat rev ∧
          !E.flags.txnMultiWriteEnabled then
        .error .grpcDuplicateKey
      else
        db.putOver E rev subrev lease epoch key val ignoreValue ignoreLease
          ((db.records key).headD {}) := by
  rw [put, if_neg (fun h => hkey (List.length_eq_zero_iff.mp h)), if_neg (Nat.not_lt.mpr hlen),
    newest_eq hok hkey]
  rfl

theorem key_of_put_ok {rev subrev : Nat} {lease epoch : UInt64} {key val : Bytes}
    {ignoreValue ignoreLease : Bool} {out : DbKv × Kv × Kv × Bool}
    (h : db.put E rev subrev lease epoch key val ignoreValue ignoreLease = .ok out) :
    key ≠ [] ∧ key.length ≤ limitKeyLength := by
  unfold put at h
  split at h
  · cases h
  · rename_i hne
    split at h
    · cases h
    · rename_i hlen
      exact ⟨fun hk => hne (by rw [hk]; rfl), Nat.not_lt.mp hlen⟩

namespace Rep

theorem rev_ne_zero (h : db.Rep E S ch) (hlog : LogOk db.log lo hi) {k : Bytes} {x : Version}
    (hx : x ∈ ch k) : x.rev ≠ .zero := by
  obtain ⟨w, hw, -, cur, rfl⟩ := write_of_mem_versions (h.mem_versions hx)
  intro hzero
  have hpos := hlog.pos w hw
  have hupper := hlog.upper w hw
  rw [show w.kr = Keyrev.zero from hzero] at hupper
  have hz : Keyrev.zero.upper.toNat = 0 := by decide
  omega

/-- What the newest version of a key tells of the records. -/
theorem head_eq (h : db.Rep E S ch) (hlog : LogOk db.log lo hi) (k : Bytes) :
    (current (ch k) = none →
        ((db.records k).headD {}).rev = .zero ∨ ((db.records k).headD {}).rev.isdel = true) ∧
      ∀ e, current (ch k) = some e →
        ((db.records k).headD {}).rev = e.rev ∧ e.rev ≠ .zero ∧ e.rev.isdel = false ∧
        e.key = k := by
  rw [h.records_eq hlog]
  cases hch : ch k with
  | nil => exact ⟨fun _ => .inl rfl, fun e he => by cases he⟩
  | cons v vs =>
      have hmem : v ∈ ch k := by simp [hch]
      have hv := h.mem_versions hmem
      have hitem := hlog.item_isSome hv
      refine ⟨fun hnone => .inr ?_, fun e he => ?_⟩
      · rw [current_cons] at hnone
        rw [hnone] at hitem
        simpa [Version.record] using hitem
      · rw [current_cons] at he
        obtain ⟨hrev, hkey⟩ := item_of_mem_versions hv he
        rw [he] at hitem
        refine ⟨by rw [hrev]; rfl, by rw [hrev]; exact h.rev_ne_zero hlog hmem, ?_, hkey⟩
        rw [hrev]
        exact hitem.mp rfl

/-- The two ways a put succeeds. -/
theorem put_inv (h : db.Rep E S ch) (hlog : LogOk db.log lo hi) {rev subrev : Nat}
    {lease epoch : UInt64} {key val : Bytes} {ignoreValue ignoreLease patched : Bool}
    {prev next : Kv}
    (hput : db.put E rev subrev lease epoch key val ignoreValue ignoreLease =
      .ok (db', prev, next, patched)) :
    current (ch key) = none ∧ prev = {} ∧ next = freshKv rev subrev lease key val ∧
        db' = db.record E ⟨key, revAt rev subrev false, lease⟩ next epoch
          ⟨rev, revAt rev subrev false, key, .put val lease ignoreValue ignoreLease⟩ ∨
      ∃ e, current (ch key) = some e ∧ ¬ e.Short ∧
        ¬ (e.rev.upper = UInt64.ofNat rev ∧ !E.flags.txnMultiWriteEnabled) ∧ prev = e ∧
        next = nextKv rev subrev lease key val ignoreValue ignoreLease e ∧
        db' = (db.patchPrev E e (e.bytes E.flags E.codec none) val).1.record E
          ⟨key, revAt rev subrev false, lease⟩ next epoch
          ⟨rev, revAt rev subrev false, key, .put val lease ignoreValue ignoreLease⟩ := by
  obtain ⟨hkey, hlen⟩ := key_of_put_ok hput
  obtain ⟨hnone, hsome⟩ := h.head_eq hlog key
  rw [put_eq h.recsOk hkey hlen] at hput
  cases hcur : current (ch key) with
  | none =>
      rw [if_pos (hnone hcur)] at hput
      simp only [Except.ok.injEq, Prod.mk.injEq] at hput
      obtain ⟨rfl, rfl, rfl, -⟩ := hput
      exact .inl ⟨rfl, rfl, rfl, rfl⟩
  | some e =>
      obtain ⟨hrev, hzero, hdel, hek⟩ := hsome e hcur
      rw [hrev, if_neg (by simp [hzero, hdel])] at hput
      split at hput
      · cases hput
      · rename_i hdup
        have hfetch : db.val.fetch e.rev.key = .ok (e.bytes E.flags E.codec none) := by
          rw [Table.fetch, h.full key e hcur]
        rw [putOver, hrev, hfetch] at hput
        simp only at hput
        by_cases hshort : e.Short
        · rw [Kv.fromBytes_short {} hdel hshort] at hput
          cases hput
        · have hekne : e.key ≠ [] := by rw [hek]; exact hkey
          have heklen : e.key.length < 2 ^ 64 := by
            rw [hek]
            exact lt_of_le_of_lt hlen (by decide)
          have hdecode :
              Kv.fromBytes E.codec {} e.rev.key (e.bytes E.flags E.codec none) none false =
              (e, none) := Kv.fromBytes_bytes {} hdel hekne heklen hshort (fun _ => .inl rfl)
          rw [hdecode] at hput
          simp only [Except.ok.injEq, Prod.mk.injEq] at hput
          obtain ⟨rfl, rfl, rfl, -⟩ := hput
          exact .inr ⟨e, rfl, hshort, hdup, rfl, rfl, rfl⟩

/-- A write puts its version in front of the others of its key.  What it does to the
value table is left to the caller. -/
theorem write (h : db.Rep E S ch) {w : Write} {epoch : UInt64}
    (hrev : db'.rev = db.rev.put w.key (Keyrecord.bytes ⟨w.key, w.kr, w.op.lease⟩))
    (hevt : db'.evt = db.evt.put w.kr.key (evtBytes w.kr epoch w.key))
    (hlog : db'.log = db.log ++ [w])
    (hnew : ∀ x ∈ ch w.key, x.rev.word.toNat < w.kr.word.toNat)
    (hstored : Stored E S db'.val none (w.version (current (ch w.key)) :: ch w.key))
    (hfull : ∀ e, entryAfter (current (ch w.key)) w = some e →
      db'.val.get e.rev.key = some (e.bytes E.flags E.codec none))
    (hother : ∀ k, k ≠ w.key → ∀ x ∈ ch k, x.item.isSome = true →
      db'.val.get x.rev.key = db.val.get x.rev.key)
    (hdom : ∀ rk v, db'.val.get rk = some v →
      (entryAfter (current (ch w.key)) w).isSome = true ∧ rk = w.kr.key ∨
        (db.val.get rk).isSome = true) :
    db'.Rep E S (Function.update ch w.key (w.version (current (ch w.key)) :: ch w.key)) := by
  have hold : ∀ k, ∀ x ∈ ch k, x ∈ Function.update ch w.key
      (w.version (current (ch w.key)) :: ch w.key) k := by
    intro k x hx
    by_cases hk : k = w.key
    · subst hk
      simp [hx]
    · rw [Function.update_of_ne hk]
      exact hx
  have hhead : w.version (current (ch w.key)) ∈ Function.update ch w.key
      (w.version (current (ch w.key)) :: ch w.key) w.key := by simp
  constructor
  case dups =>
    intro k
    rw [hrev, DupTable.dups_put]
    by_cases hk : k = w.key
    · subst hk
      rw [if_pos rfl, Function.update_self, List.map_cons, h.dups, insertDup_of_forall_lt]
      · rfl
      · intro b hb
        obtain ⟨x, hx, rfl⟩ := List.mem_map.mp hb
        exact Keyrecord.bytes_lt_bytes (hnew x hx)
    · rw [if_neg hk, Function.update_of_ne hk]
      exact h.dups k
  case kept =>
    intro k
    rw [hlog]
    by_cases hk : k = w.key
    · subst hk
      rw [Function.update_self, versions_append_self, h.current_eq]
      exact (List.prefix_cons_inj _).mpr (h.kept w.key)
    · rw [Function.update_of_ne hk, versions_append_ne _ hk]
      exact h.kept k
  case newest =>
    intro k hnil
    rw [hlog]
    by_cases hk : k = w.key
    · subst hk
      simp at hnil
    · rw [Function.update_of_ne hk] at hnil
      rw [versions_append_ne _ hk]
      exact h.newest k hnil
  case stored =>
    intro k
    by_cases hk : k = w.key
    · subst hk
      rw [Function.update_self]
      exact hstored
    · rw [Function.update_of_ne hk]
      exact (h.stored k).congr (hother k hk)
  case full =>
    intro k e he
    by_cases hk : k = w.key
    · subst hk
      rw [Function.update_self, current_cons] at he
      exact hfull e he
    · rw [Function.update_of_ne hk] at he
      cases hch : ch k with
      | nil =>
          rw [hch] at he
          cases he
      | cons x xs =>
          have hx : x ∈ ch k := by simp [hch]
          have hxe : x.item = some e := by
            rw [hch] at he
            exact he
          obtain ⟨hxrev, -⟩ := item_of_mem_versions (h.mem_versions hx) hxe
          rw [hxrev, hother k hk x hx (by rw [hxe]; rfl), ← hxrev]
          exact h.full k e he
  case val =>
    intro rk v hget
    rcases hdom rk v hget with ⟨hsome, hrk⟩ | hsome
    · exact ⟨w.key, _, hhead, hsome, hrk⟩
    · obtain ⟨v', hv'⟩ := Option.isSome_iff_exists.mp hsome
      obtain ⟨k, x, hx, hxsome, hrk⟩ := h.val rk v' hv'
      exact ⟨k, x, hold k x hx, hxsome, hrk⟩
  case evt =>
    intro rk v hv
    rw [hevt, DupTable.mem_dups_put] at hv
    rcases hv with ⟨hrk, hv⟩ | hv
    · refine ⟨w.key, w.version (current (ch w.key)), ?_, epoch, hrk, hv⟩
      rw [hlog, versions_append_self, h.current_eq]
      exact List.mem_cons_self
    · obtain ⟨k, x, hx, epoch', hrk, hv⟩ := h.evt rk v hv
      refine ⟨k, x, ?_, epoch', hrk, hv⟩
      rw [hlog]
      by_cases hk : k = w.key
      · rw [hk] at hx ⊢
        rw [versions_append_self]
        exact List.mem_cons_of_mem _ hx
      · rw [versions_append_ne _ hk]
        exact hx
  case event =>
    intro k x hx
    simp only [hevt, DupTable.mem_dups_put]
    by_cases hk : k = w.key
    · subst hk
      rw [Function.update_self] at hx
      cases hch : ch w.key with
      | nil =>
          rw [hch] at hx
          cases hx
      | cons y ys =>
          rw [hch, List.dropLast_cons_cons, ← hch] at hx
          rcases List.mem_cons.mp hx with rfl | hx
          · exact ⟨epoch, .inl ⟨rfl, rfl⟩⟩
          · obtain ⟨epoch', hmem⟩ := h.event w.key x hx
            exact ⟨epoch', .inr hmem⟩
    · rw [Function.update_of_ne hk] at hx
      obtain ⟨epoch', hmem⟩ := h.event k x hx
      exact ⟨epoch', .inr hmem⟩

theorem tombstone (h : db.Rep E S ch) (hlog : LogOk db.log lo hi) {rev subrev : Nat}
    {key : Bytes} (epoch : UInt64) (hlo : lo ≤ (revAt rev subrev true).word.toNat)
    (hlive : (current (ch key)).isSome = true) :
    (db.tombstone rev subrev epoch key).Rep E S
      (Function.update ch key (⟨revAt rev subrev true, 0, none⟩ :: ch key)) := by
  refine h.write (w := ⟨rev, revAt rev subrev true, key, .delete⟩) rfl rfl rfl
    (fun x hx => ?_) ⟨fun e he => ?_, h.stored key⟩ (fun e he => ?_) (fun _ _ _ _ _ => rfl)
    (fun rk v hget => .inr (by rw [show db.val.get rk = some v from hget]; rfl))
  · rw [h.current_eq] at hlive
    exact lt_of_lt_of_le (hlog.lt_of_live hlive (h.mem_versions hx)) hlo
  · cases he
  · cases he

/-- Rewriting the previous entry as a patch keeps what is stored. -/
theorem stored_patchPrev (h : db.Rep E S ch) (hlog : LogOk db.log lo hi) {key val : Bytes} {e : Kv}
    (hcur : current (ch key) = some e) {above : Bytes} (habove : S → val ≠ [] → above = val) :
    Stored E S (db.patchPrev E e (e.bytes E.flags E.codec none) val).1.val (some above) (ch key) ∧
      (∀ k, k ≠ key → ∀ x ∈ ch k, x.item.isSome = true →
        (db.patchPrev E e (e.bytes E.flags E.codec none) val).1.val.get x.rev.key =
          db.val.get x.rev.key) ∧
      ∀ rk, ((db.patchPrev E e (e.bytes E.flags E.codec none) val).1.val.get rk).isSome = true →
        (db.val.get rk).isSome = true := by
  cases hch : ch key with
  | nil =>
      rw [hch] at hcur
      cases hcur
  | cons x xs =>
      have hx : x ∈ ch key := by simp [hch]
      have hxe : x.item = some e := by
        rw [hch] at hcur
        exact hcur
      obtain ⟨hrev, -⟩ := item_of_mem_versions (h.mem_versions hx) hxe
      have hget := h.full key e hcur
      have hxs := (h.stored key)
      rw [hch] at hxs
      have hlive : x.rev.isdel = false := (hlog.item_isSome (h.mem_versions hx)).mp
        (by rw [hxe]; rfl)
      unfold patchPrev
      simp only
      split
      · refine ⟨⟨fun e' he' => ⟨nonNil val, ?_, fun hS => ?_⟩, hxs.2.congr (fun y hy _ => ?_)⟩,
          fun k hk y hy _ => ?_, fun rk hrk => ?_⟩
        · obtain rfl : e = e' := Option.some.inj (hxe.symm.trans he')
          rw [hrev, Table.get_put_self]
        · rw [nonNil]
          split
          · exact .inl rfl
          · rename_i hval
            exact .inr (by rw [habove hS hval])
        · refine Table.get_put_ne _ _ (fun heq => ?_)
          have hdesc := hlog.desc key
          obtain ⟨rest, hrest⟩ := h.kept key
          rw [← hrest, hch, List.cons_append] at hdesc
          have := List.rel_of_pairwise_cons hdesc (List.mem_append_left _ hy)
          rw [Keyrev.key_inj heq, hrev] at this
          exact lt_irrefl _ this
        · refine Table.get_put_ne _ _ (fun heq => hk ?_)
          rw [hrev] at heq
          exact (hlog.eq_of_rev_eq (h.mem_versions hx) (h.mem_versions hy) hlive
            (Keyrev.key_inj heq).symm).1.symm
        · rw [Table.get_put] at hrk
          split at hrk
          · rename_i heq
            rw [heq, hget]
            rfl
          · exact hrk
      · refine ⟨⟨fun e' he' => ⟨none, ?_, fun _ => .inl rfl⟩, hxs.2⟩, fun _ _ _ _ _ => rfl,
          fun _ hrk => hrk⟩
        obtain rfl : e = e' := Option.some.inj (hxe.symm.trans he')
        rw [← hrev]
        exact hget

/-- A put that succeeds adds its version. -/
theorem put (h : db.Rep E S ch) (hlog : LogOk db.log lo hi) {rev subrev : Nat}
    {lease epoch : UInt64} {key val : Bytes} {ignoreValue ignoreLease patched : Bool}
    {prev next : Kv} (hS : S → ignoreValue = true → val = [])
    (hlo : lo ≤ (revAt rev subrev false).word.toNat)
    (hhi : hi ≤ (revAt rev subrev false).word.toNat)
    (hput : db.put E rev subrev lease epoch key val ignoreValue ignoreLease =
      .ok (db', prev, next, patched)) :
    db'.log = db.log ++
        [⟨rev, revAt rev subrev false, key, .put val lease ignoreValue ignoreLease⟩] ∧
      db'.Rep E S
        (Function.update ch key (⟨revAt rev subrev false, lease, some next⟩ :: ch key)) := by
  have hnew : ∀ k, ∀ x ∈ ch k, x.rev.word.toNat < (revAt rev subrev false).word.toNat := by
    intro k x hx
    obtain ⟨a, ha, -, cur, rfl⟩ := write_of_mem_versions (h.mem_versions hx)
    have := hlog.lt a ha
    simp only [Write.version]
    split at this <;> omega
  have hne : ∀ k, ∀ x ∈ ch k, x.rev.key ≠ (revAt rev subrev false).key := by
    intro k x hx heq
    have := hnew k x hx
    rw [Keyrev.key_inj heq] at this
    exact lt_irrefl _ this
  -- both ways end in `record` on a value table `db₀.val` that keeps the older entries
  have hrecord : ∀ db₀ : DbKv, db₀.rev = db.rev → db₀.evt = db.evt → db₀.log = db.log →
      entryAfter (current (ch key)) ⟨rev, revAt rev subrev false, key,
        .put val lease ignoreValue ignoreLease⟩ = some next →
      Stored E S db₀.val (some next.val) (ch key) →
      (∀ k, k ≠ key → ∀ x ∈ ch k, x.item.isSome = true →
        db₀.val.get x.rev.key = db.val.get x.rev.key) →
      (∀ rk, (db₀.val.get rk).isSome = true → (db.val.get rk).isSome = true) →
      db' = db₀.record E ⟨key, revAt rev subrev false, lease⟩ next epoch
        ⟨rev, revAt rev subrev false, key, .put val lease ignoreValue ignoreLease⟩ →
      db'.log = db.log ++
          [⟨rev, revAt rev subrev false, key, .put val lease ignoreValue ignoreLease⟩] ∧
        db'.Rep E S
          (Function.update ch key (⟨revAt rev subrev false, lease, some next⟩ :: ch key)) := by
    intro db₀ hrev₀ hevt₀ hlog₀ hitem hstored hother hdom hdb'
    have hnextrev : next.rev = revAt rev subrev false := (entryAfter_rev hitem).1
    refine ⟨by rw [hdb', DbKv.record, hlog₀], ?_⟩
    have hversion : Write.version ⟨rev, revAt rev subrev false, key,
        .put val lease ignoreValue ignoreLease⟩ (current (ch key)) =
        ⟨revAt rev subrev false, lease, some next⟩ := by
      rw [Write.version, hitem]
      rfl
    rw [← hversion]
    refine h.write (w := ⟨rev, revAt rev subrev false, key, .put val lease ignoreValue ignoreLease⟩)
      (by rw [hdb', DbKv.record, hrev₀]; rfl) (by rw [hdb', DbKv.record, hevt₀])
      (by rw [hdb', DbKv.record, hlog₀]) (hnew key) ?_ (fun e he => ?_) (fun k hk x hx hsome => ?_)
      (fun rk v hget => ?_)
    · rw [hversion]
      refine ⟨fun e he => ⟨none, ?_, fun _ => .inl rfl⟩, hstored.congr (fun x hx _ => ?_)⟩
      · obtain rfl := Option.some.inj he
        rw [hdb', DbKv.record, Table.get_put_self]
      · rw [hdb', DbKv.record]
        exact Table.get_put_ne _ _ (hne _ x hx)
    · obtain rfl : next = e := Option.some.inj (hitem.symm.trans he)
      rw [hdb', DbKv.record, hnextrev, Table.get_put_self]
    · rw [hdb', DbKv.record]
      simp only
      rw [Table.get_put_ne _ _ (hne _ x hx), hother k hk x hx hsome]
    · rw [hdb', DbKv.record] at hget
      simp only [Table.get_put] at hget
      split at hget
      · rename_i hrk
        exact .inl ⟨by rw [hitem]; rfl, hrk⟩
      · exact .inr (hdom rk (by rw [hget]; rfl))
  rcases h.put_inv hlog hput with ⟨hcur, -, hnext, hdb'⟩ | ⟨e, hcur, -, -, -, hnext, hdb'⟩
  · exact hrecord db rfl rfl rfl (by rw [hcur, hnext]; rfl)
      ((h.stored key).of_current_none hcur) (fun _ _ _ _ _ => rfl) (fun _ hrk => hrk) hdb'
  · obtain ⟨hrev₀, hevt₀, hlog₀⟩ := patchPrev_frame E db e (e.bytes E.flags E.codec none) val
    have habove : S → val ≠ [] → next.val = val := by
      intro hs hval
      rw [hnext, nextKv]
      exact if_neg (fun hiv => hval (hS hs hiv))
    obtain ⟨hstored, hother, hdom⟩ := h.stored_patchPrev hlog hcur habove
    exact hrecord _ hrev₀ hevt₀ hlog₀ (by rw [hcur, hnext]; rfl) hstored hother hdom hdb'

end Rep

end DbKv

end Turbokube
