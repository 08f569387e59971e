import Mathlib.Data.List.Induction
import Turbokube.Record.Keyrev
import Turbokube.Model.DbKv

/-!
# Versions

What the log of a run means.  `entryAfter` is the effect of one write on one key,
`snapshotAt log r` the map that the writes of revisions up to `r` leave, and
`versions log k` the history of a key, newest version first.  Nothing here knows of
the tables.

A snapshot is the newest version that is old enough: `snapshotAt_eq` needs the log
to be in the order of its revisions and to store each write under its own.
-/

namespace Turbokube

open Encoding

/-- What a key holds after a write, if anything. -/
def entryAfter (cur : Option Kv) (w : Write) : Option Kv :=
  match w.op, cur with
  | .delete, _ => none
  | .put val lease _ _, none =>
      some ⟨w.kr, 1, UInt64.ofNat w.rev, lease, w.key, val⟩
  | .put val lease ignoreValue ignoreLease, some e =>
      some ⟨w.kr, e.version + 1, e.created, if ignoreLease then e.lease else lease, w.key,
        if ignoreValue then e.val else val⟩

def snapshotStep (m : Bytes → Option Kv) (w : Write) (k : Bytes) : Option Kv :=
  if k = w.key then entryAfter (m k) w else m k

/-- The writes of revisions up to `r`, applied in order to the empty map. -/
def snapshotAt (log : List Write) (r : Nat) : Bytes → Option Kv :=
  (log.filter (fun w => w.rev ≤ r)).foldl snapshotStep (fun _ => none)

/-- A version of a key: its revision, the lease its record names, and what it
holds.  A tombstone holds nothing. -/
structure Version where
  rev : Keyrev
  lease : UInt64
  item : Option Kv
  deriving DecidableEq, Repr

def current (vs : List Version) : Option Kv := vs.head?.bind Version.item

def WriteOp.lease : WriteOp → UInt64
  | .put _ lease _ _ => lease
  | .delete => 0

def Write.version (w : Write) (cur : Option Kv) : Version := ⟨w.kr, w.op.lease, entryAfter cur w⟩

def versionsStep (k : Bytes) (vs : List Version) (w : Write) : List Version :=
  if w.key = k then w.version (current vs) :: vs else vs

/-- The versions of a key, newest first. -/
def versions (log : List Write) (k : Bytes) : List Version := log.foldl (versionsStep k) []

@[simp] theorem current_nil : current [] = none := rfl

@[simp] theorem current_cons (v : Version) (vs : List Version) : current (v :: vs) = v.item := rfl

@[simp] theorem versions_nil (k : Bytes) : versions [] k = [] := rfl

theorem versions_append_one (log : List Write) (w : Write) (k : Bytes) :
    versions (log ++ [w]) k =
      if w.key = k then w.version (current (versions log k)) :: versions log k
      else versions log k := by
  rw [versions, List.foldl_append]
  rfl

theorem versions_append_self (log : List Write) (w : Write) :
    versions (log ++ [w]) w.key =
      w.version (current (versions log w.key)) :: versions log w.key := by
  rw [versions_append_one, if_pos rfl]

theorem versions_append_ne (log : List Write) {w : Write} {k : Bytes} (h : k ≠ w.key) :
    versions (log ++ [w]) k = versions log k := by
  rw [versions_append_one, if_neg (Ne.symm h)]

/-- A version comes from a write of its key. -/
theorem write_of_mem_versions {log : List Write} {k : Bytes} {v : Version}
    (h : v ∈ versions log k) :
    ∃ w ∈ log, w.key = k ∧ ∃ cur, v = w.version cur := by
  induction log using List.reverseRecOn with
  | nil => exact absurd h List.not_mem_nil
  | append_singleton log w ih =>
      rw [versions_append_one] at h
      split at h
      · rename_i hk
        rcases List.mem_cons.mp h with rfl | h
        · exact ⟨w, by simp, hk, _, rfl⟩
        · obtain ⟨w', hw', rest⟩ := ih h
          exact ⟨w', List.mem_append_left _ hw', rest⟩
      · obtain ⟨w', hw', rest⟩ := ih h
        exact ⟨w', List.mem_append_left _ hw', rest⟩

/-- What deletions leave of the versions. -/
theorem versions_deletes (log : List Write) {ws : List Write} (hws : ∀ w ∈ ws, w.op = .delete)
    (k : Bytes) :
    (k ∉ ws.map Write.key ∧ versions (log ++ ws) k = versions log k) ∨
      k ∈ ws.map Write.key ∧ ∃ v vs, versions (log ++ ws) k = v :: vs ∧ v.item = none := by
  induction ws using List.reverseRecOn with
  | nil => exact .inl ⟨by simp, by simp⟩
  | append_singleton ws w ih =>
      have ih := ih (fun w' hw' => hws w' (List.mem_append_left _ hw'))
      rw [← List.append_assoc, versions_append_one]
      by_cases hk : w.key = k
      · refine .inr ⟨by simp [hk], _, _, if_pos hk, ?_⟩
        simp [Write.version, entryAfter, hws w (by simp)]
      · rw [if_neg hk]
        rcases ih with ⟨hmem, heq⟩ | ⟨hmem, hex⟩
        · exact .inl ⟨by simpa [Ne.symm hk] using hmem, heq⟩
        · rw [List.map_append]
          exact .inr ⟨List.mem_append_left _ hmem, hex⟩

theorem entryAfter_rev {cur : Option Kv} {w : Write} {e : Kv} (h : entryAfter cur w = some e) :
    e.rev = w.kr ∧ e.key = w.key := by
  unfold entryAfter at h
  split at h
  · cases h
  · obtain rfl := Option.some.inj h
    exact ⟨rfl, rfl⟩
  · obtain rfl := Option.some.inj h
    exact ⟨rfl, rfl⟩

/-- What a version holds carries the revision and the key of the version. -/
theorem item_of_mem_versions {log : List Write} {k : Bytes} {v : Version} {e : Kv}
    (h : v ∈ versions log k) (he : v.item = some e) : e.rev = v.rev ∧ e.key = k := by
  obtain ⟨w, -, hk, cur, rfl⟩ := write_of_mem_versions h
  obtain ⟨hrev, hkey⟩ := entryAfter_rev he
  exact ⟨hrev, hkey.trans hk⟩

/-- The map that a whole log leaves holds the newest versions. -/
theorem foldl_snapshotStep (log : List Write) (k : Bytes) :
    log.foldl snapshotStep (fun _ => none) k = current (versions log k) := by
  induction log using List.reverseRecOn with
  | nil => rfl
  | append_singleton log w ih =>
      rw [List.foldl_append, List.foldl_cons, List.foldl_nil, versions_append_one, snapshotStep, ih]
      by_cases hk : k = w.key
      · rw [if_pos hk, if_pos hk.symm]
        rfl
      · rw [if_neg hk, if_neg (Ne.symm hk)]

/-- What the log of a run looks like whose commands wrote below their revisions'
bounds: tombstones below `hi`, puts below `lo`. -/
structure LogOk (log : List Write) (lo hi : Nat) : Prop where
  pos : ∀ w ∈ log, 0 < w.rev
  upper : ∀ w ∈ log, w.kr.upper.toNat = w.rev
  isdel : ∀ w ∈ log, w.kr.isdel = true ↔ w.op = .delete
  key : ∀ w ∈ log, w.key ≠ [] ∧ w.key.length ≤ limitKeyLength
  order : log.Pairwise (fun a b => a.rev ≤ b.rev)
  lt : ∀ w ∈ log, w.kr.word.toNat < if w.op = .delete then hi else lo
  inj : ∀ a ∈ log, ∀ b ∈ log, a.op ≠ .delete → a.kr = b.kr → a = b
  desc : ∀ k, (versions log k).Pairwise (fun a b => b.rev.word.toNat < a.rev.word.toNat)

/-- Dropping the writes above `r` drops the versions above `r`. -/
theorem versions_filter {log : List Write} (hupper : ∀ w ∈ log, w.kr.upper.toNat = w.rev)
    (horder : log.Pairwise (fun a b => a.rev ≤ b.rev)) (r : Nat) (k : Bytes) :
    versions (log.filter (fun w => w.rev ≤ r)) k =
      (versions log k).dropWhile (fun v => decide (r < v.rev.upper.toNat)) := by
  induction log using List.reverseRecOn with
  | nil => rfl
  | append_singleton log w ih =>
      obtain ⟨hlog, -, hle⟩ := List.pairwise_append.mp horder
      have ih := ih (fun w' hw' => hupper w' (List.mem_append_left _ hw')) hlog
      have hw : w.kr.upper.toNat = w.rev := hupper w (by simp)
      by_cases hr : w.rev ≤ r
      · have hall : (log ++ [w]).filter (fun w => decide (w.rev ≤ r)) = log ++ [w] := by
          refine List.filter_eq_self.mpr (fun w' hw' => decide_eq_true ?_)
          rcases List.mem_append.mp hw' with hw' | hw'
          · exact (hle w' hw' w (by simp)).trans hr
          · rw [List.mem_singleton.mp hw']
            exact hr
        have hfilter : log.filter (fun w => decide (w.rev ≤ r)) = log :=
          List.filter_eq_self.mpr
            (fun w' hw' => decide_eq_true ((hle w' hw' w (by simp)).trans hr))
        rw [hfilter] at ih
        rw [hall, versions_append_one]
        split
        · have hnot : ¬ r < (w.version (current (versions log k))).rev.upper.toNat := by
            rw [Write.version, hw]
            omega
          rw [List.dropWhile_cons_of_neg (by simpa using hnot)]
        · exact ih
      · have hdrop : (log ++ [w]).filter (fun w => decide (w.rev ≤ r)) =
            log.filter (fun w => decide (w.rev ≤ r)) := by
          rw [List.filter_append, List.filter_singleton]
          simp [hr]
        rw [hdrop, ih, versions_append_one]
        split
        · have hlt : r < (w.version (current (versions log k))).rev.upper.toNat := by
            rw [Write.version, hw]
            omega
          rw [List.dropWhile_cons_of_pos (by simpa using hlt)]
        · rfl

/-- The snapshot at a revision holds the newest versions that are not above it. -/
theorem snapshotAt_eq {log : List Write} (hupper : ∀ w ∈ log, w.kr.upper.toNat = w.rev)
    (horder : log.Pairwise (fun a b => a.rev ≤ b.rev)) (r : Nat) (k : Bytes) :
    snapshotAt log r k =
      current ((versions log k).dropWhile (fun v => decide (r < v.rev.upper.toNat))) := by
  rw [snapshotAt, foldl_snapshotStep, versions_filter hupper horder]

namespace LogOk

theorem nil (lo hi : Nat) : LogOk [] lo hi where
  pos := by simp
  upper := by simp
  isdel := by simp
  key := by simp
  order := .nil
  lt := by simp
  inj := by simp
  desc := by simp

variable {log : List Write} {lo hi : Nat}

theorem mono {lo' hi' : Nat} (h : LogOk log lo hi) (hlo : lo ≤ lo') (hhi : hi ≤ hi') :
    LogOk log lo' hi' where
  pos := h.pos
  upper := h.upper
  isdel := h.isdel
  key := h.key
  order := h.order
  lt w hw := by
    have hlt := h.lt w hw
    split
    · rw [if_pos ‹_›] at hlt
      omega
    · rw [if_neg ‹_›] at hlt
      omega
  inj := h.inj
  desc := h.desc

/-- A version holds something exactly when its revision is no tombstone's. -/
theorem item_isSome (h : LogOk log lo hi) {k : Bytes} {v : Version} (hv : v ∈ versions log k) :
    v.item.isSome = true ↔ v.rev.isdel = false := by
  obtain ⟨w, hw, -, cur, rfl⟩ := write_of_mem_versions hv
  have hdel := h.isdel w hw
  simp only [Write.version]
  cases hop : w.op with
  | delete =>
      rw [hop] at hdel
      simp [entryAfter, hop, hdel]
  | put val lease ignoreValue ignoreLease =>
      have hlive : w.kr.isdel = false := by
        rw [hop] at hdel
        simpa using hdel
      cases cur <;> simp [entryAfter, hop, hlive]

theorem key_of_mem (h : LogOk log lo hi) {k : Bytes} {v : Version} (hv : v ∈ versions log k) :
    k ≠ [] ∧ k.length ≤ limitKeyLength := by
  obtain ⟨w, hw, rfl, -⟩ := write_of_mem_versions hv
  exact h.key w hw

/-- Two versions that hold something under one revision are one version. -/
theorem eq_of_rev_eq (h : LogOk log lo hi) {k k' : Bytes} {v v' : Version}
    (hv : v ∈ versions log k) (hv' : v' ∈ versions log k') (hlive : v.rev.isdel = false)
    (hrev : v.rev = v'.rev) : k = k' ∧ v = v' := by
  obtain ⟨w, hw, hk, cur, hvw⟩ := write_of_mem_versions hv
  obtain ⟨w', hw', hk', cur', hvw'⟩ := write_of_mem_versions hv'
  have hkr : w.kr = w'.kr := by
    rw [hvw, hvw'] at hrev
    exact hrev
  have hput : w.op ≠ .delete := by
    intro hop
    have hdel := (h.isdel w hw).mpr hop
    rw [hvw] at hlive
    exact absurd hdel (by simpa [Write.version] using hlive)
  obtain rfl := h.inj w hw w' hw' hput hkr
  have hkk : k = k' := hk.symm.trans hk'
  subst hkk
  refine ⟨rfl, ?_⟩
  by_contra hne
  have hdesc := List.pairwise_iff_getElem.mp (h.desc k)
  obtain ⟨i, hi, rfl⟩ := List.getElem_of_mem hv
  obtain ⟨j, hj, rfl⟩ := List.getElem_of_mem hv'
  have hword := congrArg (fun r : Keyrev => r.word.toNat) hrev
  rcases Nat.lt_trichotomy i j with hij | hij | hij
  · have := hdesc i j hi hj hij
    omega
  · subst hij
    exact hne rfl
  · have := hdesc j i hj hi hij
    omega

theorem append (h : LogOk log lo hi) {w : Write} {lo' hi' : Nat}
    (hlo : lo ≤ lo') (hhi : hi ≤ hi') (hpos : 0 < w.rev) (hupper : w.kr.upper.toNat = w.rev)
    (hisdel : w.kr.isdel = true ↔ w.op = .delete)
    (hkey : w.key ≠ [] ∧ w.key.length ≤ limitKeyLength)
    (hle : ∀ a ∈ log, a.kr.word.toNat ≤ w.kr.word.toNat)
    (hlt : w.kr.word.toNat < if w.op = .delete then hi' else lo')
    (hfresh : w.op ≠ .delete → ∀ a ∈ log, a.kr ≠ w.kr)
    (hnew : ∀ v ∈ versions log w.key, v.rev.word.toNat < w.kr.word.toNat) :
    LogOk (log ++ [w]) lo' hi' where
  pos := by simpa [or_imp, forall_and] using ⟨h.pos, hpos⟩
  upper := by simpa [or_imp, forall_and] using ⟨h.upper, hupper⟩
  isdel := by simpa [or_imp, forall_and] using ⟨h.isdel, hisdel⟩
  key a ha := by
    rcases List.mem_append.mp ha with ha | ha
    · exact h.key a ha
    · rw [List.mem_singleton.mp ha]
      exact hkey
  order := by
    refine List.pairwise_append.mpr ⟨h.order, List.pairwise_singleton _ _, fun a ha b hb => ?_⟩
    rw [List.mem_singleton.mp hb, ← hupper, ← h.upper a ha, Keyrev.upper_toNat, Keyrev.upper_toNat]
    exact Nat.div_le_div_right (hle a ha)
  lt a ha := by
    rcases List.mem_append.mp ha with ha | ha
    · exact (h.mono hlo hhi).lt a ha
    · rw [List.mem_singleton.mp ha]
      exact hlt
  inj a ha b hb hput heq := by
    rcases List.mem_append.mp ha with ha | ha
    · rcases List.mem_append.mp hb with hb | hb
      · exact h.inj a ha b hb hput heq
      · rw [List.mem_singleton.mp hb] at heq ⊢
        by_cases hop : w.op = .delete
        · have hdel := (h.isdel a ha).mp (by rw [heq]; exact hisdel.mpr hop)
          exact absurd hdel hput
        · exact absurd heq (hfresh hop a ha)
    · rw [List.mem_singleton.mp ha] at heq hput ⊢
      rcases List.mem_append.mp hb with hb | hb
      · exact absurd heq.symm (hfresh hput b hb)
      · exact (List.mem_singleton.mp hb).symm
  desc k := by
    rw [versions_append_one]
    split
    · rename_i hk
      rw [← hk]
      exact List.pairwise_cons.mpr ⟨hnew, h.desc w.key⟩
    · exact h.desc k

/-- A put newer than everything before it. -/
theorem append_put (h : LogOk log lo hi) {w : Write} {val : Bytes} {lease : UInt64}
    {ignoreValue ignoreLease : Bool} (hop : w.op = .put val lease ignoreValue ignoreLease)
    (hpos : 0 < w.rev) (hupper : w.kr.upper.toNat = w.rev) (hisdel : w.kr.isdel = false)
    (hkey : w.key ≠ [] ∧ w.key.length ≤ limitKeyLength)
    (hlo : lo ≤ w.kr.word.toNat) (hhi : hi ≤ w.kr.word.toNat) :
    LogOk (log ++ [w]) (w.kr.word.toNat + 1) (w.kr.word.toNat + 1) := by
  have hlt : ∀ a ∈ log, a.kr.word.toNat < w.kr.word.toNat := by
    intro a ha
    have := h.lt a ha
    split at this <;> omega
  refine h.append (by omega) (by omega) hpos hupper (by simp [hisdel, hop]) hkey
    (fun a ha => (hlt a ha).le) (by split <;> omega) (fun _ a ha heq => ?_) (fun v hv => ?_)
  · exact absurd (hlt a ha) (by rw [heq]; exact lt_irrefl _)
  · obtain ⟨a, ha, -, cur, rfl⟩ := write_of_mem_versions hv
    exact hlt a ha

/-- All versions of a key that holds something are below the bound of the puts. -/
theorem lt_of_live (h : LogOk log lo hi) {k : Bytes}
    (hlive : (current (versions log k)).isSome = true) {x : Version} (hx : x ∈ versions log k) :
    x.rev.word.toNat < lo := by
  cases hvs : versions log k with
  | nil =>
      rw [hvs] at hx
      exact absurd hx List.not_mem_nil
  | cons v vs =>
      rw [hvs, current_cons] at hlive
      have hv : v ∈ versions log k := by simp [hvs]
      have hhead : v.rev.word.toNat < lo := by
        obtain ⟨a, ha, -, cur, rfl⟩ := write_of_mem_versions hv
        have hput : a.op ≠ .delete := by
          intro hdel
          simp [Write.version, entryAfter, hdel] at hlive
        have := h.lt a ha
        rw [if_neg hput] at this
        exact this
      have hdesc := h.desc k
      rw [hvs] at hx hdesc
      rcases List.mem_cons.mp hx with rfl | hx
      · exact hhead
      · have := List.rel_of_pairwise_cons hdesc hx
        omega

/-- A tombstone of a key that holds something.  Tombstones of other keys may have
been written with the same revision. -/
theorem append_delete (h : LogOk log lo hi) {w : Write} (hop : w.op = .delete)
    (hpos : 0 < w.rev) (hupper : w.kr.upper.toNat = w.rev) (hisdel : w.kr.isdel = true)
    (hlo : lo ≤ w.kr.word.toNat) (hhi : hi = w.kr.word.toNat + 1)
    (hlive : (current (versions log w.key)).isSome = true) :
    LogOk (log ++ [w]) lo hi := by
  have hkey : w.key ≠ [] ∧ w.key.length ≤ limitKeyLength := by
    cases hvs : versions log w.key with
    | nil =>
        rw [hvs] at hlive
        cases hlive
    | cons v vs => exact h.key_of_mem (v := v) (by simp [hvs])
  refine h.append le_rfl le_rfl hpos hupper (by simp [hisdel, hop]) hkey (fun a ha => ?_)
    (by rw [if_pos hop]; omega) (fun hput => absurd hop hput) (fun x hx => ?_)
  · have := h.lt a ha
    split at this <;> omega
  · have := h.lt_of_live hlive hx
    omega

end LogOk

/-- A write leaves a version of its key. -/
theorem version_of_mem_log {log : List Write} {w : Write} (h : w ∈ log) :
    ∃ v ∈ versions log w.key, v.rev = w.kr := by
  induction log using List.reverseRecOn with
  | nil => cases h
  | append_singleton log w' ih =>
      rcases List.mem_append.mp h with h | h
      · obtain ⟨v, hv, hrev⟩ := ih h
        refine ⟨v, ?_, hrev⟩
        rw [versions_append_one]
        split
        · exact List.mem_cons_of_mem _ hv
        · exact hv
      · obtain rfl := List.mem_singleton.mp h
        rw [versions_append_self]
        exact ⟨_, List.mem_cons_self, rfl⟩

/-- No two writes of a key have one revision. -/
theorem nodup_writes {log : List Write}
    (hdesc : ∀ k, (versions log k).Pairwise (fun a b => b.rev.word.toNat < a.rev.word.toNat)) :
    (log.map (fun w => (w.key, w.kr))).Nodup := by
  induction log using List.reverseRecOn with
  | nil => exact .nil
  | append_singleton log w ih =>
      have hlast := hdesc w.key
      rw [versions_append_self, List.pairwise_cons] at hlast
      rw [List.map_append, List.map_singleton, ← List.concat_eq_append, List.nodup_concat]
      refine ⟨fun hmem => ?_, ih (fun k => ?_)⟩
      · obtain ⟨w', hw', heq⟩ := List.mem_map.mp hmem
        obtain ⟨hkey, hkr⟩ := Prod.mk.inj heq
        obtain ⟨v, hv, hrev⟩ := version_of_mem_log hw'
        rw [hkey] at hv
        have := hlast.1 v hv
        rw [hrev, hkr] at this
        exact lt_irrefl _ this
      · have hk := hdesc k
        rw [versions_append_one] at hk
        split at hk
        · exact (List.pairwise_cons.mp hk).2
        · exact hk

end Turbokube
