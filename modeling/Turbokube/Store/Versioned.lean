import Turbokube.Store.Rep

/-!
# Writes keep the representation

`Versioned E S U db bound`: the tables represent versions whose revisions are below
`bound`, and under `U` none of them has been compacted away.  Writes put the same
versions before a chain and before the whole history (`Extends`), whatever has been
compacted away.  A run of commands of at most 1024 operations keeps the bound.
-/

namespace Turbokube

open Encoding Lmdb

namespace DbKv

/-- The keys of tombstones hold nothing, and the other keys what they held. -/
theorem versions_tombstones (db : DbKv) (rev subrev : Nat) (epoch : UInt64) (ks : List Bytes)
    (k : Bytes) :
    (k ∉ ks ∧ versions (db.tombstones rev subrev epoch ks).log k = versions db.log k) ∨
      k ∈ ks ∧ ∃ v vs, versions (db.tombstones rev subrev epoch ks).log k = v :: vs ∧
        v.item = none := by
  have hmap : (ks.map (fun k => (⟨rev, revAt rev subrev true, k, .delete⟩ : Write))).map Write.key =
      ks := by
    rw [List.map_map]
    conv => rhs; rw [← List.map_id ks]
    rfl
  have hcases := @versions_deletes db.log
    (ks.map (fun k => ⟨rev, revAt rev subrev true, k, .delete⟩)) (by simp) k
  rwa [hmap, ← tombstones_log rev subrev epoch ks db] at hcases

def Versioned (E : Env) (S U : Prop) (db : DbKv) (bound : Nat) : Prop :=
  ∃ ch, db.Rep E S ch ∧ LogOk db.log bound bound ∧ (U → ∀ k, ch k = versions db.log k)

variable {E : Env} {S U : Prop} {A : PutRequest → Prop} {db db' : DbKv}
  {ch ch' : Bytes → List Version} {log log' : List Write} {lo hi bound : Nat}

theorem Versioned.empty : DbKv.empty.Versioned E S U bound :=
  ⟨_, .empty, .nil _ _, fun _ _ => rfl⟩

theorem Versioned.recsOk (h : db.Versioned E S U bound) : db.RecsOk := by
  obtain ⟨ch, hrep, -⟩ := h
  exact hrep.recsOk

theorem Versioned.mono {bound' : Nat} (h : db.Versioned E S U bound) (hle : bound ≤ bound') :
    db.Versioned E S U bound' := by
  obtain ⟨ch, hrep, hlog, hall⟩ := h
  exact ⟨ch, hrep, hlog.mono hle hle, hall⟩

/-- The same versions come before the chains as come before the histories. -/
def Extends (ch : Bytes → List Version) (log : List Write) (ch' : Bytes → List Version)
    (log' : List Write) : Prop :=
  ∀ k, ∃ new, ch' k = new ++ ch k ∧ versions log' k = new ++ versions log k

theorem Extends.refl (ch : Bytes → List Version) (log : List Write) : Extends ch log ch log :=
  fun _ => ⟨[], rfl, rfl⟩

theorem Extends.trans {ch'' : Bytes → List Version} {log'' : List Write}
    (h : Extends ch log ch' log') (h' : Extends ch' log' ch'' log'') :
    Extends ch log ch'' log'' := by
  intro k
  obtain ⟨new, hch, hlog⟩ := h k
  obtain ⟨new', hch', hlog'⟩ := h' k
  refine ⟨new' ++ new, ?_, ?_⟩
  · rw [hch', hch, List.append_assoc]
  · rw [hlog', hlog, List.append_assoc]

/-- One write. -/
theorem Extends.write {w : Write} (hcur : current (ch w.key) = current (versions log w.key)) :
    Extends ch log (Function.update ch w.key (w.version (current (ch w.key)) :: ch w.key))
      (log ++ [w]) := by
  intro k
  by_cases hk : k = w.key
  · subst hk
    refine ⟨[w.version (current (ch w.key))], ?_, ?_⟩
    · rw [Function.update_self]
      rfl
    · rw [versions_append_self, hcur]
      rfl
  · refine ⟨[], ?_, ?_⟩
    · rw [Function.update_of_ne hk]
      rfl
    · rw [versions_append_ne _ hk]
      rfl

/-- A chain that was the whole history stays the whole history. -/
theorem Extends.eq_versions (h : Extends ch log ch' log') (hall : ∀ k, ch k = versions log k)
    (k : Bytes) : ch' k = versions log' k := by
  obtain ⟨new, hch, hlog⟩ := h k
  rw [hch, hlog, hall]

theorem Rep.tombstone_logOk (hrep : db.Rep E S ch) (hlog : LogOk db.log lo hi) {rev subrev : Nat}
    {epoch : UInt64} {k : Bytes} (hpos : 0 < rev) (hrev : rev < 2 ^ 52) (hsub : subrev < 1024)
    (hlo : lo = rev * 4096 + subrev * 4) (hhi : hi = rev * 4096 + subrev * 4 + 3)
    (hlive : (current (ch k)).isSome = true) :
    LogOk (db.tombstone rev subrev epoch k).log lo hi := by
  have hword := revAt_toNat hrev hsub true
  simp only [if_true] at hword
  refine hlog.append_delete (w := ⟨rev, revAt rev subrev true, k, .delete⟩) rfl hpos
    (revAt_upper hrev hsub true) (revAt_isdel _ _ _) (by simp only; omega) (by simp only; omega) ?_
  rw [← hrep.current_eq]
  exact hlive

/-- The chains after an operation, and what they have in common with the histories. -/
theorem Rep.tombstones_extends (hrep : db.Rep E S ch) (hlog : LogOk db.log lo hi)
    {rev subrev : Nat} {epoch : UInt64} {ks : List Bytes} (hpos : 0 < rev) (hrev : rev < 2 ^ 52)
    (hsub : subrev < 1024) (hlo : lo = rev * 4096 + subrev * 4)
    (hhi : hi = rev * 4096 + subrev * 4 + 3) (hchain : LiveChain rev subrev epoch ks db) :
    ∃ ch', (db.tombstones rev subrev epoch ks).Rep E S ch' ∧
      LogOk (db.tombstones rev subrev epoch ks).log lo hi ∧
      Extends ch db.log ch' (db.tombstones rev subrev epoch ks).log := by
  induction ks generalizing db ch with
  | nil => exact ⟨ch, hrep, hlog, .refl _ _⟩
  | cons k ks ih =>
      have hword := revAt_toNat hrev hsub true
      simp only [if_true] at hword
      have hlive := (hrep.live_iff hlog k).mp hchain.1
      obtain ⟨ch', hrep', hlog', hext⟩ := ih (hrep.tombstone hlog epoch (by omega) hlive)
        (hrep.tombstone_logOk hlog hpos hrev hsub hlo hhi hlive) hchain.2
      exact ⟨ch', hrep', hlog', (Extends.write (w := ⟨rev, revAt rev subrev true, k, .delete⟩)
        (hrep.current_eq k)).trans hext⟩

theorem Rep.opStep_extends {rev subrev : Nat} (hA : ∀ req, A req → S → req.ignoreValue = true →
      req.value = []) (hrep : db.Rep E S ch)
    (hlog : LogOk db.log (rev * 4096 + subrev * 4) (rev * 4096 + subrev * 4)) (hpos : 0 < rev)
    (hrev : rev < 2 ^ 52) (hsub : subrev < 1024) (hop : OpStep E A rev subrev db db') :
    ∃ ch', db'.Rep E S ch' ∧
      LogOk db'.log (rev * 4096 + (subrev + 1) * 4) (rev * 4096 + (subrev + 1) * 4) ∧
      Extends ch db.log ch' db'.log := by
  cases hop with
  | @put _ epoch req prev next patched hreq hput =>
      have hword := revAt_toNat hrev hsub false
      simp only [Bool.false_eq_true, if_false, Nat.add_zero] at hword
      obtain ⟨hlog', hrep'⟩ := hrep.put hlog (hA req hreq) (by omega) (by omega) hput
      have hok := hlog.append_put
        (w := ⟨rev, revAt rev subrev false, req.key,
          .put req.value req.lease.toUInt64 req.ignoreValue req.ignoreLease⟩) rfl hpos
        (revAt_upper hrev hsub false) (revAt_isdel _ _ _) (key_of_put_ok hput)
        (by simp only; omega) (by simp only; omega)
      rw [← hlog'] at hok
      refine ⟨_, hrep', hok.mono (by simp only; omega) (by simp only; omega), ?_⟩
      -- the version `put` adds is the one of its write
      have hcur := hrep'.current_eq req.key
      rw [Function.update_self, hlog', versions_append_self, ← hrep.current_eq] at hcur
      have hversion : Write.version ⟨rev, revAt rev subrev false, req.key,
          .put req.value req.lease.toUInt64 req.ignoreValue req.ignoreLease⟩
          (current (ch req.key)) = ⟨revAt rev subrev false, req.lease.toUInt64, some next⟩ := by
        rw [Write.version, ← show some next = entryAfter (current (ch req.key)) _ from hcur]
        rfl
      rw [hlog', ← hversion]
      exact Extends.write (w := ⟨rev, revAt rev subrev false, req.key,
        .put req.value req.lease.toUInt64 req.ignoreValue req.ignoreLease⟩)
        (hrep.current_eq req.key)
  | tombs hchain =>
      obtain ⟨ch', hrep', hlog', hext⟩ := hrep.tombstones_extends
        (hlog.mono le_rfl (Nat.le_add_right _ 3)) hpos hrev hsub rfl rfl hchain
      exact ⟨ch', hrep', hlog'.mono (by omega) (by omega), hext⟩

theorem Versioned.opStep {rev subrev : Nat} (hA : ∀ req, A req → S → req.ignoreValue = true →
      req.value = []) (h : db.Versioned E S U (rev * 4096 + subrev * 4)) (hpos : 0 < rev)
    (hrev : rev < 2 ^ 52) (hsub : subrev < 1024) (hop : OpStep E A rev subrev db db') :
    db'.Versioned E S U (rev * 4096 + (subrev + 1) * 4) := by
  obtain ⟨ch, hrep, hlog, hall⟩ := h
  obtain ⟨ch', hrep', hlog', hext⟩ := hrep.opStep_extends hA hlog hpos hrev hsub hop
  exact ⟨ch', hrep', hlog', fun hU => hext.eq_versions (hall hU)⟩

theorem Versioned.kvRun {r r' : Nat} (hA : ∀ req, A req → S → req.ignoreValue = true →
      req.value = []) (h : db.Versioned E S U ((r + 1) * 4096)) (hr' : r' < 2 ^ 52)
    (hrun : KvRun E A 1024 db r db' r') : db'.Versioned E S U ((r' + 1) * 4096) :=
  hrun.keeps_below Versioned.mono
    (fun hpos hrev hsub hver hop => hver.opStep hA hpos hrev hsub hop) h hr'

end DbKv

end Turbokube
