import Turbokube.Machine.Effect
import Turbokube.Model.Controller

/-!
# Only the newest controller advances the clock

The store refuses a TICK below its term.  This keeps the terms of the accepted ticks in
order as long as a controller proposes TICKs only of terms that the store has reached.  It
does so when every TERM it proposed was applied before the call returned, and when a
controller that becomes leader again is told so together with a new term (`Event.Heeded`).
-/

namespace Turbokube

variable {N : Type}

/-- The TERM that a controller waits for was applied. -/
def Controller.Settled (c : Controller) : Prop :=
  match c.waiting with
  | some ⟨.leaderUpdated _, applied⟩ => applied = true
  | some ⟨.setTerm, applied⟩ => applied = true
  | _ => True

instance (c : Controller) : Decidable c.Settled := by
  unfold Controller.Settled
  split <;> infer_instance

/-- What is asked of an event.  A call with a TERM returns only when it was applied.  A
notification that makes a node the leader of its shard, after an earlier term was proposed,
comes with a term other than the last one, or the store has reached that term. -/
def Event.Heeded (w : Cluster N) : Event N → Prop
  | .returned n _ => (w.nodes n).Settled
  | .leaderUpdated n info =>
      info.shardID = (w.nodes n).shardID → info.leaderID = info.replicaID →
      (w.nodes n).termSet = true → (w.nodes n).term = info.term →
      (w.nodes n).isLeader (w.nodes n).shardID = true ∨ info.term ≤ w.batch.store.dbMeta.term
  | _ => True

instance (w : Cluster N) (ev : Event N) : Decidable (ev.Heeded w) := by
  cases ev <;> unfold Event.Heeded <;> infer_instance

namespace Cluster

/-- Every event of a run is heeded when its turn comes. -/
def Heeds [DecidableEq N] (E : Env) (shard : UInt64) : List (Event N) → Cluster N → Prop
  | [], _ => True
  | ev :: evs, w =>
      ev.Heeded w ∧
        match w.step E shard ev with
        | none => True
        | some w => Heeds E shard evs w

end Cluster

/-- What holds of a controller next to a store of the given term. -/
structure Controller.Fenced (shard term : UInt64) (c : Controller) : Prop where
  idle : c.shardID = 0 → c.termSet = false ∧ c.waiting = none
  shard : c.shardID ≠ 0 → c.shardID = shard
  leader : c.isLeader c.shardID = true → c.termSet = true →
    (∀ t applied, c.waiting ≠ some ⟨.leaderUpdated t, applied⟩) → c.term ≤ term
  updated : ∀ t, c.waiting = some ⟨.leaderUpdated t, true⟩ → t ≤ term
  set : c.waiting = some ⟨.setTerm, true⟩ → c.term ≤ term
  tick : ∀ applied, c.waiting = some ⟨.tick, applied⟩ → c.term ≤ term

structure Cluster.Fenced (shard : UInt64) (w : Cluster N) : Prop where
  nodes : ∀ n, (w.nodes n).Fenced shard w.batch.store.dbMeta.term
  late : ∀ t, .tick t ∈ w.late → t ≤ w.batch.store.dbMeta.term
  accepted : ∀ t ∈ w.accepted, t ≤ w.batch.store.dbMeta.term
  sorted : w.accepted.Pairwise (· ≤ ·)

namespace Controller.Fenced

variable {shard term : UInt64} {c : Controller}

theorem mono (h : c.Fenced shard term) {term' : UInt64} (hle : term ≤ term') :
    c.Fenced shard term' where
  idle := h.idle
  shard := h.shard
  leader hlead hset hwait := UInt64.le_trans (h.leader hlead hset hwait) hle
  updated t hwait := UInt64.le_trans (h.updated t hwait) hle
  set hwait := UInt64.le_trans (h.set hwait) hle
  tick applied hwait := UInt64.le_trans (h.tick applied hwait) hle

/-- An idle controller waits for nothing. -/
theorem of_idle (hidle : c.shardID = 0 → c.termSet = false)
    (hshard : c.shardID ≠ 0 → c.shardID = shard)
    (hwait : c.waiting = none)
    (hlead : c.isLeader c.shardID = true → c.termSet = true → c.term ≤ term) :
    c.Fenced shard term where
  idle h0 := ⟨hidle h0, hwait⟩
  shard := hshard
  leader hl hs _ := hlead hl hs
  updated t h := by rw [hwait] at h; cases h
  set h := by rw [hwait] at h; cases h
  tick applied h := by rw [hwait] at h; cases h

theorem start (h : c.Fenced shard term) (hshard : shard ≠ 0) :
    (c.start shard).Fenced shard term := by
  by_cases h0 : c.shardID = 0
  · obtain ⟨hset, hwait⟩ := h.idle h0
    refine of_idle (fun hzero => absurd hzero hshard) (fun _ => rfl) hwait (fun _ hs => ?_)
    rw [show (c.start shard).termSet = c.termSet from rfl, hset] at hs
    cases hs
  · have hsame : c.start shard = c := by
      rw [Controller.start, ← h.shard h0]
    rw [hsame]
    exact h

/-- A TICK is proposed only of a term that the store has reached. -/
theorem waitTick (h : c.Fenced shard term) (hstarted : c.shardID ≠ 0) (hset : Bool)
    (hle : c.term ≤ term) :
    ({ c with
      termSet := hset
      waiting := some { site := .tick } } : Controller).Fenced shard term where
  idle h0 := absurd h0 hstarted
  shard := h.shard
  leader _ _ _ := hle
  updated t hwait := by cases hwait
  set hwait := by cases hwait
  tick _ _ := hle

theorem doTick (h : c.Fenced shard term) (hwait : c.waiting = none) (hstarted : c.shardID ≠ 0) :
    c.tick.Fenced shard term := by
  unfold Controller.tick
  split
  · rename_i hlead
    split
    · rename_i hunset
      exact {
        idle := fun h0 => absurd h0 hstarted
        shard := h.shard
        leader := fun _ hs _ => by rw [hs] at hunset; exact absurd hunset.1 (by decide)
        updated := fun t hw => by cases hw
        set := fun hw => by cases hw
        tick := fun applied hw => by cases hw }
    · rename_i hset
      have hle : c.term ≤ term := by
        by_cases hts : c.termSet = true
        · exact h.leader hlead hts (fun t applied hw => by rw [hwait] at hw; cases hw)
        · have hzero : c.term = 0 := by
            by_contra hne
            exact hset ⟨by simpa using hts, UInt64.pos_iff_ne_zero.mpr hne⟩
          rw [hzero]
          exact UInt64.zero_le
      exact h.waitTick hstarted c.termSet hle
  · exact h

theorem leaderUpdated (h : c.Fenced shard term) (hwait : c.waiting = none) {info : LeaderInfo}
    (hheeded : info.shardID = c.shardID → info.leaderID = info.replicaID → c.termSet = true →
      c.term = info.term → c.isLeader c.shardID = true ∨ info.term ≤ term) :
    (c.leaderUpdated info).Fenced shard term := by
  unfold Controller.leaderUpdated
  simp only
  split
  · rename_i hsend
    exact {
      idle := fun h0 => absurd h0 hsend.1
      shard := h.shard
      leader := fun _ _ hw => absurd rfl (hw info.term false)
      updated := fun t hw => by cases hw
      set := fun hw => by cases hw
      tick := fun applied hw => by cases hw }
  · rename_i hkeep
    refine of_idle (fun h0 => (h.idle h0).1) h.shard hwait (fun hlead hset => ?_)
    simp only at hlead hset ⊢
    have hstarted : c.shardID ≠ 0 := by
      intro h0
      rw [(h.idle h0).1] at hset
      cases hset
    have hterm : c.term = info.term := by
      by_contra hne
      exact hkeep ⟨hstarted, hlead, hne⟩
    have hold : c.isLeader c.shardID = true → info.term ≤ term := by
      intro hwas
      rw [← hterm]
      exact h.leader hwas hset (fun t applied hw => by rw [hwait] at hw; cases hw)
    by_cases hid : info.shardID = c.shardID
    · rw [← hid, Function.update_self, beq_iff_eq] at hlead
      rcases hheeded hid hlead hset hterm with hwas | hle
      · exact hold hwas
      · exact hle
    · rw [Function.update_of_ne (fun heq => hid heq.symm)] at hlead
      exact hold hlead

/-- The store has taken the proposal of a call. -/
theorem applied (h : c.Fenced shard term) {site : CallSite} (hwait : c.waiting = some ⟨site, false⟩)
    (hterm : ∀ t, c.proposal site = .term t → t ≤ term) :
    ({ c with waiting := some ⟨site, true⟩ } : Controller).Fenced shard term := by
  have hstarted : c.shardID ≠ 0 := by
    intro h0
    rw [(h.idle h0).2] at hwait
    cases hwait
  refine ⟨fun h0 => absurd h0 hstarted, h.shard, fun hl hs hw => ?_, fun t hw => ?_, fun hw => ?_,
    fun a hw => ?_⟩
  · refine h.leader hl hs (fun t a heq => ?_)
    rw [hwait] at heq
    obtain ⟨rfl, -⟩ := Waiting.mk.inj (Option.some.inj heq)
    exact hw t true rfl
  · obtain ⟨rfl, -⟩ := Waiting.mk.inj (Option.some.inj hw)
    exact hterm t rfl
  · obtain ⟨rfl, -⟩ := Waiting.mk.inj (Option.some.inj hw)
    exact hterm c.term rfl
  · obtain ⟨rfl, -⟩ := Waiting.mk.inj (Option.some.inj hw)
    exact h.tick false hwait

theorem returned (h : c.Fenced shard term) (hsettled : c.Settled) {site : CallSite} {a : Bool}
    (hwait : c.waiting = some ⟨site, a⟩) : (c.returned site).Fenced shard term := by
  have hstarted : c.shardID ≠ 0 := by
    intro h0
    rw [(h.idle h0).2] at hwait
    cases hwait
  rw [Controller.Settled, hwait] at hsettled
  cases site with
  | leaderUpdated t =>
      obtain rfl : a = true := hsettled
      exact of_idle (fun h0 => absurd h0 hstarted) h.shard rfl (fun _ _ => h.updated t hwait)
  | setTerm =>
      obtain rfl : a = true := hsettled
      exact h.waitTick hstarted true (h.set hwait)
  | tick =>
      exact of_idle (fun h0 => absurd h0 hstarted) h.shard rfl (fun _ _ => h.tick a hwait)

end Controller.Fenced

/-- The term of the store does not decrease, and a TERM raises it to its own. -/
theorem Effect.term_le {E : Env} {b b' : Batch} {cmd : Cmd} (h : Effect E b cmd b') :
    b.store.dbMeta.term ≤ b'.store.dbMeta.term := by
  cases h with
  | term hterm => exact UInt64.not_lt.mp hterm
  | _ => exact UInt64.le_refl _

theorem le_term_of_applyTerm {E : Env} {b b' : Batch} {ent : Entry} {res : Result} {t : UInt64}
    (hcmd : ent.cmd = .term t) (h : applyEntry E b ent = .ok (b', res)) :
    t ≤ b'.store.dbMeta.term := by
  rw [applyEntry, hcmd] at h
  simp only [applyTerm] at h
  split at h
  · rename_i hlt
    obtain ⟨rfl, -⟩ := Prod.mk.inj (Except.ok.inj h)
    exact UInt64.le_of_lt hlt
  · obtain ⟨rfl, -⟩ := Prod.mk.inj (Except.ok.inj h)
    exact UInt64.le_refl _

/-- A TICK that advances the epoch is not below the term of the store, which it keeps. -/
theorem term_of_applyTick {E : Env} {b b' : Batch} {ent : Entry} {res : Result} {t : UInt64}
    (hcmd : ent.cmd = .tick t) (h : applyEntry E b ent = .ok (b', res))
    (hepoch : b'.epoch ≠ b.epoch) :
    b.store.dbMeta.term ≤ t ∧ b'.store.dbMeta.term = b.store.dbMeta.term := by
  rw [applyEntry, hcmd] at h
  simp only [applyTick] at h
  split at h
  · obtain ⟨rfl, -⟩ := Prod.mk.inj (Except.ok.inj h)
    exact absurd rfl hepoch
  · rename_i hle
    split at h
    · cases h
    · obtain ⟨rfl, -⟩ := Prod.mk.inj (Except.ok.inj h)
      exact ⟨UInt64.not_lt.mp hle, rfl⟩

namespace Cluster

variable {E : Env} {shard : UInt64} {w w' : Cluster N}

theorem Fenced.init : (Cluster.init : Cluster N).Fenced shard where
  nodes _ := .of_idle (fun _ => rfl) (fun h0 => absurd rfl h0) rfl (fun _ hs => by cases hs)
  late t ht := by cases ht
  accepted t ht := by cases ht
  sorted := .nil

/-- What an entry does to the cluster: the store and the accepted ticks change. -/
theorem Fenced.apply {ent : Entry} (h : w.Fenced shard)
    (htick : ∀ t, ent.cmd = .tick t → t ≤ w.batch.store.dbMeta.term)
    (happly : w.apply E ent = some w') :
    w'.Fenced shard ∧ w'.nodes = w.nodes ∧ w'.late = w.late ∧
      ∀ t, ent.cmd = .term t → t ≤ w'.batch.store.dbMeta.term := by
  unfold Cluster.apply at happly
  split at happly
  · cases happly
  · rename_i b res hentry
    have hle := (effect_of_applyEntry hentry).term_le
    obtain rfl := Option.some.inj happly
    have hkeep : ∀ t ∈ w.accepted, t ≤ b.store.dbMeta.term := fun t ht =>
      UInt64.le_trans (h.accepted t ht) hle
    refine ⟨⟨fun n => (h.nodes n).mono hle, fun t ht => UInt64.le_trans (h.late t ht) hle, ?_, ?_⟩,
      rfl, rfl, fun t ht => le_term_of_applyTerm ht hentry⟩
    · intro t ht
      simp only at ht
      split at ht
      · rename_i term hcmd
        split at ht
        · rcases List.mem_append.mp ht with ht | ht
          · exact hkeep t ht
          · rw [List.mem_singleton.mp ht]
            exact UInt64.le_trans (htick term hcmd) hle
        · exact hkeep t ht
      · exact hkeep t ht
    · simp only
      split
      · rename_i term hcmd
        split
        · rename_i hepoch
          refine List.pairwise_append.mpr ⟨h.sorted, List.pairwise_singleton _ _, ?_⟩
          intro t ht x hx
          rw [List.mem_singleton.mp hx]
          exact UInt64.le_trans (h.accepted t ht) (term_of_applyTick hcmd hentry hepoch).1
        · exact h.sorted
      · exact h.sorted

variable [DecidableEq N]

theorem setNode_nodes (w : Cluster N) (n n' : N) (c : Controller) :
    (w.setNode n c).nodes n' = if n' = n then c else w.nodes n' :=
  Function.update_apply w.nodes n c n'

theorem Fenced.setNode (h : w.Fenced shard) (n : N) {c : Controller}
    (hc : c.Fenced shard w.batch.store.dbMeta.term) : (w.setNode n c).Fenced shard where
  nodes n' := by
    rw [setNode_nodes]
    split
    · exact hc
    · exact h.nodes n'
  late := h.late
  accepted := h.accepted
  sorted := h.sorted

theorem Fenced.step {ev : Event N} (h : w.Fenced shard) (hheeded : ev.Heeded w)
    (hstep : w.step E shard ev = some w') : w'.Fenced shard := by
  cases ev with
  | start n =>
      simp only [Cluster.step] at hstep
      split at hstep
      · cases hstep
      · rename_i hshard
        obtain rfl := Option.some.inj hstep
        exact h.setNode n ((h.nodes n).start hshard)
  | leaderUpdated n info =>
      simp only [Cluster.step] at hstep
      split at hstep
      · cases hstep
      · rename_i hguard
        obtain rfl := Option.some.inj hstep
        have hwait : (w.nodes n).waiting = none :=
          Classical.not_not.mp (fun hne => hguard (.inl hne))
        exact h.setNode n ((h.nodes n).leaderUpdated hwait hheeded)
  | tick n =>
      simp only [Cluster.step] at hstep
      split at hstep
      · cases hstep
      · rename_i hguard
        obtain rfl := Option.some.inj hstep
        have hwait : (w.nodes n).waiting = none :=
          Classical.not_not.mp (fun hne => hguard (.inl hne))
        exact h.setNode n ((h.nodes n).doTick hwait (fun h0 => hguard (.inr h0)))
  | applied n index =>
      simp only [Cluster.step] at hstep
      split at hstep
      · rename_i site hwait
        obtain ⟨w₁, happly, rfl⟩ := Option.map_eq_some_iff.mp hstep
        have htick : ∀ t, (w.nodes n).proposal site = .tick t → t ≤ w.batch.store.dbMeta.term := by
          intro t ht
          cases site with
          | tick =>
              obtain rfl := Cmd.tick.inj ht
              exact (h.nodes n).tick false hwait
          | _ => cases ht
        obtain ⟨h₁, hnodes, -, hterm⟩ := h.apply htick happly
        refine h₁.setNode n ?_
        have hn := h₁.nodes n
        rw [hnodes] at hn
        exact hn.applied hwait hterm
      · cases hstep
  | returned n ok =>
      simp only [Cluster.step] at hstep
      split at hstep
      · rename_i site hwait
        obtain rfl := Option.some.inj hstep
        exact h.setNode n ((h.nodes n).returned hheeded hwait)
      · rename_i site hwait
        split at hstep
        · cases hstep
        · obtain rfl := Option.some.inj hstep
          have hset := h.setNode n ((h.nodes n).returned hheeded hwait)
          refine ⟨hset.nodes, fun t ht => ?_, hset.accepted, hset.sorted⟩
          rcases List.mem_append.mp ht with ht | ht
          · exact h.late t ht
          · -- a TICK that may still be applied has a term that the store has reached
            have heq := List.mem_singleton.mp ht
            cases site with
            | tick =>
                obtain rfl := Cmd.tick.inj heq
                exact (h.nodes n).tick false hwait
            | _ => cases heq
      · cases hstep
  | appliedLate i index =>
      simp only [Cluster.step] at hstep
      split at hstep
      · cases hstep
      · rename_i cmd hcmd
        have hrest : ({ w with late := w.late.eraseIdx i } : Cluster N).Fenced shard :=
          ⟨h.nodes, fun t ht => h.late t (List.mem_of_mem_eraseIdx ht), h.accepted, h.sorted⟩
        refine (hrest.apply (fun t ht => h.late t ?_) hstep).1
        rw [← ht]
        exact List.mem_of_getElem? hcmd
  | client ent =>
      simp only [Cluster.step] at hstep
      split at hstep
      · cases hstep
      · rename_i hclient
        refine (h.apply (fun t ht => ?_) hstep).1
        rw [ht] at hclient
        exact absurd rfl hclient
  | commit index =>
      obtain rfl := Option.some.inj hstep
      exact ⟨h.nodes, h.late, h.accepted, h.sorted⟩

theorem Fenced.run {evs : List (Event N)} (h : w.Fenced shard) (hheeds : Heeds E shard evs w)
    (hrun : w.run E shard evs = some w') : w'.Fenced shard := by
  induction evs generalizing w with
  | nil =>
      obtain rfl := Option.some.inj hrun
      exact h
  | cons ev evs ih =>
      rw [Cluster.run] at hrun
      split at hrun
      · cases hrun
      · rename_i w₁ hstep
        rw [Heeds, hstep] at hheeds
        exact ih (h.step hheeds.1 hstep) hheeds.2 hrun

instance Heeds.decidable (E : Env) (shard : UInt64) :
    (evs : List (Event N)) → (w : Cluster N) → Decidable (Heeds E shard evs w)
  | [], _ => .isTrue trivial
  | ev :: evs, w => by
      unfold Heeds
      cases w.step E shard ev with
      | none => exact inferInstanceAs (Decidable (ev.Heeded w ∧ True))
      | some w' =>
          have := Heeds.decidable E shard evs w'
          exact inferInstanceAs (Decidable (ev.Heeded w ∧ Heeds E shard evs w'))

end Cluster

/-- In every run whose events are heeded, the terms of the ticks that advance the epoch do not
decrease. -/
theorem accepted_terms_sorted [DecidableEq N] {E : Env} {shard : UInt64} {evs : List (Event N)}
    {w : Cluster N} (hheeds : Cluster.Heeds E shard evs .init)
    (hrun : Cluster.run E shard evs .init = some w) : w.accepted.Pairwise (· ≤ ·) :=
  (Cluster.Fenced.init.run hheeds hrun).sorted

section Concrete

/-- Node `n` is told that its replica leads shard 1, and its TERM is applied. -/
def leads (n : Bool) (term : UInt64) : List (Event Bool) :=
  [.leaderUpdated n ⟨1, if n then 2 else 1, if n then 2 else 1, term⟩, .applied n 0,
      .returned n true]

/-- A tick of a controller that has set its term. -/
def ticks (n : Bool) : List (Event Bool) := [.tick n, .applied n 0, .returned n true]

theorem accepted_terms_sorted_two_leaders :
    ∃ w ∈ Cluster.run .plain 1 ([.start false, .start true] ++ leads false 1 ++ ticks false ++
        leads true 2 ++ ticks true ++ ticks false) .init,
      w.accepted = [1, 2] ∧ w.accepted.Pairwise (· ≤ ·) := by
  obtain ⟨w, hw, haccepted⟩ : ∃ w ∈ Cluster.run .plain 1 ([.start false, .start true] ++
      leads false 1 ++ ticks false ++ leads true 2 ++ ticks true ++ ticks false) .init,
      w.accepted = [1, 2] := by decide +kernel
  exact ⟨w, hw, haccepted, accepted_terms_sorted (by decide +kernel) hw⟩

/-- Two ways for the stale leader to be accepted after the new one.  In the first run the TERM
of the new leader fails.  In the second the new leader hears of its term before it hears that
it leads, so it never proposes the TERM, having proposed one before. -/
theorem accepted_terms_out_of_order :
    (∃ w ∈ Cluster.run .plain 1 ([.start false, .start true] ++ leads false 1 ++ ticks false ++
        [.leaderUpdated true ⟨1, 2, 2, 2⟩, .returned true false] ++ ticks true ++
          ticks false) .init,
      w.accepted = [1, 2, 1]) ∧
    ∃ w ∈ Cluster.run .plain 1 ([.start false, .start true] ++ leads true 1 ++ leads false 2 ++
        ticks false ++ [.leaderUpdated true ⟨1, 2, 0, 3⟩, .leaderUpdated true ⟨1, 2, 2, 3⟩] ++
        ticks true ++ ticks false) .init,
      w.accepted = [2, 3, 2] := by
  decide +kernel

end Concrete

end Turbokube
