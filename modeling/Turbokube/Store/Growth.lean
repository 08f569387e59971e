import Turbokube.Store.Events

/-!
# How the event table grows

Writes only add events, and those of later commands come after all that are there.  `Grows`
says so without the order: what was there stays, and what is new lies between two words and
belongs to one of the keys written.  `Grows.events` gives the order back.
-/

namespace Turbokube

open Encoding Lmdb

namespace DbKv

/-- From `db` to `db'` events were added, with words from `lo` on and below `hi` and keys in
`K`. -/
structure Grows (db db' : DbKv) (lo hi : Nat) (K : Bytes → Prop) : Prop where
  old : ∀ p ∈ db.evt.pairs, p ∈ db'.evt.pairs
  new : ∀ p ∈ db'.evt.pairs, p ∈ db.evt.pairs ∨
    EvtOk p ∧ lo ≤ (decodeEvt p).rev.word.toNat ∧ (decodeEvt p).rev.word.toNat < hi ∧
      K (decodeEvt p).key

variable {E : Env} {S : Prop} {db db' db'' : DbKv} {lo mid hi : Nat} {K K' : Bytes → Prop}

namespace Grows

theorem refl (db : DbKv) (lo hi : Nat) (K : Bytes → Prop) : Grows db db lo hi K :=
  ⟨fun _ hp => hp, fun _ hp => .inl hp⟩

theorem mono {lo' hi' : Nat} (h : Grows db db' lo hi K) (hlo : lo' ≤ lo) (hhi : hi ≤ hi')
    (hK : ∀ k, K k → K' k) : Grows db db' lo' hi' K' := by
  refine ⟨h.old, fun p hp => ?_⟩
  rcases h.new p hp with hold | ⟨hok, hle, hlt, hk⟩
  · exact .inl hold
  · exact .inr ⟨hok, hlo.trans hle, hlt.trans_le hhi, hK _ hk⟩

theorem trans (h : Grows db db' lo hi K) (h' : Grows db' db'' lo hi K) : Grows db db'' lo hi K := by
  refine ⟨fun p hp => h'.old p (h.old p hp), fun p hp => ?_⟩
  rcases h'.new p hp with hold | hnew
  · exact h.new p hold
  · exact .inr hnew

/-- One event more. -/
theorem event {kr : Keyrev} {epoch : UInt64} {key : Bytes}
    (hevt : db'.evt = db.evt.put kr.key (evtBytes kr epoch key)) (hlo : lo ≤ kr.word.toNat)
    (hhi : kr.word.toNat < hi) (hK : K key) : Grows db db' lo hi K := by
  refine ⟨fun p hp => ?_, fun p hp => ?_⟩
  · rw [DupTable.mem_pairs] at hp ⊢
    rw [hevt, DupTable.mem_dups_put]
    exact .inr hp
  · rw [DupTable.mem_pairs, hevt, DupTable.mem_dups_put] at hp
    rcases hp with ⟨hk, hv⟩ | hp
    · obtain rfl : p = (kr.key, evtBytes kr epoch key) := Prod.ext hk hv
      rw [decodeEvt_evtBytes]
      exact .inr ⟨evtOk_evtBytes _ _ _, hlo, hhi, hK⟩
    · exact .inl (DupTable.mem_pairs.mpr hp)

theorem tombstones {rev subrev : Nat} {epoch : UInt64} {ks : List Bytes}
    (hlo : lo ≤ (revAt rev subrev true).word.toNat) (hhi : (revAt rev subrev true).word.toNat < hi)
    (hK : ∀ k ∈ ks, K k) : Grows db (db.tombstones rev subrev epoch ks) lo hi K := by
  induction ks generalizing db with
  | nil => exact .refl db lo hi K
  | cons k ks ih =>
      have hone : Grows db (db.tombstone rev subrev epoch k) lo hi K :=
        .event rfl hlo hhi (hK k List.mem_cons_self)
      exact hone.trans (ih (fun k' hk' => hK k' (List.mem_cons_of_mem _ hk')))

theorem put {rev subrev : Nat} {lease epoch : UInt64} {key val : Bytes}
    {ignoreValue ignoreLease patched : Bool} {prev next : Kv}
    (hput : db.put E rev subrev lease epoch key val ignoreValue ignoreLease =
      .ok (db', prev, next, patched))
    (hlo : lo ≤ (revAt rev subrev false).word.toNat)
    (hhi : (revAt rev subrev false).word.toNat < hi) (hK : K key) : Grows db db' lo hi K := by
  obtain ⟨-, hevt, -⟩ := put_tables hput
  exact .event hevt hlo hhi hK

/-- The new events come after the old ones. -/
theorem events (h : Grows db db' lo hi K)
    (hold : ∀ p ∈ db.evt.pairs, EvtOk p ∧ (decodeEvt p).rev.word.toNat < lo) :
    ∃ new, db'.events = db.events ++ new ∧
      ∀ evt ∈ new, lo ≤ evt.rev.word.toNat ∧ evt.rev.word.toNat < hi ∧ K evt.key := by
  have hok : ∀ p ∈ db'.evt.pairs, EvtOk p := by
    intro p hp
    rcases h.new p hp with hold' | ⟨hok, -⟩
    · exact (hold p hold').1
    · exact hok
  obtain ⟨low, high, hsplit, hlow, hhigh⟩ :=
    split_of_sorted (pairs_rev_le hok db'.evt.pairs_sorted) lo
  have hsorted := db'.evt.pairs_sorted
  rw [hsplit] at hsorted
  have heq : low = db.evt.pairs := by
    refine DupTable.pairs_ext (List.pairwise_append.mp hsorted).1 db.evt.pairs_sorted (fun p => ?_)
    constructor
    · intro hp
      rcases h.new p (by rw [hsplit]; exact List.mem_append_left _ hp) with hold' | ⟨-, hle, -⟩
      · exact hold'
      · have := hlow p hp
        omega
    · intro hp
      have hmem := h.old p hp
      rw [hsplit] at hmem
      rcases List.mem_append.mp hmem with hmem | hmem
      · exact hmem
      · have := hhigh p hmem
        have := (hold p hp).2
        omega
  refine ⟨high.map decodeEvt, ?_, ?_⟩
  · rw [DbKv.events, hsplit, List.map_append, heq, DbKv.events]
  · intro evt hevt
    obtain ⟨p, hp, rfl⟩ := List.mem_map.mp hevt
    have hge := hhigh p hp
    rcases h.new p (by rw [hsplit]; exact List.mem_append_right _ hp) with hold' | ⟨-, -, hlt, hK⟩
    · have := (hold p hold').2
      omega
    · exact ⟨hge, hlt, hK⟩

end Grows

/-- The events of a versioned state are below its bound. -/
theorem Rep.evt_lt {ch : Bytes → List Version} {bound : Nat} (h : db.Rep E S ch)
    (hlog : LogOk db.log bound bound) {p : Bytes × Bytes} (hp : p ∈ db.evt.pairs) :
    EvtOk p ∧ (decodeEvt p).rev.word.toNat < bound := by
  obtain ⟨hok, x, hx, hrev⟩ := h.version_of_evt hp
  obtain ⟨w, hw, -, cur, rfl⟩ := write_of_mem_versions hx
  have hlt := hlog.lt w hw
  rw [ite_self] at hlt
  exact ⟨hok, by rw [← hrev]; exact hlt⟩

end DbKv

end Turbokube
