import Turbokube.Store.Events

/-!
# Pruning

Compaction prunes keys batch by batch, and the keys of a batch in the order of a Go
map.  All of it comes to one pruning of every key: `Pruned` describes the tables by
a threshold for each key, and a later pruning of a key only raises its threshold.
-/

namespace Turbokube

open Encoding Lmdb

namespace DbKv

variable {E F : Env} {S U : Prop} {db d : DbKv} {ch : Bytes → List Version} {lo hi : Nat}

/-- Remove versions of a key with their values. -/
def dropVersions (key : Bytes) (vs : List Version) (db : DbKv) : DbKv :=
  vs.foldl (fun db x =>
    { db with
      rev := db.rev.delDup key (x.record key).bytes
      val := if x.rev.isdel then db.val else db.val.del x.rev.key }) db

theorem dropVersions_cons (key : Bytes) (x : Version) (vs : List Version) (db : DbKv) :
    dropVersions key (x :: vs) db =
      dropVersions key vs
        { db with
          rev := db.rev.delDup key (x.record key).bytes
          val := if x.rev.isdel then db.val else db.val.del x.rev.key } := rfl

theorem dropVersions_frame (key : Bytes) (vs : List Version) (db : DbKv) :
    (dropVersions key vs db).evt = db.evt ∧ (dropVersions key vs db).log = db.log := by
  induction vs generalizing db with
  | nil => exact ⟨rfl, rfl⟩
  | cons x vs ih => exact ih _

theorem dups_dropVersions (key : Bytes) (vs : List Version) (db : DbKv) (k : Bytes) :
    (dropVersions key vs db).rev.dups k =
      (db.rev.dups k).filter (fun b => ∀ x ∈ vs, ¬ (k = key ∧ b = (x.record key).bytes)) := by
  induction vs generalizing db with
  | nil => simp [dropVersions]
  | cons x vs ih =>
      rw [dropVersions_cons, ih]
      simp only [DupTable.dups_delDup, List.forall_mem_cons]
      by_cases hk : k = key
      · subst hk
        rw [if_pos rfl, List.filter_filter]
        refine List.filter_congr (fun b _ => ?_)
        simp [Bool.and_comm]
      · rw [if_neg hk]
        refine List.filter_congr (fun b _ => ?_)
        simp [hk]

theorem sub_dropVersions {key k : Bytes} {vs : List Version}
    (h : (dropVersions key vs db).rev.dups k ≠ []) :
    (dropVersions key vs db).rev.sub k = db.rev.sub k := by
  induction vs generalizing db with
  | nil => rfl
  | cons x vs ih =>
      rw [dropVersions_cons] at h ⊢
      rw [ih h]
      refine DupTable.sub_delDup (fun hnil => h ?_)
      rw [dups_dropVersions]
      exact List.filter_eq_nil_iff.mpr (fun b hb => by simp only [hnil] at hb; cases hb)

theorem get_dropVersions {key rk v : Bytes} {vs : List Version} {db : DbKv} :
    (dropVersions key vs db).val.get rk = some v ↔
      db.val.get rk = some v ∧ ∀ x ∈ vs, x.rev.isdel = false → rk ≠ x.rev.key := by
  induction vs generalizing db with
  | nil => simp [dropVersions]
  | cons x vs ih =>
      rw [dropVersions_cons, ih, List.forall_mem_cons, ← and_assoc]
      refine and_congr_left (fun _ => ?_)
      cases hdel : x.rev.isdel with
      | true => simp
      | false =>
          simp only [Bool.false_eq_true, if_false, Table.get_del]
          by_cases hrk : rk = x.rev.key
          · simp [hrk]
          · simp [hrk]

/-- The versions of a key below a revision are removed, once a newer one was met. -/
theorem pruneDups_eq {key : Bytes} {r : Keyrev} {vs : List Version} {hasNewer : Bool}
    (hnewer : hasNewer = true ∨ ∀ x, vs.head? = some x → r.word.toNat ≤ x.rev.word.toNat)
    (hdesc : vs.Pairwise (fun a b => b.rev.word.toNat < a.rev.word.toNat))
    (hval : ∀ x ∈ vs, x.rev.isdel = false → (d.val.get x.rev.key).isSome = true) :
    pruneDups key r (vs.map (fun v => (v.record key).bytes)) hasNewer d =
      .ok (dropVersions key (vs.filter (fun x => x.rev.word.toNat < r.word.toNat)) d) := by
  induction vs generalizing hasNewer d with
  | nil => rfl
  | cons x vs ih =>
      obtain ⟨hx, hdesc⟩ := List.pairwise_cons.mp hdesc
      obtain ⟨krec, hdecode, hrev⟩ : ∃ krec : Keyrecord,
          Keyrecord.fromBytes {} key (x.record key).bytes = .ok krec ∧ krec.rev = x.rev :=
        ⟨_, (x.record key).fromBytes_zero, rfl⟩
      rw [List.map_cons, pruneDups, hdecode]
      simp only
      rw [hrev]
      by_cases hlt : x.rev.word.toNat < r.word.toNat
      · have hnew : hasNewer = true := by
          rcases hnewer with hnewer | hnewer
          · exact hnewer
          · have := hnewer x rfl
            omega
        have hnot : ¬ r.word ≤ x.rev.word := by
          rw [UInt64.le_iff_toNat_le]
          omega
        rw [if_neg hnot, List.filter_cons_of_pos (by simpa using hlt), dropVersions_cons, hnew]
        cases hdel : x.rev.isdel with
        | true =>
            simp only [Bool.not_true, Bool.and_false, Bool.false_eq_true, if_false, if_true]
            exact ih (.inl rfl) hdesc
              (fun y hy hlive => hval y (List.mem_cons_of_mem _ hy) hlive)
        | false =>
            obtain ⟨v, hv⟩ := Option.isSome_iff_exists.mp (hval x List.mem_cons_self hdel)
            have hremove : d.val.remove x.rev.key = .ok (d.val.del x.rev.key) := by
              rw [Table.remove, hv]
            simp only [Bool.not_false, Bool.and_true, Bool.false_eq_true, if_false, if_true,
                hremove]
            refine ih (.inl rfl) hdesc (fun y hy hlive => ?_)
            have hne : y.rev.key ≠ x.rev.key := by
              intro heq
              have := hx y hy
              rw [Keyrev.key_inj heq] at this
              exact lt_irrefl _ this
            simp only [Table.get_del, if_neg hne]
            exact hval y (List.mem_cons_of_mem _ hy) hlive
      · have hle : r.word ≤ x.rev.word := by
          rw [UInt64.le_iff_toNat_le]
          omega
        rw [if_pos hle, List.filter_cons_of_neg (by simpa using hlt)]
        exact ih (.inl rfl) hdesc (fun y hy hlive => hval y (List.mem_cons_of_mem _ hy) hlive)

/-- What is left after pruning each key below its threshold. -/
structure Pruned (ch : Bytes → List Version) (db : DbKv) (T : Bytes → Nat) (d : DbKv) : Prop where
  log : d.log = db.log
  dups : ∀ k, d.rev.dups k =
    ((ch k).filter (fun x => T k ≤ x.rev.word.toNat)).map (fun v => (v.record k).bytes)
  sub : ∀ k, d.rev.dups k ≠ [] → d.rev.sub k = db.rev.sub k
  val : ∀ rk v, d.val.get rk = some v ↔
    db.val.get rk = some v ∧
      ∀ k, ∀ x ∈ ch k, x.rev.isdel = false → rk = x.rev.key → T k ≤ x.rev.word.toNat

theorem Rep.pruned (h : db.Rep E S ch) : Pruned ch db (fun _ => 0) db where
  log := rfl
  dups k := by simpa using h.dups k
  sub _ _ := rfl
  val rk v := by simp

theorem record_bytes_inj {k : Bytes} {x y : Version}
    (h : (x.record k).bytes = (y.record k).bytes) : x.rev = y.rev := by
  apply Keyrev.ext_toNat
  rcases Nat.lt_trichotomy x.rev.word.toNat y.rev.word.toNat with hlt | heq | hlt
  · have := Keyrecord.bytes_lt_bytes (a := y.record k) (b := x.record k) hlt
    rw [h] at this
    exact absurd this (lt_irrefl _)
  · exact heq
  · have := Keyrecord.bytes_lt_bytes (a := x.record k) (b := y.record k) hlt
    rw [h] at this
    exact absurd this (lt_irrefl _)

/-- Dropping the versions of a key below a greater threshold. -/
theorem Pruned.dropVersions {T : Bytes → Nat} (h : Pruned ch db T d) {key : Bytes} {n : Nat}
    (hT : T key ≤ n) :
    Pruned ch db (Function.update T key n)
      (dropVersions key
        (((ch key).filter (fun x => T key ≤ x.rev.word.toNat)).filter
          (fun x => x.rev.word.toNat < n)) d) := by
  constructor
  case log => exact (dropVersions_frame key _ d).2.trans h.log
  case dups =>
    intro k
    rw [dups_dropVersions, h.dups]
    by_cases hk : k = key
    · subst hk
      rw [Function.update_self, List.filter_map, List.filter_filter]
      refine congrArg _ (List.filter_congr (fun x hx => ?_))
      have hdrop : (∀ y ∈ ((ch k).filter (fun x => T k ≤ x.rev.word.toNat)).filter
          (fun x => x.rev.word.toNat < n), ¬ (k = k ∧ (x.record k).bytes = (y.record k).bytes)) ∧
          T k ≤ x.rev.word.toNat ↔ n ≤ x.rev.word.toNat := by
        constructor
        · rintro ⟨hall, hTx⟩
          by_contra hlt
          refine hall x ?_ ⟨rfl, rfl⟩
          simp only [List.mem_filter, decide_eq_true_eq]
          exact ⟨⟨hx, hTx⟩, Nat.lt_of_not_le hlt⟩
        · intro hle
          refine ⟨fun y hy heq => ?_, hT.trans hle⟩
          simp only [List.mem_filter, decide_eq_true_eq] at hy
          have hrev := record_bytes_inj heq.2
          rw [hrev] at hle
          omega
      rw [Function.comp_apply, ← Bool.decide_and]
      exact decide_eq_decide.mpr hdrop
    · rw [Function.update_of_ne hk]
      exact List.filter_eq_self.mpr (fun b _ => by simp [hk])
  case sub =>
    intro k hne
    rw [sub_dropVersions hne]
    refine h.sub k (fun hnil => hne ?_)
    rw [dups_dropVersions, hnil, List.filter_nil]
  case val =>
    intro rk v
    rw [get_dropVersions, h.val, and_assoc]
    refine and_congr_right (fun _ => ⟨?_, ?_⟩)
    · rintro ⟨hall, hdrop⟩ k x hx hlive hrk
      have hTx := hall k x hx hlive hrk
      by_cases hk : k = key
      · subst hk
        rw [Function.update_self]
        by_contra hlt
        refine hdrop x ?_ hlive hrk
        simp only [List.mem_filter, decide_eq_true_eq]
        exact ⟨⟨hx, hTx⟩, Nat.lt_of_not_le hlt⟩
      · rw [Function.update_of_ne hk]
        exact hTx
    · intro hall
      refine ⟨fun k x hx hlive hrk => ?_, fun x hx hlive hrk => ?_⟩
      · have hle := hall k x hx hlive hrk
        by_cases hk : k = key
        · subst hk
          rw [Function.update_self] at hle
          omega
        · rw [Function.update_of_ne hk] at hle
          exact hle
      · simp only [List.mem_filter, decide_eq_true_eq] at hx
        have hle := hall key x hx.1.1 hlive hrk
        rw [Function.update_self] at hle
        omega

/-- No version is newer than the first one of the chain. -/
theorem Rep.head_newest (h : db.Rep E S ch) (hlog : LogOk db.log lo hi) {key : Bytes} {x : Version}
    (hx : x ∈ versions db.log key) :
    ∃ y ys, ch key = y :: ys ∧ x.rev.word.toNat ≤ y.rev.word.toNat := by
  cases hch : ch key with
  | nil =>
      rw [h.newest key hch] at hx
      cases hx
  | cons y ys =>
      refine ⟨y, ys, rfl, ?_⟩
      obtain ⟨rest, hrest⟩ := h.kept key
      have hdesc := hlog.desc key
      rw [← hrest, hch, List.cons_append] at hx hdesc
      rcases List.mem_cons.mp hx with rfl | hx
      · exact le_rfl
      · exact (List.rel_of_pairwise_cons hdesc hx).le

/-- Pruning one key raises its threshold.  The version at the threshold may be gone. -/
theorem Pruned.pruneKey {T : Bytes → Nat} (h : Pruned ch db T d) (hrep : db.Rep E S ch)
    (hlog : LogOk db.log lo hi) {key : Bytes} {x : Version} (hx : x ∈ versions db.log key)
    (hT : T key ≤ x.rev.word.toNat) :
    ∃ d', d.pruneKey key x.rev = .ok d' ∧ d'.evt = d.evt ∧
      Pruned ch db (Function.update T key x.rev.word.toNat) d' := by
  obtain ⟨hkey, -⟩ := hlog.key_of_mem hx
  obtain ⟨y, ys, hch, hxy⟩ := hrep.head_newest hlog hx
  have hdesc : (ch key).Pairwise (fun a b => b.rev.word.toNat < a.rev.word.toNat) :=
    (hlog.desc key).sublist (hrep.kept key).sublist
  have hfilter : (ch key).filter (fun x => T key ≤ x.rev.word.toNat) =
      y :: ys.filter (fun x => T key ≤ x.rev.word.toNat) := by
    rw [hch, List.filter_cons_of_pos]
    simpa using hT.trans hxy
  have hne : d.rev.dups key ≠ [] := by
    rw [h.dups, hfilter]
    exact List.cons_ne_nil _ _
  obtain ⟨rest, hset, -⟩ := setRange_of_dups_ne_nil hkey hne
  have hfdesc := hdesc.filter (fun x => T key ≤ x.rev.word.toNat)
  have hnewer : ∀ z, ((ch key).filter (fun x => T key ≤ x.rev.word.toNat)).head? = some z →
      x.rev.word.toNat ≤ z.rev.word.toNat := by
    intro z hz
    rw [hfilter, List.head?_cons, Option.some.injEq] at hz
    rw [← hz]
    exact hxy
  have hval : ∀ y ∈ (ch key).filter (fun x => T key ≤ x.rev.word.toNat), y.rev.isdel = false →
      (d.val.get y.rev.key).isSome = true := by
    intro y hy hlive
    obtain ⟨hych, hyT⟩ := List.mem_filter.mp hy
    obtain ⟨e, he⟩ := Option.isSome_iff_exists.mp
      ((hlog.item_isSome (hrep.mem_versions hych)).mpr hlive)
    obtain ⟨base, hget⟩ := (hrep.stored key).get hych he
    rw [(h.val _ _).mpr ⟨hget, ?_⟩]
    · rfl
    · intro k z hz hzlive heq
      obtain ⟨rfl, rfl⟩ := hlog.eq_of_rev_eq (hrep.mem_versions hych) (hrep.mem_versions hz) hlive
        (Keyrev.key_inj heq)
      simpa using hyT
  have hprune : d.pruneKey key x.rev = .ok (DbKv.dropVersions key
      (((ch key).filter (fun x => T key ≤ x.rev.word.toNat)).filter
        (fun y => y.rev.word.toNat < x.rev.word.toNat)) d) := by
    rw [DbKv.pruneKey, hset]
    simp only [if_true]
    rw [h.dups]
    exact pruneDups_eq (.inr hnewer) hfdesc hval
  exact ⟨_, hprune, (dropVersions_frame key _ d).1, h.dropVersions hT⟩

theorem Pruned.prune {T : Bytes → Nat} (h : Pruned ch db T d) (hrep : db.Rep E S ch)
    (hlog : LogOk db.log lo hi) {l : List (Bytes × Keyrev)} (hnodup : (l.map Prod.fst).Nodup)
    (hl : ∀ p ∈ l, T p.1 ≤ p.2.word.toNat ∧ ∃ x ∈ versions db.log p.1, x.rev = p.2) :
    ∃ d' T', DbKv.prune l d = .ok d' ∧ d'.evt = d.evt ∧ Pruned ch db T' d' ∧
      (∀ p ∈ l, T' p.1 = p.2.word.toNat) ∧ ∀ k, k ∉ l.map Prod.fst → T' k = T k := by
  induction l generalizing d T with
  | nil => exact ⟨d, T, rfl, rfl, h, by simp, fun _ _ => rfl⟩
  | cons p l ih =>
      obtain ⟨key, r⟩ := p
      obtain ⟨hkey, hnodup'⟩ := List.nodup_cons.mp hnodup
      obtain ⟨hT, x, hx, rfl⟩ := hl (key, r) List.mem_cons_self
      obtain ⟨d₁, hprune, hevt, h₁⟩ := h.pruneKey hrep hlog hx hT
      obtain ⟨d', T', hrest, hevt', h', hin, hout⟩ := ih h₁ hnodup' (fun q hq => by
        have hne : q.1 ≠ key := fun heq => hkey (List.mem_map.mpr ⟨q, hq, heq⟩)
        rw [Function.update_of_ne hne]
        exact hl q (List.mem_cons_of_mem _ hq))
      refine ⟨d', T', ?_, hevt'.trans hevt, h', ?_, ?_⟩
      · rw [DbKv.prune, hprune]
        exact hrest
      · intro q hq
        rcases List.mem_cons.mp hq with rfl | hq
        · exact (hout key hkey).trans (Function.update_self ..)
        · exact hin q hq
      · intro k hk
        rw [List.map_cons, List.mem_cons, not_or] at hk
        rw [hout k hk.2, Function.update_of_ne hk.1]

/-- In the middle of a compaction: `θ` are the revisions of the last events removed,
`keys` the map of the current batch, and `T` the thresholds of the batches before. -/
structure Batched (ch : Bytes → List Version) (db : DbKv) (θ : Bytes → Nat)
    (keys : Table Bytes Keyrev) (T : Bytes → Nat) (d : DbKv) : Prop where
  pruned : Pruned ch db T d
  named : ∀ k r, keys.get k = some r →
    r.word.toNat = θ k ∧ ∃ x ∈ versions db.log k, x.rev = r
  rest : ∀ k, keys.get k = none → T k = θ k
  le : ∀ k, T k ≤ θ k

/-- The order in which the map is iterated does not matter. -/
theorem Batched.prune {θ T : Bytes → Nat} {keys : Table Bytes Keyrev}
    (h : Batched ch db θ keys T d) (hrep : db.Rep E S ch) (hlog : LogOk db.log lo hi) (n : Nat) :
    ∃ d', DbKv.prune (F.order n keys.entries) d = .ok d' ∧ d'.evt = d.evt ∧ Pruned ch db θ d' := by
  have hperm := F.order_perm n keys.entries
  have hmem : ∀ p ∈ F.order n keys.entries, keys.get p.1 = some p.2 :=
    fun p hp => Table.get_eq_some_iff.mpr (hperm.mem_iff.mp hp)
  have hnodup : ((F.order n keys.entries).map Prod.fst).Nodup := by
    refine ((hperm.map Prod.fst).nodup_iff).mpr ?_
    rw [List.Nodup, List.pairwise_map]
    exact keys.sorted.imp (fun hlt => hlt.ne)
  obtain ⟨d', T', hprune, hevt, h', hin, hout⟩ := h.pruned.prune hrep hlog hnodup (fun p hp => by
    obtain ⟨hθ, x, hx, hxr⟩ := h.named p.1 p.2 (hmem p hp)
    exact ⟨by rw [hθ]; exact h.le p.1, x, hx, hxr⟩)
  have hT' : T' = θ := by
    funext k
    cases hget : keys.get k with
    | none =>
        refine (hout k (fun hk => ?_)).trans (h.rest k hget)
        obtain ⟨p, hp, rfl⟩ := List.mem_map.mp hk
        rw [hmem p hp] at hget
        cases hget
    | some r =>
        have hp : (k, r) ∈ F.order n keys.entries :=
          hperm.mem_iff.mpr (Table.get_eq_some_iff.mp hget)
        rw [hin (k, r) hp, (h.named k r hget).1]
  rw [hT'] at h'
  exact ⟨d', hprune, hevt, h'⟩

/-- Neither does the size of the batches. -/
theorem Batched.flush {θ T : Bytes → Nat} {keys : Table Bytes Keyrev}
    (h : Batched ch db θ keys T d) (hrep : db.Rep E S ch) (hlog : LogOk db.log lo hi)
    (limit n : Nat) :
    ∃ n' keys' T' d', DbKv.flush F limit n keys d = .ok (n', keys', d') ∧ d'.evt = d.evt ∧
      Batched ch db θ keys' T' d' := by
  rw [DbKv.flush]
  split
  · obtain ⟨d', hprune, hevt, h'⟩ := h.prune hrep hlog n
    rw [hprune]
    refine ⟨n + 1, .empty, θ, d', rfl, hevt, h', ?_, fun _ _ => rfl, fun _ => le_rfl⟩
    intro k r hget
    cases hget
  · exact ⟨n, keys, T, d, rfl, rfl, h⟩

theorem Batched.event {θ T : Bytes → Nat} {keys : Table Bytes Keyrev}
    (h : Batched ch db θ keys T d) {key : Bytes} {x : Version} (hx : x ∈ versions db.log key)
    (hθ : θ key ≤ x.rev.word.toNat) (evt : DupTable Bytes Bytes) :
    Batched ch db (Function.update θ key x.rev.word.toNat) (keys.put key x.rev) T
      { d with evt := evt } := by
  refine ⟨⟨h.pruned.log, h.pruned.dups, h.pruned.sub, h.pruned.val⟩, fun k r hget => ?_,
    fun k hget => ?_, fun k => ?_⟩
  · rw [Table.get_put] at hget
    split at hget
    · rename_i hk
      obtain rfl := Option.some.inj hget
      rw [hk, Function.update_self]
      exact ⟨rfl, x, hx, rfl⟩
    · rename_i hk
      rw [Function.update_of_ne hk]
      exact h.named k r hget
  · rw [Table.get_put] at hget
    split at hget
    · cases hget
    · rename_i hk
      rw [Function.update_of_ne hk]
      exact h.rest k hget
  · by_cases hk : k = key
    · subst hk
      rw [Function.update_self]
      exact (h.le k).trans hθ
    · rw [Function.update_of_ne hk]
      exact h.le k

end DbKv

end Turbokube
