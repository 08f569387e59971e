import Turbokube.Model.Messages
import Turbokube.Store.Deletes

/-!
# Commands as series of writes

`OpStep` is one writing operation of a command: a put, or the tombstones of a
deletion, each for a key that is live when it is written.  `OpSteps` chains the
operations of a command, whose indexes grow, and `KvRun` chains commands, whose
revisions grow.  `A` is what is known of the put requests.
-/

namespace Turbokube

open Encoding Lmdb

namespace DbKv

variable {E : Env} {A : PutRequest → Prop}

/-- Each key is live when its tombstone is written. -/
def LiveChain (rev subrev : Nat) (epoch : UInt64) : List Bytes → DbKv → Prop
  | [], _ => True
  | k :: ks, db => db.Live k ∧ LiveChain rev subrev epoch ks (db.tombstone rev subrev epoch k)

theorem LiveChain.append {rev subrev : Nat} {epoch : UInt64} {ks ks' : List Bytes} {db : DbKv}
    (h : LiveChain rev subrev epoch ks db)
    (h' : LiveChain rev subrev epoch ks' (db.tombstones rev subrev epoch ks)) :
    LiveChain rev subrev epoch (ks ++ ks') db := by
  induction ks generalizing db with
  | nil => exact h'
  | cons k ks ih => exact ⟨h.1, ih h.2 h'⟩

inductive OpStep (E : Env) (A : PutRequest → Prop) (rev subrev : Nat) : DbKv → DbKv → Prop where
  | put {db db' : DbKv} {epoch : UInt64} {req : PutRequest} {prev next : Kv} {patched : Bool}
      (hA : A req)
      (h : db.put E rev subrev req.lease.toUInt64 epoch req.key req.value req.ignoreValue
        req.ignoreLease = .ok (db', prev, next, patched)) :
      OpStep E A rev subrev db db'
  | tombs {db : DbKv} {epoch : UInt64} {ks : List Bytes} (h : LiveChain rev subrev epoch ks db) :
      OpStep E A rev subrev db (db.tombstones rev subrev epoch ks)

/-- Operations with indexes from `i` on and below `j`. -/
inductive OpSteps (E : Env) (A : PutRequest → Prop) (rev i : Nat) : Nat → DbKv → DbKv → Prop where
  | refl {j : Nat} {db : DbKv} (h : i ≤ j) : OpSteps E A rev i j db db
  | step {j k : Nat} {db db₁ db₂ : DbKv} (h : OpSteps E A rev i k db db₁)
      (hop : OpStep E A rev k db₁ db₂) (hlt : k < j) : OpSteps E A rev i j db db₂

theorem OpSteps.mono {rev i j j' : Nat} {db db' : DbKv} (h : OpSteps E A rev i j db db')
    (hj : j ≤ j') : OpSteps E A rev i j' db db' := by
  cases h with
  | refl h => exact .refl (h.trans hj)
  | step h hop hlt => exact .step h hop (lt_of_lt_of_le hlt hj)

theorem OpSteps.trans {rev i j k : Nat} {db db₁ db₂ : DbKv} (h : OpSteps E A rev i j db db₁)
    (h' : OpSteps E A rev j k db₁ db₂) : OpSteps E A rev i k db db₂ := by
  induction h' with
  | refl hle => exact h.mono hle
  | step _ hop hlt ih => exact .step (ih h) hop hlt

/-- Commands from revision `r` on, each with fewer than `n` operations. -/
inductive KvRun (E : Env) (A : PutRequest → Prop) (n : Nat) (db : DbKv) (r : Nat) :
    DbKv → Nat → Prop where
  | idle {r' : Nat} (h : r ≤ r') : KvRun E A n db r db r'
  | cmd {db₁ db₂ : DbKv} {r₁ r₂ : Nat} (h : KvRun E A n db r db₁ r₁)
      (hops : OpSteps E A (r₁ + 1) 0 n db₁ db₂) (hlt : r₁ < r₂) : KvRun E A n db r db₂ r₂

theorem KvRun.trans {n : Nat} {db db₁ db₂ : DbKv} {r r₁ r₂ : Nat} (h : KvRun E A n db r db₁ r₁)
    (h' : KvRun E A n db₁ r₁ db₂ r₂) : KvRun E A n db r db₂ r₂ := by
  induction h' with
  | idle hle =>
      cases h with
      | idle h => exact .idle (h.trans hle)
      | cmd h hops hlt => exact .cmd h hops (lt_of_lt_of_le hlt hle)
  | cmd _ hops hlt ih => exact .cmd ih hops hlt

theorem RecsOk.opStep {rev subrev : Nat} {db db' : DbKv} (h : db.RecsOk)
    (hop : OpStep E A rev subrev db db') : db'.RecsOk := by
  cases hop with
  | put hA hput =>
      obtain ⟨hrev, -⟩ := put_tables hput
      exact h.put ⟨_, _, _⟩ hrev
  | tombs _ => exact h.tombstones _

theorem OpSteps.keeps {I : DbKv → Prop} {rev i j : Nat} {db db' : DbKv}
    (hstep : ∀ {rev subrev : Nat} {db db' : DbKv}, I db → OpStep E A rev subrev db db' → I db')
    (h : I db) (hops : OpSteps E A rev i j db db') : I db' := by
  induction hops with
  | refl _ => exact h
  | step _ hop _ ih => exact hstep (ih h) hop

/-- What every operation keeps, a run keeps. -/
theorem KvRun.keeps {I : DbKv → Prop} {n r r' : Nat} {db db' : DbKv}
    (hstep : ∀ {rev subrev : Nat} {db db' : DbKv}, I db → OpStep E A rev subrev db db' → I db')
    (h : I db) (hrun : KvRun E A n db r db' r') : I db' := by
  induction hrun with
  | idle _ => exact h
  | cmd _ hops _ ih => exact hops.keeps hstep ih

/-- What grows with a bound that operation `i` of revision `rev` moves from `4096 rev + 4 i` to
`4096 rev + 4 (i + 1)`, a run keeps. -/
theorem KvRun.keeps_below {I : DbKv → Nat → Prop} {r r' : Nat} {db db' : DbKv}
    (hmono : ∀ {db : DbKv} {m n : Nat}, I db m → m ≤ n → I db n)
    (hstep : ∀ {rev i : Nat} {db db' : DbKv}, 0 < rev → rev < 2 ^ 52 → i < 1024 →
      I db (rev * 4096 + i * 4) → OpStep E A rev i db db' → I db' (rev * 4096 + (i + 1) * 4))
    (h : I db ((r + 1) * 4096)) (hr' : r' < 2 ^ 52) (hrun : KvRun E A 1024 db r db' r') :
    I db' ((r' + 1) * 4096) := by
  have hsteps : ∀ {rev i j : Nat} {db db' : DbKv}, 0 < rev → rev < 2 ^ 52 → j ≤ 1024 →
      I db (rev * 4096 + i * 4) → OpSteps E A rev i j db db' → I db' (rev * 4096 + j * 4) := by
    intro rev i j db db' hpos hrev hj hI hops
    induction hops with
    | refl hle => exact hmono hI (by omega)
    | step _ hop hlt ih =>
        exact hmono (hstep hpos hrev (by omega) (ih (by omega) hI) hop) (by omega)
  induction hrun with
  | idle hle => exact hmono h (by omega)
  | @cmd db₁ db₂ r₁ r₂ _ hops hlt ih =>
      have h₁ : I db₁ ((r₁ + 1) * 4096 + 0 * 4) := hmono (ih (by omega)) (by omega)
      exact hmono (hsteps (by omega) (by omega) le_rfl h₁ hops) (by omega)

theorem OpStep.log_append {rev subrev : Nat} {db db' : DbKv} (hop : OpStep E A rev subrev db db') :
    ∃ new, db'.log = db.log ++ new ∧ ∀ w ∈ new, w.rev = rev := by
  cases hop with
  | put hreq hput =>
      exact ⟨_, (put_tables hput).2.2.1, by simp⟩
  | tombs hchain => exact ⟨_, tombstones_log _ _ _ _ _, by simp⟩

theorem OpSteps.log_append {rev i j : Nat} {db db' : DbKv} (hops : OpSteps E A rev i j db db') :
    ∃ new, db'.log = db.log ++ new ∧ ∀ w ∈ new, w.rev = rev := by
  induction hops with
  | refl _ => exact ⟨[], (List.append_nil _).symm, by simp⟩
  | step _ hstep _ ih =>
      obtain ⟨new, hnew, hrev⟩ := ih
      obtain ⟨new', hnew', hrev'⟩ := hstep.log_append
      refine ⟨new ++ new', by rw [hnew', hnew, List.append_assoc], fun w hw => ?_⟩
      exact (List.mem_append.mp hw).elim (hrev w) (hrev' w)

/-- The writes of a run come after those that are there and are of later revisions. -/
theorem KvRun.log_append {n r r' : Nat} {db db' : DbKv} (hrun : KvRun E A n db r db' r') :
    r ≤ r' ∧ ∃ new, db'.log = db.log ++ new ∧ ∀ w ∈ new, r < w.rev := by
  induction hrun with
  | idle hle => exact ⟨hle, [], (List.append_nil _).symm, by simp⟩
  | cmd hrun hsteps hlt ih =>
      obtain ⟨hle, new, hnew, hrev⟩ := ih
      obtain ⟨new', hnew', hrev'⟩ := hsteps.log_append
      refine ⟨hle.trans hlt.le, new ++ new', by rw [hnew', hnew, List.append_assoc],
        fun w hw => ?_⟩
      rcases List.mem_append.mp hw with hw | hw
      · exact hrev w hw
      · rw [hrev' w hw]
        omega

theorem RecsOk.kvRun {n r r' : Nat} {db db' : DbKv} (h : db.RecsOk)
    (hrun : KvRun E A n db r db' r') : db'.RecsOk :=
  hrun.keeps (fun h hop => h.opStep hop) h

theorem tombstone_records_ne {rev subrev : Nat} {epoch : UInt64} {db : DbKv} {k k' : Bytes}
    (h : k' ≠ k) : (db.tombstone rev subrev epoch k).records k' = db.records k' := by
  rw [records, tombstone]
  simp only [DupTable.dups_put]
  rw [if_neg h, records]

theorem tombstones_records_ne {rev subrev : Nat} {epoch : UInt64} {ks : List Bytes} {db : DbKv}
    {k : Bytes} (h : k ∉ ks) : (db.tombstones rev subrev epoch ks).records k = db.records k := by
  induction ks generalizing db with
  | nil => rfl
  | cons k' ks ih =>
      rw [List.mem_cons, not_or] at h
      obtain ⟨hne, hks⟩ := h
      rw [tombstones_cons, ih hks, tombstone_records_ne hne]

/-- A tombstone newer than the records of its key goes in front of them. -/
theorem tombstones_records_mem {rev subrev : Nat} {epoch : UInt64} {ks : List Bytes} {db : DbKv}
    {k : Bytes} (hok : db.RecsOk) (hnodup : ks.Nodup) (hk : k ∈ ks)
    (hnew : ∀ kr ∈ db.records k, kr.rev.word.toNat < (revAt rev subrev true).word.toNat) :
    (db.tombstones rev subrev epoch ks).records k =
      ⟨k, revAt rev subrev true, 0⟩ :: db.records k := by
  induction ks generalizing db with
  | nil => cases hk
  | cons k' ks ih =>
      obtain ⟨hk', hnodup⟩ := List.nodup_cons.mp hnodup
      rw [tombstones_cons]
      rcases List.mem_cons.mp hk with rfl | hmem
      · have hput := @records_put db (db.tombstone rev subrev epoch k)
          { key := k, rev := revAt rev subrev true } hok rfl hnew k
        rw [if_pos rfl] at hput
        rw [tombstones_records_ne hk', hput, Keyrecord.normal, ite_self]
      · have hne : k ≠ k' := fun heq => hk' (heq ▸ hmem)
        have hsame : (db.tombstone rev subrev epoch k').records k = db.records k :=
          tombstone_records_ne hne
        have hok' : (db.tombstone rev subrev epoch k').RecsOk := hok.tombstones [k']
        rw [ih hok' hnodup hmem (by rw [hsame]; exact hnew), hsame]

/-- Distinct keys that are live before the first tombstone are live when their turn
comes. -/
theorem liveChain_of_nodup {rev subrev : Nat} {epoch : UInt64} {ks : List Bytes} {db : DbKv}
    (hnodup : ks.Nodup) (hlive : ∀ k ∈ ks, db.Live k) : LiveChain rev subrev epoch ks db := by
  induction ks generalizing db with
  | nil => trivial
  | cons k ks ih =>
      obtain ⟨hk, hnodup⟩ := List.nodup_cons.mp hnodup
      refine ⟨hlive k List.mem_cons_self, ih hnodup (fun k' hk' => ?_)⟩
      have hne : k' ≠ k := fun h => hk (h ▸ hk')
      obtain ⟨kr, hhead, hdel⟩ := hlive k' (List.mem_cons_of_mem _ hk')
      exact ⟨kr, by rw [tombstone_records_ne hne]; exact hhead, hdel⟩

/-- A range deletion that succeeds deletes its targets. -/
theorem deleteRange_inv {rev subrev : Nat} {epoch : UInt64} {key rangeEnd : Bytes}
    {db db' : DbKv} {items : List Keyrecord} (hok : db.RecsOk)
    (h : db.deleteRange E rev subrev epoch key rangeEnd = .ok (db', items)) :
    items = db.deleteTargets key rangeEnd ∧
      db' = db.tombstones rev subrev epoch (items.map Keyrecord.key) := by
  rw [deleteRange_eq hok (validKey_of_deleteRange h)] at h
  split at h
  · cases h
  · obtain ⟨rfl, rfl⟩ := Prod.mk.inj (Except.ok.inj h)
    exact ⟨rfl, rfl⟩

theorem deleteRange_opStep {rev subrev : Nat} {epoch : UInt64} {key rangeEnd : Bytes}
    {db db' : DbKv} {items : List Keyrecord} (hok : db.RecsOk)
    (h : db.deleteRange E rev subrev epoch key rangeEnd = .ok (db', items)) :
    ∃ ks, LiveChain rev subrev epoch ks db ∧ db' = db.tombstones rev subrev epoch ks ∧
      items.map Keyrecord.key = ks := by
  obtain ⟨rfl, rfl⟩ := deleteRange_inv hok h
  refine ⟨_, liveChain_of_nodup (deleteTargets_nodup hok) (fun k hk => ?_), rfl, rfl⟩
  obtain ⟨kr, hkr, rfl⟩ := List.mem_map.mp hk
  exact live_iff_liveRec.mpr ⟨kr, ((mem_deleteTargets hok).mp hkr).1⟩

theorem deleteBatchLoop_opStep {rev subrev : Nat} {epoch : UInt64} {keys : List Bytes}
    {db db' : DbKv} {prev : Keyrecord} {err : Option Err} (hok : db.RecsOk)
    (h : deleteBatchLoop rev subrev epoch keys db prev err = .ok db') :
    ∃ ks, ks.Sublist keys ∧ LiveChain rev subrev epoch ks db ∧
      db' = db.tombstones rev subrev epoch ks ∧ ∀ k ∈ keys, db.Live k → k ∈ ks := by
  induction keys generalizing db prev err with
  | nil =>
      cases err with
      | some e => cases h
      | none =>
          obtain rfl := Except.ok.inj h
          exact ⟨[], .slnil, trivial, rfl, fun k hk => absurd hk List.not_mem_nil⟩
  | cons key keys ih =>
      rw [deleteBatchLoop] at h
      split at h
      · cases h
      · cases h
      · rename_i k v vs rest hset
        split at h
        · cases h
        · split at h
          · cases h
          · rename_i hk
            obtain rfl : k = key := Classical.not_not.mp hk
            have hmem : (k, v :: vs) ∈ db.rev.seek k := by
              unfold setRange at hset
              split at hset
              · cases hset
              · split at hset
                · cases hset
                · rename_i hseek
                  rw [Except.ok.inj hset]
                  exact List.mem_cons_self
            have hdups : db.rev.dups k = v :: vs := ((DupTable.mem_seek.mp hmem).1).symm
            obtain ⟨kr, hkey, hbytes⟩ := hok k v (by rw [hdups]; exact List.mem_cons_self)
            have hkeep : (keepPrev prev k v).1.rev = kr.rev := by
              rw [keepPrev, ← hkey, hbytes, Keyrecord.fromBytes_bytes]
            have hhead : (db.records k).head? = some kr.normal := by
              rw [records, hdups, List.map_cons, List.head?_cons, hbytes, ← hkey, decodeRec_bytes]
            split at h
            rename_i prev' err' hprev
            rw [hprev] at hkeep
            split at h
            · rename_i hdel
              obtain ⟨ks, hsub, hchain, hdb, hlive⟩ := ih hok h
              refine ⟨ks, hsub.cons k, hchain, hdb, fun k' hk' hl => ?_⟩
              rcases List.mem_cons.mp hk' with rfl | hk'
              · obtain ⟨kr', hhead', hdel'⟩ := hl
                obtain rfl := Option.some.inj (hhead.symm.trans hhead')
                rw [Keyrecord.normal_rev, ← hkeep, hdel] at hdel'
                cases hdel'
              · exact hlive k' hk' hl
            · rename_i hdel
              obtain ⟨ks, hsub, hchain, hdb, hlive⟩ := ih (hok.tombstones [k]) h
              refine ⟨k :: ks, hsub.cons_cons k, ⟨⟨kr.normal, hhead, ?_⟩, hchain⟩, hdb,
                fun k' hk' hl => ?_⟩
              · rw [Keyrecord.normal_rev, ← hkeep]
                exact Bool.eq_false_iff.mpr hdel
              · by_cases hne : k' = k
                · exact hne ▸ List.mem_cons_self
                · refine List.mem_cons_of_mem k (hlive k' (List.mem_of_ne_of_mem hne hk') ?_)
                  rwa [Live, tombstones_records_ne (by simpa using hne)]
      · cases h

/-- A batch of distinct live keys is deleted. -/
theorem deleteBatchLoop_eq {rev subrev : Nat} {epoch : UInt64} {keys : List Bytes} {db : DbKv}
    (hok : db.RecsOk) (hnodup : keys.Nodup) (hlive : ∀ k ∈ keys, ValidKey k ∧ db.Live k)
    (prev : Keyrecord) :
    deleteBatchLoop rev subrev epoch keys db prev none =
      .ok (db.tombstones rev subrev epoch keys) := by
  induction keys generalizing db prev with
  | nil => rfl
  | cons key keys ih =>
      obtain ⟨hkey, hnodup⟩ := List.nodup_cons.mp hnodup
      obtain ⟨hvalid, kr, hhead, hdel⟩ := hlive key List.mem_cons_self
      have hrecs : db.records key ≠ [] := by
        intro hnil
        rw [hnil] at hhead
        cases hhead
      have hkr : kr.key = key := hok.key_of_mem (List.mem_of_head? hhead)
      obtain ⟨tail, htail⟩ := List.head?_eq_some_iff.mp hhead
      have hdups : db.rev.dups key = kr.bytes :: tail.map Keyrecord.bytes := by
        rw [hok.dups_eq, htail, List.map_cons]
      obtain ⟨rest, hs, -⟩ := setRange_records hvalid hrecs
      have hkeep : keepPrev prev key kr.bytes = (kr, none) := by
        rw [keepPrev, ← hkr, Keyrecord.fromBytes_live _ hdel]
      rw [deleteBatchLoop, hs, hdups]
      simp only
      rw [if_neg (Nat.not_lt.mpr kr.twelve_le_bytes_length), if_neg (fun hne => hne rfl), hkeep]
      simp only [hdel, Bool.false_eq_true, if_false]
      refine ih (hok.tombstones [key]) hnodup (fun k hk => ?_) kr
      have hne : k ≠ key := fun heq => hkey (heq ▸ hk)
      obtain ⟨hv, kr', hhead', hdel'⟩ := hlive k (List.mem_cons_of_mem _ hk)
      refine ⟨hv, kr', ?_, hdel'⟩
      rw [tombstones_records_ne (by simpa using hne)]
      exact hhead'

end DbKv

end Turbokube
