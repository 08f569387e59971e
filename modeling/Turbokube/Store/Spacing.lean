import Turbokube.Store.Reads

/-!
# Versions that can be read back

Reads of the store name a revision, not an operation.  They reach every version of a key
only if no two of them share a revision.  With one write per key and transaction
(`txnMultiWriteEnabled` off) a live version is the last one of its revision, and a
tombstone is unless the same transaction puts the key again.  `Spaced T` says this of a
log, for live versions and, under `T`, for tombstones.

They also fail on records that are too short.  `NoShort` says that the puts of a log make
none.
-/

namespace Turbokube

open Encoding Lmdb

/-- Under a version that is newer than another one of its key, the revision is newer. -/
def Spaced (T : Prop) (log : List Write) : Prop :=
  ∀ k, (versions log k).Pairwise
    (fun a b => (b.rev.isdel = true → T) → b.rev.upper.toNat < a.rev.upper.toNat)

variable {T : Prop} {log : List Write} {lo hi r : Nat}

theorem Spaced.nil : Spaced T [] := fun _ => .nil

/-- Only the newest version of the key has to be older than the new one. -/
theorem Spaced.append (h : Spaced T log) {w : Write} (hupper : w.kr.upper.toNat = r)
    (hle : ∀ v ∈ versions log w.key, v.rev.upper.toNat ≤ r)
    (hhead : ∀ v ∈ (versions log w.key).head?, (v.rev.isdel = true → T) → v.rev.upper.toNat < r) :
    Spaced T (log ++ [w]) := by
  intro k
  by_cases hk : k = w.key
  · subst hk
    rw [versions_append_self]
    refine List.pairwise_cons.mpr ⟨fun b hb hdel => ?_, h w.key⟩
    rw [Write.version, hupper]
    have hpair := h w.key
    cases hvs : versions log w.key with
    | nil =>
        rw [hvs] at hb
        cases hb
    | cons v vs =>
        rw [hvs] at hb hle hhead hpair
        rcases List.mem_cons.mp hb with rfl | hb
        · exact hhead b rfl hdel
        · have hlt := List.rel_of_pairwise_cons hpair hb hdel
          exact hlt.trans_le (hle v List.mem_cons_self)
  · rw [versions_append_ne _ hk]
    exact h k

theorem LogOk.rev_le (h : LogOk log lo hi) (hlo : lo ≤ (r + 1) * 4096)
    (hhi : hi ≤ (r + 1) * 4096) {w : Write} (hw : w ∈ log) : w.rev ≤ r := by
  have hlt := (h.mono hlo hhi).lt w hw
  rw [ite_self] at hlt
  rw [← h.upper w hw, Keyrev.upper_toNat]
  omega

theorem LogOk.upper_le (h : LogOk log lo hi) (hlo : lo ≤ (r + 1) * 4096)
    (hhi : hi ≤ (r + 1) * 4096) {k : Bytes} {v : Version} (hv : v ∈ versions log k) :
    v.rev.upper.toNat ≤ r := by
  obtain ⟨w, hw, -, cur, rfl⟩ := write_of_mem_versions hv
  rw [Write.version, h.upper w hw]
  exact h.rev_le hlo hhi hw

/-- No version is too short to decode. -/
def NoShort (log : List Write) : Prop := ∀ k, ∀ v ∈ versions log k, ¬ v.Short

theorem NoShort.nil : NoShort [] := fun _ _ hv => by cases hv

theorem NoShort.append (h : NoShort log) {w : Write}
    (hw : ∀ cur, ∀ e ∈ entryAfter cur w, ¬ e.Short) : NoShort (log ++ [w]) := by
  intro k v hv
  rw [versions_append_one] at hv
  split at hv
  · rcases List.mem_cons.mp hv with rfl | hv
    · rintro ⟨e, he, hshort⟩
      exact hw _ e he hshort
    · exact h k v hv
  · exact h k v hv

/-- The smallest record that the put may leave: at the first revision, with an empty value and no
lease where it keeps those that are there. -/
def PutRequest.smallest (req : PutRequest) : Kv where
  key := req.key
  lease := if req.ignoreLease then 0 else req.lease.toUInt64
  val := if req.ignoreValue then [] else req.value

def PutRequest.LongEnough (req : PutRequest) : Prop := ¬ req.smallest.Short

instance (req : PutRequest) : Decidable req.LongEnough :=
  inferInstanceAs (Decidable (¬ _))

/-- A put is long enough exactly when it leaves no record that is too short in any state. -/
theorem PutRequest.longEnough_iff {req : PutRequest} :
    req.LongEnough ↔ ∀ (w : Write), w.key = req.key →
      w.op = .put req.value req.lease.toUInt64 req.ignoreValue req.ignoreLease →
      ∀ cur, ∀ e ∈ entryAfter cur w, ¬ e.Short := by
  constructor
  · rintro h w hkey hop cur e he ⟨hlen, -, -, hlease, hval⟩
    rw [(entryAfter_rev he).2, hkey] at hlen
    obtain ⟨hlease', hval'⟩ : (req.smallest.lease = 0 ∨ req.smallest.lease = e.lease) ∧
        (req.smallest.val = [] ∨ req.smallest.val = e.val) := by
      cases cur with
      | none =>
          simp only [entryAfter, hop, Option.mem_def, Option.some.injEq] at he
          rw [← he, smallest]
          exact ⟨ite_eq_or_eq _ _ _, ite_eq_or_eq _ _ _⟩
      | some prev =>
          simp only [entryAfter, hop, Option.mem_def, Option.some.injEq] at he
          rw [← he, smallest]
          cases req.ignoreLease <;> cases req.ignoreValue <;> simp
    refine h ⟨hlen, by simp [smallest], by simp [smallest], ?_, ?_⟩
    · rcases hlease' with hzero | heq
      · rw [hzero]
        decide
      · rwa [heq]
    · rcases hval' with hnil | heq
      · exact hnil
      · rwa [heq]
  · rintro h ⟨hlen, -, -, hlease, hval⟩
    -- over a record of the first revision without a value and without a lease
    refine h ⟨0, .zero, req.key, .put req.value req.lease.toUInt64 req.ignoreValue
      req.ignoreLease⟩ rfl rfl (some {}) _ rfl ⟨hlen, by simp, by simp, ?_, ?_⟩
    · simpa only [smallest] using hlease
    · simpa only [smallest] using hval

namespace DbKv

theorem NoShort.opStep {E : Env} {A : PutRequest → Prop} {db db' : DbKv} {rev subrev : Nat}
    (hA : ∀ req, A req → req.LongEnough) (h : NoShort db.log)
    (hop : OpStep E A rev subrev db db') : NoShort db'.log := by
  cases hop with
  | @put _ epoch req prev next patched hreq hput =>
      rw [(put_tables hput).2.2.1]
      exact h.append (PutRequest.longEnough_iff.mp (hA req hreq) _ rfl rfl)
  | @tombs epoch ks hchain =>
      clear hchain
      induction ks generalizing db with
      | nil => exact h
      | cons k ks ih =>
          refine ih (Turbokube.NoShort.append h (fun cur e he => ?_))
          cases he

theorem NoShort.kvRun {E : Env} {A : PutRequest → Prop} {db db' : DbKv} {n r r' : Nat}
    (hA : ∀ req, A req → req.LongEnough) (h : NoShort db.log)
    (hrun : KvRun E A n db r db' r') : NoShort db'.log :=
  hrun.keeps (I := fun db => NoShort db.log) (fun h hop => NoShort.opStep hA h hop) h

variable {E : Env} {S : Prop} {db db' : DbKv} {ch : Bytes → List Version} {rev subrev : Nat}

/-- A key that is live has a live newest version. -/
theorem Rep.head_live (h : db.Rep E S ch) (hlog : LogOk db.log lo hi) {k : Bytes}
    (hlive : db.Live k) {v : Version} (hv : v ∈ (versions db.log k).head?) :
    v.rev.isdel = false := by
  have hcur := (h.live_iff hlog k).mp hlive
  obtain ⟨tail, htail⟩ := List.head?_eq_some_iff.mp (Option.mem_def.mp hv)
  rw [h.current_eq, htail, current_cons] at hcur
  exact (hlog.item_isSome (by rw [htail]; exact List.mem_cons_self)).mp hcur

theorem mem_foldl_liveStep {l acc : List Version} {x : Version} (hx : x ∈ l.foldl liveStep acc) :
    x ∈ acc ∨ x ∈ l := by
  induction l generalizing acc with
  | nil => exact .inl hx
  | cons v l ih =>
      rcases ih hx with hx | hx
      · rw [liveStep] at hx
        split at hx
        · rcases List.mem_append.mp hx with hx | hx
          · exact .inl hx
          · exact .inr (List.mem_cons.mpr (.inl (List.mem_singleton.mp hx)))
        · cases hx
      · exact .inr (List.mem_cons_of_mem _ hx)

theorem Rep.readable (h : db.Rep E S ch) (hshort : NoShort db.log) (r : UInt64) (k : Bytes) :
    Readable r (ch k) := by
  intro v hv _ x hx
  have hmem : x ∈ ch k := by
    rcases List.mem_append.mp hx with hx | hx
    · rcases mem_foldl_liveStep hx with hx | hx
      · cases hx
      · exact (List.takeWhile_sublist _).mem hx
    · rw [List.mem_singleton.mp hx]
      exact (List.dropWhile_sublist _).mem (List.mem_of_head? hv)
  exact hshort k x (h.mem_versions hmem)

theorem Spaced.put (h : Spaced T db.log) (hrep : db.Rep E S ch) (hlog : LogOk db.log lo hi)
    (hmulti : E.flags.txnMultiWriteEnabled = false) (hrev : rev < 2 ^ 52) (hsub : subrev < 1024)
    (hlo : lo ≤ (rev + 1) * 4096) (hhi : hi ≤ (rev + 1) * 4096) {lease epoch : UInt64}
    {key val : Bytes} {ignoreValue ignoreLease patched : Bool} {prev next : Kv}
    (hput : db.put E rev subrev lease epoch key val ignoreValue ignoreLease =
      .ok (db', prev, next, patched))
    (hT : T → ∀ v ∈ (versions db.log key).head?, v.rev.isdel = true → v.rev.upper.toNat < rev) :
    Spaced T db'.log := by
  obtain ⟨-, -, hlog', -⟩ := put_tables hput
  have hle : ∀ v ∈ versions db.log key, v.rev.upper.toNat ≤ rev := fun v hv =>
    hlog.upper_le hlo hhi hv
  rw [hlog']
  refine h.append (revAt_upper hrev hsub false) hle (fun v hv hdel => ?_)
  obtain ⟨tail, htail⟩ := List.head?_eq_some_iff.mp (Option.mem_def.mp hv)
  have hmem : v ∈ versions db.log key := by
    rw [htail]
    exact List.mem_cons_self
  cases hv' : v.rev.isdel with
  | true => exact hT (hdel hv') v hv hv'
  | false =>
      -- the put would have been refused at the revision of the live version
      obtain ⟨e, he⟩ := Option.isSome_iff_exists.mp ((hlog.item_isSome hmem).mpr hv')
      have hcur : current (ch key) = some e := by
        rw [hrep.current_eq, htail, current_cons, he]
      rcases hrep.put_inv hlog hput with ⟨hnone, -⟩ | ⟨e', he', -, hdup, -⟩
      · rw [hcur] at hnone
        cases hnone
      · obtain rfl := Option.some.inj (hcur.symm.trans he')
        rw [(item_of_mem_versions hmem he).1, hmulti] at hdup
        have hne : v.rev.upper.toNat ≠ rev := by
          intro heq
          refine hdup ⟨?_, rfl⟩
          rw [← heq, UInt64.ofNat_toNat]
        have := hle v hmem
        omega

theorem Spaced.tombstones (h : Spaced T db.log) (hrep : db.Rep E S ch) (hlog : LogOk db.log lo hi)
    (hpos : 0 < rev) (hrev : rev < 2 ^ 52) (hsub : subrev < 1024)
    (hlo : lo = rev * 4096 + subrev * 4) (hhi : hi = rev * 4096 + subrev * 4 + 3) {epoch : UInt64}
    {ks : List Bytes} (hchain : LiveChain rev subrev epoch ks db)
    (hold : ∀ k ∈ ks, ∀ v ∈ (versions db.log k).head?, v.rev.isdel = false →
      v.rev.upper.toNat < rev) :
    Spaced T (db.tombstones rev subrev epoch ks).log := by
  induction ks generalizing db ch with
  | nil => exact h
  | cons k ks ih =>
      have hword := revAt_toNat hrev hsub true
      simp only [if_true] at hword
      have hlive := (hrep.live_iff hlog k).mp hchain.1
      have happ : (db.tombstone rev subrev epoch k).log =
          db.log ++ [⟨rev, revAt rev subrev true, k, .delete⟩] := rfl
      refine ih ?_ (hrep.tombstone hlog epoch (by omega) hlive)
        (hrep.tombstone_logOk hlog hpos hrev hsub hlo hhi hlive) hchain.2 ?_
      · refine h.append (w := ⟨rev, revAt rev subrev true, k, .delete⟩)
          (revAt_upper hrev hsub true) (fun v hv => hlog.upper_le (by omega) (by omega) hv)
          (fun v hv _ => hold k List.mem_cons_self v hv (hrep.head_live hlog hchain.1 hv))
      · intro k' hk' v hv hdel
        by_cases hk : k' = k
        · subst hk
          rw [happ, versions_append_self _ ⟨rev, revAt rev subrev true, k', .delete⟩,
            List.head?_cons, Option.mem_some_iff] at hv
          subst hv
          rw [Write.version, revAt_isdel] at hdel
          cases hdel
        · rw [happ, versions_append_ne _ hk] at hv
          exact hold k' (List.mem_cons_of_mem _ hk') v hv hdel

end DbKv

end Turbokube
