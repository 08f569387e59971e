import Turbokube.Machine.CompactMarks
import Turbokube.Machine.Listing
import Turbokube.Machine.Snapshots
import Turbokube.Machine.Spacing
import Turbokube.Model.Query
import Turbokube.Watch.Compacted

/-!
# Reads at past revisions

A range at an explicit revision is answered by the store of the node that receives it, without
going through the log, when the node has that revision: revisions are immutable.  They are, in
the items and the count of the answer, as long as no compaction asks for a revision below the
mark of an earlier one.  The flag `more` of a range with a limit is not: it is also set for a key
that was only written later.
-/

namespace Turbokube

open Encoding Lmdb DbKv

/-- What is asked of the commands of a run so that the revisions from the mark on stay
readable. -/
def Cmd.KeepsRevisions (b : Batch) (cmd : Cmd) : Prop :=
  cmd.OpsAtMost 1024 ∧ cmd.PutsMeet PutRequest.SendsNoKept ∧ cmd.PutsMeet PutRequest.LongEnough ∧
    cmd.KeepsMark b

instance (b : Batch) (cmd : Cmd) : Decidable (cmd.KeepsRevisions b) :=
  inferInstanceAs (Decidable (_ ∧ _ ∧ _ ∧ _))

/-- The nodes of a run of batches whose entries meet `Q`, with restarts. -/
inductive Node.Reached (E : Env) (Q : Batch → Cmd → Prop) : Node → Prop where
  | start : Node.Reached E Q {}
  | restart {n : Node} (h : Node.Reached E Q n) : Node.Reached E Q { n with localRevision := 0 }
  | update {n n' : Node} {ents : List Entry} {rs : List Result} (h : Node.Reached E Q n)
      (hQ : AllMeet E Q ents (.start n.store)) (hok : n.update E ents = .ok (n', rs)) :
      Node.Reached E Q n'

variable {E : Env} {Q : Batch → Cmd → Prop} {b b' : Batch} {n : Node}

theorem update_rev {s : Store} {ents : List Entry} {u : Updated} (h : update E s ents = .ok u) :
    u.store.dbMeta.rev = u.newRev := by
  unfold update at h
  split at h
  · cases h
  · rename_i b' rs happly
    split at h
    · cases h
    · obtain rfl := Except.ok.inj h
      have hsync := synced_applyEntries (synced_start s) happly
      show (if s.dbMeta.rev < b'.newRev then b'.newRev else b'.store.dbMeta.rev) = b'.newRev
      split
      · rfl
      · rename_i hnot
        have hle := hsync.le
        rw [hsync.stored]
        omega

/-- The revision of the process is one the store has. -/
theorem Node.Reached.sound (h : Node.Reached E Q n) :
    Turbokube.Reached E Q (.start n.store) ∧ n.localRevision.toNat ≤ n.store.dbMeta.rev := by
  induction h with
  | start => exact ⟨.init, Nat.zero_le _⟩
  | restart _ ih => exact ⟨ih.1, Nat.zero_le _⟩
  | @update n n' ents rs _ hQ hok ih =>
      rw [Node.update] at hok
      split at hok
      · cases hok
      · rename_i u hu
        obtain ⟨rfl, -⟩ := Prod.mk.inj (Except.ok.inj hok)
        refine ⟨ih.1.update hQ hu, ?_⟩
        have hrev := update_rev hu
        simp only
        split
        · rw [hrev, UInt64.toNat_ofNat']
          exact Nat.mod_le _ _
        · rename_i hsame
          rw [hrev, ← not_not.mp hsame]
          exact ih.2

/-- What compactions up to the mark keep is there. -/
theorem Reached.keptFrom (hQ : ∀ b cmd, Q b cmd → cmd.KeepsRevisions b) (h : Reached E Q b)
    (hrev : b.newRev < 2 ^ 52) :
    b.store.tables.kv.KeptFrom E True b.store.dbMeta.revMin.toNat ((b.newRev + 1) * 4096) :=
  h.keptFrom_mark (fun b cmd hq =>
    ⟨(hQ b cmd hq).1, (hQ b cmd hq).2.1.imp (fun _ hreq _ => hreq), (hQ b cmd hq).2.2.2⟩) hrev

/-- Later entries write at later revisions. -/
theorem Effect.log_append {cmd : Cmd} (heff : Effect E b cmd b')
    (hok : b.store.tables.kv.RecsOk) :
    ∃ new, b'.store.tables.kv.log = b.store.tables.kv.log ++ new ∧ ∀ w ∈ new, b.newRev < w.rev := by
  obtain ⟨n, hn, hops⟩ := opsAtMost_longest cmd
  rcases heff.kvRun hn hops (putsMeet_true cmd) hok with hrun | ⟨_, _, _, _, hc⟩
  · exact hrun.log_append.2
  · refine ⟨[], ?_, by simp⟩
    rw [(compact_shrunk hc).log, List.append_nil]

theorem Leads.log_append (hb : Reached E Q b) (h : Leads E Q b b') :
    ∃ new, b'.store.tables.kv.log = b.store.tables.kv.log ++ new ∧ ∀ w ∈ new, b.newRev < w.rev := by
  induction h with
  | refl => exact ⟨[], by simp, by simp⟩
  | @entry b₁ b₂ ent res h _ happly ih =>
      obtain ⟨new, hlog, hnew⟩ := ih
      have hle := hb.newRev_le_of_leads h
      obtain ⟨new', hlog', hnew'⟩ :=
        (effect_of_applyEntry happly).log_append (hb.leads h).recsOk
      refine ⟨new ++ new', ?_, fun w hw => ?_⟩
      · rw [hlog', hlog, List.append_assoc]
      · rcases List.mem_append.mp hw with hw | hw
        · exact hnew w hw
        · exact hle.trans_lt (hnew' w hw)
  | @commit b₁ index h ih =>
      obtain ⟨htables, -, -⟩ := eq_of_core_eq (core_start_finish (hb.leads h).synced index)
      rw [htables]
      exact ih

/-- What was there at a revision is not touched by later writes. -/
theorem snapshotAt_append {log new : List Write} {r : Nat} (h : ∀ w ∈ new, r < w.rev) :
    snapshotAt (log ++ new) r = snapshotAt log r := by
  have hnil : new.filter (fun w => w.rev ≤ r) = [] := by
    refine List.filter_eq_nil_iff.mpr (fun w hw => ?_)
    have := h w hw
    simp only [decide_eq_true_eq]
    omega
  rw [snapshotAt, snapshotAt, List.filter_append, hnil, List.append_nil]

theorem seenAt_eq_snapshotAt {log : List Write} {lo hi : Nat} (hlog : LogOk log lo hi) {r : UInt64}
    (hpos : 0 < r) (k : Bytes) : seenAt log r k = snapshotAt log r.toNat k := by
  have hr : r = UInt64.ofNat r.toNat := by simp
  rw [seenAt, hr, current_versionsAt hlog (UInt64.lt_iff_toNat_lt.mp hpos) r.toNat_lt, ← hr]

/-- Only a compaction moves the mark. -/
theorem Effect.mark_cases {cmd : Cmd} (heff : Effect E b cmd b') :
    b'.store.dbMeta.revMin = b.store.dbMeta.revMin ∨
      ∃ revision last, cmd = .compact revision ∧ b'.newRev = b.newRev ∧
        b'.store.dbMeta.revMin = revision.toUInt64 ∧
        b.store.tables.kv.compact E revision.toUInt64 = .ok (b'.store.tables.kv, last) := by
  cases heff with
  | compact hc => exact .inr ⟨_, _, rfl, rfl, rfl, hc⟩
  | _ => exact .inl rfl

/-- The mark of the compactions is not ahead of the revision. -/
theorem Reached.revMin_le (hQ : ∀ b cmd, Q b cmd → cmd.KeepsRevisions b) (h : Reached E Q b)
    (hrev : b.newRev < 2 ^ 52) : b.store.dbMeta.revMin.toNat ≤ b.newRev := by
  induction h with
  | init => exact le_rfl
  | @entry b b' ent res hb hcmd happly ih =>
      have heff := effect_of_applyEntry happly
      have hlt := heff.newRev_le.trans_lt hrev
      rcases heff.mark_cases with hmin | ⟨revision, last, -, hnew, hmin, hc⟩
      · rw [hmin]
        exact (ih hlt).trans heff.newRev_le
      · obtain ⟨ch, hrep, hlog, -⟩ := hb.keptFrom hQ hlt
        obtain ⟨evt, hevt, hle⟩ := (hrep.compactBy_inv hlog hc).1.event
        obtain ⟨p, hp, rfl⟩ := List.mem_map.mp hevt
        have hword := (hrep.evt_lt hlog hp).2
        rw [UInt64.le_iff_toNat_le, Keyrev.upper_toNat] at hle
        rw [hmin, hnew]
        omega
  | @commit b index hb ih =>
      obtain ⟨-, hrev', -⟩ := eq_of_core_eq (core_start_finish hb.synced index)
      rw [hrev'] at hrev ⊢
      exact ih hrev

/-- The answer to a range whose keys hold `es`. -/
def rangeAnswer (E : Env) (rev : Nat) (req : RangeRequest) (es : List Kv) (more : Bool) :
    RangeResponse where
  header := responseHeader E rev
  kvs := if req.countOnly then [] else (listing E (rangeArgs req) es).1.map Kv.toProto
  more := if req.countOnly then false else more
  count :=
    if req.countOnly ∨ E.flags.rangeCountFull ∨ E.flags.rangeCountFake then
      Int64.ofNat (listing E (rangeArgs req) es).2
    else 0

/-- The revision asked for is one the state can answer for. -/
def RangeRequest.Available (b : Batch) (req : RangeRequest) : Prop :=
  req.revision ≤ 0 ∨ b.store.dbMeta.revMin.toInt64 ≤ req.revision ∧
    req.revision ≤ (UInt64.ofNat b.newRev).toInt64

/-- A range answers with what its keys hold. -/
theorem Reached.range_eq (hQ : ∀ b cmd, Q b cmd → cmd.KeepsRevisions b) (h : Reached E Q b)
    (hrev : b.newRev < 2 ^ 52) {req : RangeRequest} (hkey : ValidKey req.key)
    (hreq : req.Available b) :
    ∃ more, b.range E req = .ok (rangeAnswer E b.newRev req
        (b.store.tables.kv.entriesAt req.revision.toUInt64 req.key req.rangeEnd) more) ∧
      (¬ 0 < req.limit → more = false) := by
  obtain ⟨ch, hrep, hlog, -⟩ := h.keptFrom hQ hrev
  have hshort := h.noShort (fun b cmd hq => (hQ b cmd hq).2.2.1)
  obtain ⟨more, hget, hmore⟩ := hrep.getRange_listing hlog hshort (rangeArgs req) hkey req.rangeEnd
  have hcompacted : ¬ (0 < req.revision ∧ req.revision < b.store.dbMeta.revMin.toInt64) := by
    rintro ⟨hpos, hlt⟩
    rcases hreq with hle | ⟨hle, -⟩
    · exact Int64.not_lt.mpr hle hpos
    · exact Int64.not_lt.mpr hle hlt
  have hfuture : ¬ (0 < req.revision ∧ (UInt64.ofNat b.newRev).toInt64 < req.revision) := by
    rintro ⟨hpos, hlt⟩
    rcases hreq with hle | ⟨-, hle⟩
    · exact Int64.not_lt.mpr hle hpos
    · exact Int64.not_lt.mpr hle hlt
  refine ⟨more, ?_, fun hlimit => hmore (by simpa [rangeArgs] using hlimit)⟩
  rw [Batch.range, queryRange, if_neg hcompacted, if_neg hfuture, hget]
  rfl

/-- What the keys of a range hold at a revision that is not compacted does not change. -/
theorem Leads.entriesAt_eq (hQ : ∀ b cmd, Q b cmd → cmd.KeepsRevisions b) (h : Reached E Q b)
    (hleads : Leads E Q b b') (hrev : b'.newRev < 2 ^ 52) {r : UInt64} (hpos : 0 < r)
    (hle : r.toNat ≤ b.newRev) (hmin : b.store.dbMeta.revMin.toNat ≤ r.toNat)
    (hmin' : b'.store.dbMeta.revMin.toNat ≤ r.toNat) (key rangeEnd : Bytes) :
    b'.store.tables.kv.entriesAt r key rangeEnd = b.store.tables.kv.entriesAt r key rangeEnd := by
  have hkept := h.keptFrom hQ ((h.newRev_le_of_leads hleads).trans_lt hrev)
  have hkept' := (h.leads hleads).keptFrom hQ hrev
  obtain ⟨hsorted, hmem⟩ := hkept.entriesAt_spec (.inr hmin) key rangeEnd
  obtain ⟨hsorted', hmem'⟩ := hkept'.entriesAt_spec (.inr hmin') key rangeEnd
  obtain ⟨ch, hrep, hlog, -⟩ := hkept
  obtain ⟨ch', hrep', hlog', -⟩ := hkept'
  obtain ⟨new, happend, hnew⟩ := hleads.log_append h
  refine eq_of_sorted_by hsorted' hsorted (fun e => ?_)
  rw [hmem, hmem', seenAt_eq_snapshotAt hlog hpos, seenAt_eq_snapshotAt hlog' hpos, happend,
    snapshotAt_append (fun w hw => hle.trans_lt (hnew w hw))]

/-- What the compactions of a run make of the mark. -/
theorem Leads.revMin_rec {I : UInt64 → Prop}
    (hI : ∀ b₁ revision, I b₁.store.dbMeta.revMin → Q b₁ (.compact revision) →
      I revision.toUInt64)
    (h : Leads E Q b b') (hb : I b.store.dbMeta.revMin) : I b'.store.dbMeta.revMin := by
  induction h with
  | refl => exact hb
  | @entry b₁ b₂ ent res _ hq happly ih =>
      rcases (effect_of_applyEntry happly).mark_cases with hmin | ⟨revision, -, heq, -, hmin, -⟩
      · rw [hmin]
        exact ih
      · rw [heq] at hq
        rw [hmin]
        exact hI b₁ revision ih hq
  | commit index _ ih => exact ih

section Revision

variable {s : Store} {req : RangeRequest} {r : Nat}

theorem toNat_of_toInt {x : Int64} (h : x.toInt = r) (hpos : 0 < r) : x.toUInt64.toNat = r := by
  have hx : x.toUInt64.toInt64 = x := by simp
  have hlim := toInt_limit (n := x.toUInt64)
    (by rw [hx, Int64.lt_iff_toInt_lt, h, Int64.toInt_zero]; omega)
  rw [hx, h] at hlim
  omega

theorem RangeRequest.available_of_le (hr : req.revision.toInt = r) (hrev : s.dbMeta.rev < 2 ^ 52)
    (hmin : s.dbMeta.revMin.toNat ≤ r) (hle : r ≤ s.dbMeta.rev) : req.Available (.start s) := by
  have hof : (UInt64.ofNat s.dbMeta.rev).toNat = s.dbMeta.rev := by
    rw [UInt64.toNat_ofNat', Nat.mod_eq_of_lt (by omega)]
  refine .inr ⟨?_, ?_⟩
  · show s.dbMeta.revMin.toInt64 ≤ _
    rw [Int64.le_iff_toInt_le, hr, toInt_toInt64_of_lt (by omega)]
    omega
  · show _ ≤ (UInt64.ofNat s.dbMeta.rev).toInt64
    rw [Int64.le_iff_toInt_le, hr, toInt_toInt64_of_lt (by omega), hof]
    omega

theorem query_compacted (hr : req.revision.toInt = r) (hpos : 0 < r)
    (hmin : s.dbMeta.revMin.toNat < 2 ^ 52) (hlt : ¬ s.dbMeta.revMin.toNat ≤ r) :
    query E s (.kvRange req) = { data := .text Err.grpcCompacted.error } := by
  rw [query, queryRange, if_pos]
  rw [Int64.lt_iff_toInt_lt, Int64.lt_iff_toInt_lt, hr, toInt_toInt64_of_lt hmin, Int64.toInt_zero]
  omega

end Revision

theorem query_of_range {s : Store} {req : RangeRequest} {res : RangeResponse}
    (h : (Batch.start s).range E req = .ok res) :
    query E s (.kvRange req) = ⟨1, .kvRange res⟩ := by
  have hrange : queryRange E s.tables.kv s.dbMeta.revMin s.dbMeta.rev req = .ok res := h
  rw [query, hrange]

/-- When a range is answered by the node instead of going through the log, a store that is
further on in the log would have given the same items and the same count, unless it has compacted
the revision. -/
theorem localRange_agrees {s : Store} {req : RangeRequest}
    (h : Node.Reached E (fun b cmd => cmd.KeepsRevisions b) n)
    (hleads : Leads E (fun b cmd => cmd.KeepsRevisions b) (.start n.store) (.start s))
    (hrev : s.dbMeta.rev < 2 ^ 52) (hkey : ValidKey req.key)
    (hlocal : rangeSerializable true n.localRevision false req = true) :
    query E s (.kvRange req) = { data := .text Err.grpcCompacted.error } ∨
      ∃ res res', query E n.store (.kvRange req) = ⟨1, .kvRange res⟩ ∧
        query E s (.kvRange req) = ⟨1, .kvRange res'⟩ ∧ res'.kvs = res.kvs ∧
        res'.count = res.count ∧ (req.limit ≤ 0 → res'.more = res.more) := by
  obtain ⟨hreach, hnode⟩ := h.sound
  have hQ : ∀ b cmd, Cmd.KeepsRevisions b cmd → Cmd.KeepsRevisions b cmd := fun _ _ hcmd => hcmd
  have hle : n.store.dbMeta.rev ≤ s.dbMeta.rev := hreach.newRev_le_of_leads hleads
  have hmin : n.store.dbMeta.revMin ≤ s.dbMeta.revMin :=
    hleads.revMin_rec (I := fun m => n.store.dbMeta.revMin ≤ m)
      (fun _ _ hmin hcmd => UInt64.le_trans hmin hcmd.2.2.2) (UInt64.le_refl _)
  have hmin' : s.dbMeta.revMin.toNat ≤ s.dbMeta.rev := (hreach.leads hleads).revMin_le hQ hrev
  obtain ⟨hpos, hrevision⟩ : 0 < req.revision ∧ req.revision ≤ n.localRevision.toInt64 := by
    rw [rangeSerializable] at hlocal
    simpa using hlocal
  rw [Int64.lt_iff_toInt_lt, Int64.toInt_zero] at hpos
  rw [Int64.le_iff_toInt_le, toInt_toInt64_of_lt (hnode.trans_lt (hle.trans_lt hrev))] at hrevision
  obtain ⟨r, hr⟩ := Int.eq_ofNat_of_zero_le hpos.le
  by_cases hkept : s.dbMeta.revMin.toNat ≤ r
  · right
    have hkeptN := (UInt64.le_iff_toNat_le.mp hmin).trans hkept
    obtain ⟨more, hrange, hmore⟩ := hreach.range_eq hQ (hle.trans_lt hrev) hkey
      (RangeRequest.available_of_le hr (by omega) hkeptN (by omega))
    obtain ⟨more', hrange', hmore'⟩ := (hreach.leads hleads).range_eq hQ hrev hkey
      (RangeRequest.available_of_le hr hrev hkept (by omega))
    have hnat := toNat_of_toInt hr (by omega)
    have hentries := hleads.entriesAt_eq hQ hreach hrev (r := req.revision.toUInt64)
      (by rw [UInt64.lt_iff_toNat_lt, UInt64.toNat_zero]; omega)
      (show req.revision.toUInt64.toNat ≤ n.store.dbMeta.rev by omega)
      (hkeptN.trans hnat.ge) (hkept.trans hnat.ge) req.key req.rangeEnd
    rw [hentries] at hrange'
    refine ⟨_, _, query_of_range hrange, query_of_range hrange', rfl, rfl, fun hlimit => ?_⟩
    rw [hmore (Int64.not_lt.mpr hlimit), hmore' (Int64.not_lt.mpr hlimit)]
    rfl
  · exact .inl (query_compacted hr (by omega) (by omega) hkept)

/-- Two revisions of a key. -/
def twoRevisions : List Entry :=
  [{ index := 1, cmd := .put { key := [97], value := [1] } },
    { index := 2, cmd := .put { key := [97], value := [2] } }]

/-- The store has a third revision of the key that the node has not. -/
theorem localRange_agrees_after_put :
    ∃ r₁ ∈ (Node.update .plain {} twoRevisions).toOption,
      ∃ r₂ ∈ (applyEntry .plain (.start r₁.1.store)
          { index := 3, cmd := .put { key := [97], value := [3] } }).toOption,
        ∃ res res' : RangeResponse,
          query .plain r₁.1.store (.kvRange { key := [97], revision := 2 }) = ⟨1, .kvRange res⟩ ∧
          query .plain (r₂.1.finish r₂.1.store.dbMeta.rev 3)
            (.kvRange { key := [97], revision := 2 }) = ⟨1, .kvRange res'⟩ ∧
          res'.kvs = res.kvs := by
  obtain ⟨r₁, hr₁, hmeet, r₂, hr₂, hcmd, hlocal, hrev, hmin⟩ :
      ∃ r₁ ∈ (Node.update .plain {} twoRevisions).toOption,
      AllMeet .plain (fun b cmd => cmd.KeepsRevisions b) twoRevisions (.start .init) ∧
      ∃ r₂ ∈ (applyEntry .plain (.start r₁.1.store)
          { index := 3, cmd := .put { key := [97], value := [3] } }).toOption,
        (Cmd.put { key := [97], value := [3] }).KeepsRevisions (.start r₁.1.store) ∧
        rangeSerializable true r₁.1.localRevision false { key := [97], revision := 2 } = true ∧
        (r₂.1.finish r₂.1.store.dbMeta.rev 3).dbMeta.rev < 2 ^ 52 ∧
        query .plain (r₂.1.finish r₂.1.store.dbMeta.rev 3)
          (.kvRange { key := [97], revision := 2 }) ≠
            { data := .text Err.grpcCompacted.error } := by decide +kernel
  have hnode : Node.Reached .plain (fun b cmd => cmd.KeepsRevisions b) r₁.1 :=
    .update .start hmeet (eq_ok_of_mem_toOption hr₁)
  have hleads : Leads .plain (fun b cmd => cmd.KeepsRevisions b) (.start r₁.1.store)
      (.start (r₂.1.finish r₂.1.store.dbMeta.rev 3)) :=
    .commit 3 (.entry .refl hcmd (eq_ok_of_mem_toOption hr₂))
  rcases localRange_agrees hnode hleads hrev (by decide) hlocal with
    hrefused | ⟨res, res', hres, hres', hkvs, -⟩
  · exact absurd hrefused hmin
  · exact ⟨r₁, hr₁, r₂, hr₂, res, res', hres, hres', hkvs⟩

end Turbokube
