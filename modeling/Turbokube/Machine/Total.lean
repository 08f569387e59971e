import Turbokube.Machine.CompactOutcomes
import Turbokube.Machine.Covered
import Turbokube.Machine.LeaseTimes
import Turbokube.Machine.Listing
import Turbokube.Machine.Spacing

/-!
# Entries that cannot stop a replica

An error that leaves the closure of `update` is a panic that every replica repeats.  `Safe` says
which entries cannot cause one: their ranges and deletions name keys the store accepts, their
comparisons hold a value of the kind they compare, their reads ask for a revision that is there,
compaction finds an event to stop at, and their puts leave no record that is too short, no patch
against a value that was not stored and no lease without its attachment.

`Healthy` is what the tables keep when all entries are safe.  Its lemmas say of each command that
it succeeds and keeps the tables healthy, or is refused with an error of the client.
-/

namespace Turbokube

open Encoding Lmdb DbKv

structure Healthy (E : Env) (t : Tables) (bound : Nat) : Prop where
  kv : t.kv.Versioned E True False bound
  noShort : NoShort t.kv.log
  covered : Covered t
  sweepable : Sweepable t
  lease : ∃ m, LeaseTables t m

/-- What is asked of a put beyond the checks that refuse it. -/
structure PutRequest.Safe (req : PutRequest) : Prop where
  tidy : req.Tidy
  kept : req.SendsNoKept
  long : req.LongEnough

variable {E : Env} {t t' : Tables} {bound rev i : Nat} {epoch id : UInt64}

/-- A search that comes to the end of the ids succeeds there. -/
theorem freeLeaseID_wraps {m : UInt64 → Option Lease} (h : Leases t.lease m) {fuel : Nat}
    (hid : 2 ^ 64 ≤ id.toNat + fuel) : ∃ id', freeLeaseID t.lease fuel id = .ok id' := by
  induction fuel generalizing id with
  | zero =>
      have := id.toNat_lt
      omega
  | succ fuel ih =>
      rw [freeLeaseID, h.dbGet]
      simp only
      split
      · exact ⟨_, rfl⟩
      · rename_i hfound
        refine ih ?_
        rw [UInt64.toNat_add, UInt64.toNat_one]
        by_cases hwrap : id.toNat + 1 = 2 ^ 64
        · -- the lease found is 0, which stands for none
          have hzero : id + 1 = 0 := by
            rw [← UInt64.toNat_inj, UInt64.toNat_add, UInt64.toNat_one, hwrap]
            rfl
          rw [hzero] at hfound
          cases hm : m 0 with
          | none =>
              rw [hm] at hfound
              exact absurd rfl hfound
          | some l =>
              rw [hm, Option.getD_some, h.id 0 l hm] at hfound
              exact absurd rfl hfound
        · have := id.toNat_lt
          rw [Nat.mod_eq_of_lt (by omega)]
          omega

/-- A free id is found wherever the search starts: it ends at the latest where the ids start
over, since 0 is never taken. -/
theorem freeLeaseID_total {m : UInt64 → Option Lease} (h : Leases t.lease m) (id : UInt64) :
    ∃ id', freeLeaseID t.lease (t.lease.entries.length + 1) id = .ok id' := by
  by_cases hid : id.toNat + t.lease.entries.length + 1 < 2 ^ 64
  · obtain ⟨id', hfree, -⟩ := exists_freeLeaseID h hid
    exact ⟨id', hfree⟩
  · exact freeLeaseID_wraps h (by omega)

theorem cmdDeleteRange_ok {req : DeleteRangeRequest} {kv : DbKv} {prev : List Keyrecord}
    {leaseKey : Table Bytes Bytes} {items : List KeyValue}
    (hdel : t.kv.deleteRange E rev i epoch req.key req.rangeEnd = .ok (kv, prev))
    (hdetach : detachAll prev t.leaseKey = .ok leaseKey)
    (hprev : (if req.prevKv then prevKvs E kv prev none else .ok []) = .ok items) :
    cmdDeleteRange E t rev i epoch req =
      .ok ({ t with kv := kv, leaseKey := leaseKey },
        { header := responseHeader E rev, deleted := Int64.ofNat prev.length, prevKvs := items },
        List.replicate prev.length [] ++ prev.map Keyrecord.key) := by
  rw [cmdDeleteRange, hdel]
  simp only [hdetach, hprev]

namespace Healthy

theorem empty : Healthy E .empty bound := ⟨.empty, .nil, .empty, .empty, _, .empty⟩

theorem mono {bound' : Nat} (h : Healthy E t bound) (hle : bound ≤ bound') : Healthy E t bound' :=
  ⟨h.kv.mono hle, h.noShort, h.covered, h.sweepable, h.lease⟩

/-- Only the lease tables differ. -/
theorem congr (h : Healthy E t bound) (hkv : t'.kv = t.kv) (hkey : t'.leaseKey = t.leaseKey)
    (hlease : ∃ m, LeaseTables t' m) : Healthy E t' bound where
  kv := by rw [hkv]; exact h.kv
  noShort := by rw [hkv]; exact h.noShort
  covered := h.covered.congr (congrArg DbKv.log hkv) hkey
  sweepable := h.sweepable.congr hkv hkey
  lease := hlease

section Reads

/-- A read of a key succeeds at every revision. -/
theorem getRev (h : Healthy E t bound) {key : Bytes} (hkey : ValidKey key) (r : UInt64) :
    ∃ item, t.kv.getRev E key r false = (item, {}, none) := by
  obtain ⟨ch, hrep, hlog, -⟩ := h.kv
  have hread := hrep.readable h.noShort r key
  exact ⟨_, hrep.getRev hlog hkey hread (fun hc => by cases hc)⟩

theorem get (h : Healthy E t bound) {key : Bytes} (hkey : ValidKey key) :
    ∃ item, t.kv.get E key = .ok item := by
  obtain ⟨item, hget⟩ := h.getRev hkey 0
  exact ⟨item, by rw [DbKv.get, hget]⟩

theorem queryRange (h : Healthy E t bound) {revMin : UInt64} {req : RangeRequest}
    (hkey : ValidKey req.key)
    (hrev : req.revision ≤ 0 ∨
      revMin.toInt64 ≤ req.revision ∧ req.revision ≤ (UInt64.ofNat rev).toInt64) :
    ∃ res, queryRange E t.kv revMin rev req = .ok res := by
  have hcompacted : ¬ (0 < req.revision ∧ req.revision < revMin.toInt64) := by
    rintro ⟨hpos, hlt⟩
    rcases hrev with hle | ⟨hle, -⟩
    · exact Int64.not_lt.mpr hle hpos
    · exact Int64.not_lt.mpr hle hlt
  have hfuture : ¬ (0 < req.revision ∧ (UInt64.ofNat rev).toInt64 < req.revision) := by
    rintro ⟨hpos, hlt⟩
    rcases hrev with hle | ⟨-, hle⟩
    · exact Int64.not_lt.mpr hle hpos
    · exact Int64.not_lt.mpr hle hlt
  obtain ⟨ch, hrep, hlog, -⟩ := h.kv
  obtain ⟨more, hrange, -⟩ :=
    hrep.getRange_listing hlog h.noShort (rangeArgs req) hkey req.rangeEnd
  rw [Turbokube.queryRange, if_neg hcompacted, if_neg hfuture, hrange]
  exact ⟨_, rfl⟩

theorem prevKvs (h : Healthy E t bound) {items : List Keyrecord}
    (hitems : ∀ kr ∈ items, ValidKey kr.key) :
    ∃ kvs, Turbokube.prevKvs E t.kv items none = .ok kvs := by
  induction items with
  | nil => exact ⟨[], rfl⟩
  | cons kr items ih =>
      obtain ⟨item, hget⟩ := h.getRev (hitems kr List.mem_cons_self) kr.rev.upper
      obtain ⟨kvs, hkvs⟩ := ih (fun kr' hkr' => hitems kr' (List.mem_cons_of_mem _ hkr'))
      rw [Turbokube.prevKvs, hget]
      simp only [hkvs]
      exact ⟨_, rfl⟩

end Reads

section Writes

/-- The records before operation `i` of a command are below it. -/
theorem upper_lt {ch : Bytes → List Version} {S : Prop} {db : DbKv}
    (hrep : db.Rep E S ch) (hlog : LogOk db.log bound bound) (hbound : bound ≤ rev * 4096)
    {k : Bytes} {v : Version} (hv : v ∈ ch k) : v.rev.upper.toNat < rev := by
  obtain ⟨w, hw, -, cur, rfl⟩ := write_of_mem_versions (hrep.mem_versions hv)
  have hlt := hlog.lt w hw
  rw [ite_self] at hlt
  simp only [Write.version, Keyrev.upper_toNat]
  omega

theorem dbPut (h : Healthy E t (rev * 4096 + i * 4)) (hrev : rev < 2 ^ 52) (epoch : UInt64)
    (req : PutRequest) :
    (∃ out, t.kv.put E rev i req.lease.toUInt64 epoch req.key req.value req.ignoreValue
        req.ignoreLease = .ok out) ∨
      ∃ e, t.kv.put E rev i req.lease.toUInt64 epoch req.key req.value req.ignoreValue
          req.ignoreLease = .error e ∧
        (e = .grpcEmptyKey ∨ e = .grpcKeyTooLong ∨ e = .grpcDuplicateKey ∧ 0 < i) := by
  by_cases hempty : req.key.length = 0
  · exact .inr ⟨.grpcEmptyKey, by rw [DbKv.put, if_pos hempty], .inl rfl⟩
  by_cases hlong : limitKeyLength < req.key.length
  · exact .inr ⟨.grpcKeyTooLong, by rw [DbKv.put, if_neg hempty, if_pos hlong], .inr (.inl rfl)⟩
  obtain ⟨ch, hrep, hlog, -⟩ := h.kv
  have hkey : req.key ≠ [] := fun hnil => hempty (by rw [hnil]; rfl)
  obtain ⟨hnone, hsome⟩ := hrep.head_eq hlog req.key
  rw [put_eq hrep.recsOk hkey (Nat.not_lt.mp hlong)]
  cases hcur : current (ch req.key) with
  | none =>
      rw [if_pos (hnone hcur)]
      exact .inl ⟨_, rfl⟩
  | some e =>
      obtain ⟨hrevEq, hzero, hdel, hek⟩ := hsome e hcur
      obtain ⟨v, hv, hitem⟩ := Option.bind_eq_some_iff.mp hcur
      have hmem : v ∈ ch req.key := List.mem_of_head? hv
      rw [hrevEq, if_neg (by simp [hzero, hdel])]
      split
      · -- written by an earlier operation of the same command
        rename_i hdup
        refine .inr ⟨_, rfl, .inr (.inr ⟨rfl, Nat.pos_of_ne_zero (fun hi => ?_)⟩)⟩
        subst hi
        have hlt := @upper_lt E _ rev ch _ _ hrep hlog (by omega) _ _ hmem
        have hsame : v.rev.upper.toNat = rev := by
          rw [← (item_of_mem_versions (hrep.mem_versions hmem) hitem).1, hdup.1,
            UInt64.toNat_ofNat', Nat.mod_eq_of_lt (by omega)]
        omega
      · have hshort : ¬ e.Short := fun hs =>
          h.noShort req.key v (hrep.mem_versions hmem) ⟨e, hitem, hs⟩
        have hfetch : t.kv.val.fetch e.rev.key = .ok (e.bytes E.flags E.codec none) := by
          rw [Table.fetch, hrep.full req.key e hcur]
        have heklen : e.key.length < 2 ^ 64 := by
          rw [hek]
          exact lt_of_le_of_lt (Nat.not_lt.mp hlong) (by decide)
        have hdecode : Kv.fromBytes E.codec {} e.rev.key (e.bytes E.flags E.codec none) none false =
            (e, none) :=
          Kv.fromBytes_bytes {} hdel (by rw [hek]; exact hkey) heklen hshort (fun _ => .inl rfl)
        rw [putOver, hrevEq, hfetch]
        simp only [hdecode]
        exact .inl ⟨_, rfl⟩

/-- What one operation does to the key-value tables keeps them healthy. -/
theorem opStep {A : PutRequest → Prop} (h : Healthy E t (rev * 4096 + i * 4)) (hpos : 0 < rev)
    (hrev : rev < 2 ^ 52) (hi : i < 1024) (hA : ∀ req, A req → req.Safe)
    (hop : OpStep E A rev i t.kv t'.kv) (hcovered : Covered t') (hsweep : Sweepable t')
    (hlease : ∃ m, LeaseTables t' m) : Healthy E t' (rev * 4096 + (i + 1) * 4) where
  kv := h.kv.opStep (fun req hreq _ => (hA req hreq).kept) hpos hrev hi hop
  noShort := DbKv.NoShort.opStep (fun req hreq => (hA req hreq).long) h.noShort hop
  covered := hcovered
  sweepable := hsweep
  lease := hlease

theorem put (h : Healthy E t (rev * 4096 + i * 4)) (hpos : 0 < rev) (hrev : rev < 2 ^ 52)
    (hi : i < 1024) (epoch : UInt64) {req : PutRequest} (hreq : req.Safe) :
    (∃ t' res, cmdPut E t rev i epoch req = .ok (t', res, [req.key]) ∧
        Healthy E t' (rev * 4096 + (i + 1) * 4)) ∨
      ∃ e, cmdPut E t rev i epoch req = .error e ∧
        (e = .grpcEmptyKey ∨ e = .grpcKeyTooLong ∨ e = .grpcDuplicateKey ∧ 0 < i) := by
  rcases h.dbPut hrev epoch req with ⟨⟨db', prev, next, patched⟩, hput⟩ | ⟨e, herr, he⟩
  · obtain ⟨ch, hrep, hlog, -⟩ := h.kv
    obtain ⟨leaseKey, hmove, hcovered⟩ := h.covered.put hrep hlog hreq.tidy hput
    have hcmd : cmdPut E t rev i epoch req =
        .ok ({ t with kv := db', leaseKey := leaseKey },
          { prevKv := if req.prevKv then some prev.toProto else none }, [req.key]) := by
      rw [cmdPut, hput]
      simp only [hmove]
    obtain ⟨m, hm⟩ := h.lease
    refine .inl ⟨_, _, hcmd, ?_⟩
    exact h.opStep (A := PutRequest.Safe) hpos hrev hi (fun _ hsafe => hsafe) (.put hreq hput)
      hcovered (h.sweepable.put hcmd) ⟨m, hm.congr rfl rfl⟩
  · refine .inr ⟨e, ?_, he⟩
    rw [cmdPut, herr]

/-- The records a deletion finds are of keys that can be read. -/
theorem valid_of_target {ch : Bytes → List Version} {S : Prop} {db : DbKv} {lo hi : Nat}
    (hrep : db.Rep E S ch) (hlog : LogOk db.log lo hi) {key rangeEnd : Bytes} {kr : Keyrecord}
    (hkr : kr ∈ db.deleteTargets key rangeEnd) : ValidKey kr.key := by
  have hhead := (liveRec_eq_some_iff.mp ((mem_deleteTargets hrep.recsOk).mp hkr).1).1
  rw [hrep.records_eq hlog, List.head?_map, Option.map_eq_some_iff] at hhead
  obtain ⟨v, hv, -⟩ := hhead
  exact (hlog.key_of_mem (hrep.mem_versions (List.mem_of_head? hv))).1

theorem deleteRange (h : Healthy E t (rev * 4096 + i * 4)) (hpos : 0 < rev) (hrev : rev < 2 ^ 52)
    (hi : i < 1024) (epoch : UInt64) {req : DeleteRangeRequest} (hkey : ValidKey req.key) :
    (∃ t' res affected, cmdDeleteRange E t rev i epoch req = .ok (t', res, affected) ∧
        Healthy E t' (rev * 4096 + (i + 1) * 4)) ∨
      cmdDeleteRange E t rev i epoch req = .error .grpcDuplicateKey ∧ 0 < i := by
  obtain ⟨ch, hrep, hlog, -⟩ := h.kv
  have hdel := @deleteRange_eq E t.kv rev req.key req.rangeEnd hrep.recsOk hkey i epoch
  by_cases hdup : (t.kv.deleteTargets req.key req.rangeEnd).any (isDup E rev) = true
  · rw [if_pos hdup] at hdel
    refine .inr ⟨by rw [cmdDeleteRange, hdel], Nat.pos_of_ne_zero (fun hzero => ?_)⟩
    subst hzero
    obtain ⟨kr, hkr, hisdup⟩ := List.any_eq_true.mp hdup
    have hhead := (liveRec_eq_some_iff.mp ((mem_deleteTargets hrep.recsOk).mp hkr).1).1
    rw [hrep.records_eq hlog, List.head?_map, Option.map_eq_some_iff] at hhead
    obtain ⟨v, hv, hvkr⟩ := hhead
    have hlt := @upper_lt E _ rev ch _ _ hrep hlog (by omega) _ _ (List.mem_of_head? hv)
    have hsame : v.rev.upper = UInt64.ofNat rev := by
      rw [← hvkr] at hisdup
      simp only [isDup, Version.record, Bool.and_eq_true] at hisdup
      exact of_decide_eq_true hisdup.1
    rw [hsame, UInt64.toNat_ofNat', Nat.mod_eq_of_lt (by omega)] at hlt
    exact absurd hlt (lt_irrefl _)
  · rw [if_neg hdup] at hdel
    obtain ⟨leaseKey, hdetach, hcovered⟩ :=
      h.covered.deleteRange hrep hlog rev i epoch req.key req.rangeEnd
    obtain ⟨ks, hchain, htombs, -⟩ := deleteRange_opStep hrep.recsOk hdel
    obtain ⟨m, hm⟩ := h.lease
    -- the deletion without the previous values, whose reads are not settled yet
    have hquiet := @cmdDeleteRange_ok E t rev i epoch { req with prevKv := false } _ _ leaseKey []
      hdel hdetach rfl
    have hhealthy : Healthy E { t with
        kv := t.kv.tombstones rev i epoch
          ((t.kv.deleteTargets req.key req.rangeEnd).map Keyrecord.key)
        leaseKey := leaseKey } (rev * 4096 + (i + 1) * 4) :=
      h.opStep (A := fun _ => False) hpos hrev hi (fun _ hfalse => hfalse.elim)
        (by simp only [htombs]; exact .tombs hchain) hcovered (h.sweepable.deleteRange hquiet)
        ⟨m, hm.congr rfl rfl⟩
    obtain ⟨kvs, hkvs⟩ := @prevKvs E _ _ hhealthy (t.kv.deleteTargets req.key req.rangeEnd)
      (fun kr hkr => valid_of_target hrep hlog hkr)
    have hprev : (if req.prevKv then Turbokube.prevKvs E (t.kv.tombstones rev i epoch
        ((t.kv.deleteTargets req.key req.rangeEnd).map Keyrecord.key))
        (t.kv.deleteTargets req.key req.rangeEnd) none else .ok []) =
        .ok (if req.prevKv then kvs else []) := by
      split
      · exact hkvs
      · rfl
    exact .inl ⟨_, _, _, cmdDeleteRange_ok hdel hdetach hprev, hhealthy⟩

end Writes

section Leases

variable {r : Nat}

/-- A revocation succeeds. -/
theorem revoke (h : Healthy E t ((r + 1) * 4096)) (epoch id : UInt64) :
    ∃ t' ks val, cmdLeaseRevoke t (r + 1) epoch id = .ok (t', ks, val) ∧
      (revAfter r ks < 2 ^ 52 → Healthy E t' ((revAfter r ks + 1) * 4096)) := by
  obtain ⟨m, hm⟩ := h.lease
  obtain ⟨t', ks, val, m', hrevoke, hsweep, hm', -⟩ := h.sweepable.revoke hm (r + 1) epoch id
  obtain ⟨ch, hrep, hlog, -⟩ := h.kv
  have hrun : KvRun E (fun _ => False) 1024 t.kv r t'.kv (revAfter r ks) :=
    revoke_kvRun (by decide) hrep.recsOk hrevoke
  exact ⟨t', ks, val, hrevoke, fun hr =>
    ⟨h.kv.kvRun (fun _ hfalse => hfalse.elim) hr hrun,
      DbKv.NoShort.kvRun (fun _ hfalse => hfalse.elim) h.noShort hrun,
      h.covered.revoke hrep hlog h.sweepable hm hrevoke, hsweep, m', hm'⟩⟩

/-- The loop of a tick ends without an error, and a revision is used by at most one entry. -/
theorem expireLoop {l : List (Bytes × Bytes)} (keys : List Bytes)
    (h : Healthy E t ((r + 1) * 4096)) (hr : r + l.length < 2 ^ 52) :
    ∃ t' r' keys', Turbokube.expireLoop epoch l t r keys = .ok (t', r', keys') ∧ r' < 2 ^ 52 ∧
      Healthy E t' ((r' + 1) * 4096) := by
  induction l generalizing t r keys with
  | nil => exact ⟨t, r, keys, rfl, hr, h⟩
  | cons p rest ih =>
      obtain ⟨k, v⟩ := p
      rw [List.length_cons] at hr
      rw [Turbokube.expireLoop]
      split
      · exact ih keys h (by omega)
      · cases hdue : DbLeaseExp.due epoch k v with
        | none => exact ⟨t, r, keys, rfl, by omega, h⟩
        | some id =>
            obtain ⟨t₁, ks, val, hrevoke, hhealthy⟩ := h.revoke epoch id
            simp only [hrevoke]
            rw [revAfter] at hhealthy
            split
            · rename_i hnil
              rw [if_pos hnil] at hhealthy
              exact ih keys (hhealthy (by omega)) (by omega)
            · rename_i hne
              rw [if_neg hne] at hhealthy
              exact ih (keys ++ ks) (hhealthy (by omega)) (by omega)

theorem renew (h : Healthy E t bound) (epoch id : UInt64) :
    ∃ t' ttl, Turbokube.renew t epoch id = .ok (t', ttl) ∧ Healthy E t' bound := by
  obtain ⟨m, hm⟩ := h.lease
  obtain ⟨t', ttl, hrenew⟩ : ∃ t' ttl, Turbokube.renew t epoch id = .ok (t', ttl) := by
    rw [Turbokube.renew, hm.lease.dbGet]
    simp only
    split
    · exact ⟨_, _, rfl⟩
    · exact ⟨_, _, rfl⟩
  obtain ⟨hkv, hkey⟩ := renew_kv hrenew
  obtain ⟨m', hm', -⟩ := hm.renew hrenew
  exact ⟨t', ttl, hrenew, h.congr hkv hkey ⟨m', hm'⟩⟩

theorem keepAliveBatch (h : Healthy E t bound) (epoch : UInt64) (ids : List Int64) :
    ∃ t' ttls, cmdLeaseKeepAliveBatch epoch ids t = .ok (t', ttls) ∧ Healthy E t' bound := by
  induction ids generalizing t with
  | nil => exact ⟨t, [], rfl, h⟩
  | cons id ids ih =>
      obtain ⟨t₁, ttl, hrenew, h₁⟩ := h.renew epoch id.toUInt64
      obtain ⟨t', ttls, hrest, h'⟩ := ih h₁
      refine ⟨t', ttl.getD 0 :: ttls, ?_, h'⟩
      rw [cmdLeaseKeepAliveBatch, hrenew]
      simp only [hrest]

theorem leaseGrant (h : Healthy E t bound) (leaseID epoch : UInt64) (req : LeaseGrantRequest) :
    ∃ t' leaseID' res val, cmdLeaseGrant t leaseID epoch req = .ok (t', leaseID', res, val) ∧
      Healthy E t' bound := by
  obtain ⟨m, hm⟩ := h.lease
  obtain ⟨item, leaseID', hitem⟩ : ∃ item leaseID',
      grantItem t.lease leaseID req = .ok (item, leaseID') := by
    rw [grantItem]
    split
    · obtain ⟨id, hfree⟩ := freeLeaseID_total hm.lease leaseID
      rw [hfree]
      exact ⟨_, _, rfl⟩
    · rw [hm.lease.dbGet]
      exact ⟨_, _, rfl⟩
  rw [cmdLeaseGrant, hitem]
  simp only
  split
  · exact ⟨_, _, _, _, rfl, h⟩
  · exact ⟨_, _, _, _, rfl, h.congr rfl rfl ⟨_, hm.put _⟩⟩

end Leases

end Healthy

/-- The comparison holds a value of the kind it compares. -/
def Compare.fits (cond : Compare) : Bool :=
  match cond.target, cond.targetUnion with
  | .version, .version _ => true
  | .create, .createRevision _ => true
  | .mod, .modRevision _ => true
  | .lease, .lease _ => true
  | .value, .value _ => true
  | .other _, _ => true
  | _, _ => false

/-- A key that a cursor may be set to, of the size of those that are stored. -/
def Settable (key : Bytes) : Prop := ValidKey key ∧ key.length ≤ maxKeySize

/-- The read asks for the present revision, or for one that is neither compacted nor ahead of
the command. -/
def RangeRequest.Safe (b : Batch) (req : RangeRequest) : Prop :=
  Settable req.key ∧
    (req.revision ≤ 0 ∨ b.store.dbMeta.revMin.toInt64 ≤ req.revision ∧
      req.revision ≤ (UInt64.ofNat (b.newRev + 1)).toInt64)

def RequestOp.Safe (b : Batch) : RequestOp → Prop
  | .put req => req.Safe
  | .deleteRange req => Settable req.key
  | .range req => req.Safe b
  | .txn | .none => True

/-- There are revisions left for an entry that starts at `b`.  A tick uses one for each lease
that it revokes at most. -/
def Batch.HasRoom (b : Batch) : Prop :=
  b.newRev + b.store.tables.leaseExp.entries.length + 1 < 2 ^ 52

/-- What is asked of a command in the state it is applied in. -/
def Cmd.Fits (b : Batch) : Cmd → Prop
  | .put req => req.Plain → 0 ≤ req.lease ∧ req.LongEnough
  | .deleteRange req => Settable req.key
  | .compact revision =>
      0 < revision.toUInt64 ∧ b.store.tables.kv.StopsAt revision.toUInt64
  | .txn req =>
      (∀ cond ∈ req.compare, Settable cond.key ∧ cond.fits = true) ∧
        req.success.length ≤ 1024 ∧ req.failure.length ≤ 1024 ∧
        ∀ op ∈ req.success ++ req.failure, op.Safe b
  | .empty => False
  | .leaseGrant _ | .leaseRevoke _ | .leaseKeepAlive _ | .leaseKeepAliveBatch _ | .tick _
  | .term _ | .invalid | .unknown => True

def Cmd.Safe (b : Batch) (cmd : Cmd) : Prop := b.HasRoom ∧ cmd.Fits b

section Decide

instance (key : Bytes) : Decidable (Settable key) := inferInstanceAs (Decidable (_ ∧ _))

instance (req : PutRequest) : Decidable req.Safe :=
  decidable_of_iff (req.Tidy ∧ req.SendsNoKept ∧ req.LongEnough)
    ⟨fun h => ⟨h.1, h.2.1, h.2.2⟩, fun h => ⟨h.tidy, h.kept, h.long⟩⟩

instance (b : Batch) (req : RangeRequest) : Decidable (req.Safe b) :=
  inferInstanceAs (Decidable (_ ∧ (_ ∨ _ ∧ _)))

instance (b : Batch) (op : RequestOp) : Decidable (op.Safe b) :=
  match op with
  | .put req => inferInstanceAs (Decidable req.Safe)
  | .deleteRange req => inferInstanceAs (Decidable (Settable req.key))
  | .range req => inferInstanceAs (Decidable (req.Safe b))
  | .txn | .none => .isTrue trivial

instance (b : Batch) (cmd : Cmd) : Decidable (cmd.Fits b) :=
  match cmd with
  | .put req => inferInstanceAs (Decidable (req.Plain → 0 ≤ req.lease ∧ req.LongEnough))
  | .deleteRange req => inferInstanceAs (Decidable (Settable req.key))
  | .compact revision =>
      inferInstanceAs (Decidable (0 < revision.toUInt64 ∧
        b.store.tables.kv.StopsAt revision.toUInt64))
  | .txn req =>
      inferInstanceAs (Decidable
        ((∀ cond ∈ req.compare, Settable cond.key ∧ cond.fits = true) ∧
          req.success.length ≤ 1024 ∧ req.failure.length ≤ 1024 ∧
          ∀ op ∈ req.success ++ req.failure, op.Safe b))
  | .empty => .isFalse (fun h => h)
  | .leaseGrant _ | .leaseRevoke _ | .leaseKeepAlive _ | .leaseKeepAliveBatch _ | .tick _
  | .term _ | .invalid | .unknown => .isTrue trivial

instance (b : Batch) (cmd : Cmd) : Decidable (cmd.Safe b) :=
  inferInstanceAs (Decidable (b.newRev + b.store.tables.leaseExp.entries.length + 1 < 2 ^ 52 ∧
    cmd.Fits b))

end Decide

theorem PutRequest.Plain.safe {req : PutRequest} (hplain : req.Plain) (hlease : 0 ≤ req.lease)
    (hlong : req.LongEnough) : req.Safe :=
  ⟨⟨hlease, hplain.1⟩, hplain.2, hlong⟩

theorem compareItem_ok {cond : Compare} (h : cond.fits = true) (item : Kv) :
    ∃ success, compareItem cond item = .ok success := by
  obtain ⟨result, target, key, union⟩ := cond
  cases target with
  | other n => exact ⟨true, rfl⟩
  | version | create | mod | lease | value =>
      cases union <;> first | exact ⟨_, rfl⟩ | cases h

namespace Healthy

theorem txnCompare (h : Healthy E t bound) {conds : List Compare}
    (hconds : ∀ cond ∈ conds, Settable cond.key ∧ cond.fits = true) :
    ∃ success, Turbokube.txnCompare E t.kv conds = .ok success := by
  induction conds with
  | nil => exact ⟨true, rfl⟩
  | cons cond conds ih =>
      obtain ⟨hkey, hfits⟩ := hconds cond List.mem_cons_self
      obtain ⟨item, hget⟩ := h.get hkey.1
      obtain ⟨success, hitem⟩ := compareItem_ok hfits item
      rw [Turbokube.txnCompare, hget]
      simp only [hitem]
      split
      · exact ⟨false, rfl⟩
      · cases success with
        | false => exact ⟨false, rfl⟩
        | true => exact ih (fun c hc => hconds c (List.mem_cons_of_mem _ hc))

/-- The operations of a transaction all succeed, or one is refused. -/
theorem txnLoop {b : Batch} (hrev : b.newRev + 1 < 2 ^ 52) (epoch : UInt64)
    {ops : List RequestOp} {acc : TxnAcc}
    (h : Healthy E acc.tables ((b.newRev + 1) * 4096 + i * 4)) (hlen : i + ops.length ≤ 1024)
    (hops : ∀ op ∈ ops, op.Safe b) :
    (∃ acc', Turbokube.txnLoop E b.store.dbMeta.revMin (b.newRev + 1) epoch ops i acc =
        (acc', none) ∧ Healthy E acc'.tables ((b.newRev + 1) * 4096 + (i + ops.length) * 4)) ∨
      ∃ acc' e, Turbokube.txnLoop E b.store.dbMeta.revMin (b.newRev + 1) epoch ops i acc =
        (acc', some e) ∧ e.isTxnReject = true := by
  induction ops generalizing i acc with
  | nil => exact .inl ⟨acc, rfl, h⟩
  | cons op ops ih =>
      rw [List.length_cons] at hlen ⊢
      have hsafe := hops op List.mem_cons_self
      have hrest := fun op hop => hops op (List.mem_cons_of_mem _ hop)
      have hsum : i + (ops.length + 1) = i + 1 + ops.length := by omega
      rw [hsum]
      cases op with
      | put req =>
          rcases h.put (Nat.succ_pos _) hrev (by omega) epoch hsafe with
            ⟨t', res, hput, h'⟩ | ⟨e, herr, he⟩
          · rw [Turbokube.txnLoop, hput]
            exact ih h' (by omega) hrest
          · refine .inr ⟨acc, e, by rw [Turbokube.txnLoop, herr], ?_⟩
            rcases he with rfl | rfl | ⟨rfl, -⟩ <;> rfl
      | deleteRange req =>
          rcases h.deleteRange (Nat.succ_pos _) hrev (by omega) epoch hsafe.1 with
            ⟨t', res, affected, hdel, h'⟩ | ⟨herr, -⟩
          · rw [Turbokube.txnLoop, hdel]
            exact ih h' (by omega) hrest
          · exact .inr ⟨acc, _, by rw [Turbokube.txnLoop, herr], rfl⟩
      | range req =>
          obtain ⟨res, hrange⟩ := h.queryRange hsafe.1.1 hsafe.2
          rw [Turbokube.txnLoop, hrange]
          exact ih (h.mono (by omega)) (by omega) hrest
      | txn =>
          rw [Turbokube.txnLoop]
          exact ih (h.mono (by omega)) (by omega) hrest
      | none =>
          rw [Turbokube.txnLoop]
          exact ih (h.mono (by omega)) (by omega) hrest

end Healthy

/-- A batch with healthy tables at its revision. -/
structure Batch.Healthy (E : Env) (b : Batch) : Prop where
  tables : Turbokube.Healthy E b.store.tables ((b.newRev + 1) * 4096)
  rev : b.newRev < 2 ^ 52

/-- The outcome of an entry that is applied and leaves healthy tables, at a revision that fits its
bits. -/
def Applies (E : Env) (r : Except Err (Batch × Result)) : Prop :=
  ∃ b' res, r = .ok (b', res) ∧ b'.newRev < 2 ^ 52 ∧ ∃ bound, Healthy E b'.store.tables bound

section Apply

variable {b : Batch} {ent : Entry}

theorem nextRev_lt (hrev : b.newRev + 1 < 2 ^ 52) (affected : List Bytes) :
    b.nextRev affected < 2 ^ 52 := by
  rw [Batch.nextRev]
  split <;> omega

/-- The tables an operation of a command at the next revision starts from. -/
theorem Batch.Healthy.first (h : b.Healthy E) :
    Turbokube.Healthy E b.store.tables ((b.newRev + 1) * 4096 + 0 * 4) := h.tables.mono (by omega)

theorem applies_of_keep (h : b.Healthy E) (res : Result) : Applies E (.ok (b, res)) :=
  ⟨b, res, rfl, h.rev, _, h.tables⟩

theorem applies_put (h : b.Healthy E) (hrev : b.newRev + 1 < 2 ^ 52) {req : PutRequest}
    (hreq : req.Plain → 0 ≤ req.lease ∧ req.LongEnough) : Applies E (applyPut E b ent req) := by
  by_cases hlease : req.ignoreLease ∧ req.lease ≠ 0
  · rw [applyPut, if_pos hlease]
    exact applies_of_keep h _
  by_cases hvalue : req.ignoreValue ∧ req.value ≠ []
  · rw [applyPut, if_neg hlease, if_pos hvalue]
    exact applies_of_keep h _
  have hplain : req.Plain :=
    ⟨fun hi => Classical.not_not.mp (fun hne => hlease ⟨hi, hne⟩),
      fun hi => Classical.not_not.mp (fun hne => hvalue ⟨hi, hne⟩)⟩
  obtain ⟨m, hm⟩ := h.tables.lease
  obtain ⟨known, hknown⟩ : ∃ known, leaseKnown b.store.tables.lease req.lease = .ok known := by
    rw [leaseKnown]
    split
    · exact ⟨true, rfl⟩
    · rw [hm.lease.dbGet]
      exact ⟨_, rfl⟩
  rw [applyPut, if_neg hlease, if_neg hvalue, hknown]
  cases known with
  | false => exact applies_of_keep h _
  | true =>
      obtain ⟨hnonneg, hlong⟩ := hreq hplain
      rcases h.first.put (Nat.succ_pos _) hrev (by decide) b.epoch
        (hplain.safe hnonneg hlong) with ⟨t', res, hput, h'⟩ | ⟨e, herr, rfl | rfl | ⟨-, hlt⟩⟩
      · simp only [hput]
        exact ⟨_, _, rfl, nextRev_lt hrev [req.key], _, h'⟩
      · simp only [herr]
        exact applies_of_keep h _
      · simp only [herr]
        exact applies_of_keep h _
      · exact absurd hlt (lt_irrefl 0)

theorem applies_deleteRange (h : b.Healthy E) (hrev : b.newRev + 1 < 2 ^ 52)
    {req : DeleteRangeRequest} (hkey : Settable req.key) :
    Applies E (applyDeleteRange E b req) := by
  rcases h.first.deleteRange (Nat.succ_pos _) hrev (by decide) b.epoch hkey.1 with
    ⟨t', res, affected, hdel, h'⟩ | ⟨-, hlt⟩
  · rw [applyDeleteRange, hdel]
    exact ⟨_, _, rfl, nextRev_lt hrev _, _, h'⟩
  · exact absurd hlt (lt_irrefl 0)

/-- The tables after a compaction. -/
theorem Healthy.compact {t : Tables} {bound : Nat} (h : Healthy E t bound) {max : UInt64}
    (hpos : 0 < max) (hstop : t.kv.StopsAt max) :
    ∃ kv last, t.kv.compact E max = .ok (kv, last) ∧ Healthy E { t with kv := kv } bound := by
  obtain ⟨ch, hrep, hlog, -⟩ := h.kv
  obtain ⟨kv, -, hcases⟩ := hrep.compactBy hlog max
  have hcompact := (hcases E limitCompactionMaxKeys).1 (hrep.meetsStop hpos hstop)
  have hshrunk := compact_shrunk hcompact
  refine ⟨kv, _, hcompact, ?_⟩
  constructor
  case kv => exact h.kv.compact (fun hfalse => hfalse) hcompact
  case noShort =>
    rw [hshrunk.log]
    exact h.noShort
  case covered => exact h.covered.congr hshrunk.log rfl
  case sweepable =>
    exact h.sweepable.of_subset (hshrunk.recsOk h.sweepable.recs)
      (h.sweepable.anchored.compact hcompact)
      (fun _ _ hk => compact_reaches h.sweepable.anchored hcompact hk) (fun _ _ hget => hget)
  case lease =>
    obtain ⟨m, hm⟩ := h.lease
    exact ⟨m, hm.congr rfl rfl⟩

theorem applies_compact (h : b.Healthy E) {revision : Int64} (hpos : 0 < revision.toUInt64)
    (hstop : b.store.tables.kv.StopsAt revision.toUInt64) :
    Applies E (applyCompact E b revision) := by
  obtain ⟨kv, last, hcompact, h'⟩ := h.tables.compact hpos hstop
  rw [applyCompact, hcompact]
  exact ⟨_, _, rfl, h.rev, _, h'⟩

theorem applies_txn (h : b.Healthy E) (hrev : b.newRev + 1 < 2 ^ 52) {req : TxnRequest}
    (hfits : (Cmd.txn req).Fits b) : Applies E (applyTxn E b ent req) := by
  obtain ⟨hconds, hsuccess, hfailure, hops⟩ := hfits
  obtain ⟨success, hcmp⟩ := h.tables.txnCompare hconds
  have hbranch : (if success then req.success else req.failure).length ≤ 1024 ∧
      ∀ op ∈ (if success then req.success else req.failure), op.Safe b := by
    cases success with
    | true => exact ⟨hsuccess, fun op hop => hops op (List.mem_append_left _ hop)⟩
    | false => exact ⟨hfailure, fun op hop => hops op (List.mem_append_right _ hop)⟩
  have hstart : Healthy E (TxnAcc.mk b.store.tables [] []).tables
      ((b.newRev + 1) * 4096 + 0 * 4) := h.first
  rcases Healthy.txnLoop hrev b.epoch hstart (by rw [Nat.zero_add]; exact hbranch.1) hbranch.2 with
    ⟨acc', hloop, h'⟩ | ⟨acc', e, hloop, he⟩
  · rw [applyTxn, hcmp]
    simp only [txnOps, hloop]
    exact ⟨_, _, rfl, nextRev_lt hrev _, _, h'⟩
  · rw [applyTxn, hcmp]
    simp only [txnOps, hloop]
    cases e <;> first
      | exact ⟨_, _, rfl, nextRev_lt hrev _, _, h.tables⟩
      | cases he

theorem applies_term (h : b.Healthy E) (term : UInt64) : Applies E (applyTerm b ent term) := by
  rw [applyTerm]
  split
  · exact applies_of_keep h _
  · exact ⟨_, _, rfl, h.rev, _, h.tables⟩

theorem applies_tick (h : b.Healthy E) (hroom : b.HasRoom) (term : UInt64) :
    Applies E (applyTick b ent term) := by
  obtain ⟨t', r', keys', hloop, hr', h'⟩ := @Healthy.expireLoop E _ (b.epoch + 1) b.newRev _ b.keys
    h.tables ((Nat.lt_succ_self _).trans hroom)
  rw [applyTick]
  split
  · exact applies_of_keep h _
  · simp only [hloop]
    exact ⟨_, _, rfl, hr', _, h'⟩

theorem applies_leaseRevoke (h : b.Healthy E) (hrev : b.newRev + 1 < 2 ^ 52) (id : Int64) :
    Applies E (applyLeaseRevoke E b id) := by
  obtain ⟨t', ks, val, hrevoke, h'⟩ := h.tables.revoke b.epoch id.toUInt64
  rw [applyLeaseRevoke, hrevoke]
  refine ⟨_, _, rfl, nextRev_lt hrev ks, _, h' ?_⟩
  rw [revAfter]
  split <;> omega

theorem applies_of_safe (h : b.Healthy E) (hsafe : ent.cmd.Safe b) :
    Applies E (applyEntry E b ent) := by
  obtain ⟨hroom, hfits⟩ := hsafe
  have hrev : b.newRev + 1 < 2 ^ 52 := by
    unfold Batch.HasRoom at hroom
    omega
  rw [applyEntry]
  cases hcmd : ent.cmd with
  | put req =>
      rw [hcmd] at hfits
      exact applies_put h hrev hfits
  | deleteRange req =>
      rw [hcmd] at hfits
      exact applies_deleteRange h hrev hfits
  | compact revision =>
      rw [hcmd] at hfits
      exact applies_compact h hfits.1 hfits.2
  | txn req =>
      rw [hcmd] at hfits
      exact applies_txn h hrev hfits
  | leaseGrant req =>
      obtain ⟨t', leaseID', res, val, hgrant, h'⟩ :=
        h.tables.leaseGrant b.store.dbMeta.leaseID b.epoch req
      simp only [applyLeaseGrant, hgrant]
      exact ⟨_, _, rfl, h.rev, _, h'⟩
  | leaseRevoke id => exact applies_leaseRevoke h hrev id
  | leaseKeepAlive id =>
      obtain ⟨t', ttl, hrenew, h'⟩ := h.tables.renew b.epoch id.toUInt64
      simp only [applyLeaseKeepAlive, cmdLeaseKeepAlive, hrenew]
      exact ⟨_, _, rfl, h.rev, _, h'⟩
  | leaseKeepAliveBatch ids =>
      obtain ⟨t', ttls, hrenew, h'⟩ := h.tables.keepAliveBatch b.epoch ids
      simp only [applyLeaseKeepAliveBatch, hrenew]
      exact ⟨_, _, rfl, h.rev, _, h'⟩
  | tick term => exact applies_tick h hroom term
  | term term => exact applies_term h term
  | invalid | unknown => exact applies_of_keep h _
  | empty =>
      rw [hcmd] at hfits
      exact hfits.elim

theorem Cmd.Fits.opsAtMost {cmd : Cmd} (h : cmd.Fits b) : cmd.OpsAtMost 1024 := by
  cases cmd with
  | txn req => exact ⟨h.2.1, h.2.2.1⟩
  | put _ | deleteRange _ | compact _ | leaseGrant _ | leaseRevoke _ | leaseKeepAlive _
  | leaseKeepAliveBatch _ | tick _ | term _ | invalid | unknown | empty => trivial

theorem Cmd.Fits.putsMeet {cmd : Cmd} (h : cmd.Fits b) :
    cmd.PutsMeet (fun req => True → req.SendsNoKept) := by
  cases cmd with
  | put req => exact fun hplain _ => hplain.2
  | txn req =>
      intro p hp _
      exact (h.2.2.2 (.put p) (List.mem_append.mpr hp)).kept
  | deleteRange _ | compact _ | leaseGrant _ | leaseRevoke _ | leaseKeepAlive _
  | leaseKeepAliveBatch _ | tick _ | term _ | invalid | unknown | empty => trivial

/-- A safe entry is applied to a healthy batch and leaves a healthy one. -/
theorem Batch.Healthy.applyEntry (h : b.Healthy E) (hsafe : ent.cmd.Safe b) :
    ∃ b' res, Turbokube.applyEntry E b ent = .ok (b', res) ∧ b'.Healthy E := by
  obtain ⟨b', res, happly, hr', bound, h'⟩ := applies_of_safe h hsafe
  have hfits := hsafe.2
  refine ⟨b', res, happly, ⟨?_, h'.noShort, h'.covered, h'.sweepable, h'.lease⟩, hr'⟩
  exact (effect_of_applyEntry happly).versionedTo hfits.opsAtMost hfits.putsMeet
    (fun hfalse => hfalse.elim) (fun _ => h.tables.kv) hr'

theorem Batch.Healthy.applyEntries {ents : List Entry} (h : b.Healthy E)
    (hsafe : AllMeet E Cmd.Safe ents b) :
    ∃ b' results, Turbokube.applyEntries E ents b = .ok (b', results) ∧
      results.length = ents.length := by
  induction ents generalizing b with
  | nil => exact ⟨b, [], rfl, rfl⟩
  | cons ent ents ih =>
      obtain ⟨b₁, res, happly, h₁⟩ := h.applyEntry hsafe.1
      have hrest := hsafe.2
      rw [happly] at hrest
      obtain ⟨b', results, hents, hlen⟩ := ih h₁ hrest
      refine ⟨b', res :: results, ?_, by rw [List.length_cons, List.length_cons, hlen]⟩
      rw [Turbokube.applyEntries, happly]
      simp only [hents]

end Apply

theorem Reached.healthy {b : Batch} (h : Reached E Cmd.Safe b) : b.Healthy E := by
  induction h with
  | init => exact ⟨.empty, by decide⟩
  | entry _ hsafe happly ih =>
      obtain ⟨b', res, happly', h'⟩ := ih.applyEntry hsafe
      rw [happly] at happly'
      obtain ⟨rfl, -⟩ := Prod.mk.inj (Except.ok.inj happly')
      exact h'
  | commit index hb ih =>
      obtain ⟨htables, hrev, -⟩ := eq_of_core_eq (core_start_finish hb.synced index)
      refine ⟨?_, by rw [hrev]; exact ih.rev⟩
      rw [htables, hrev]
      exact ih.tables

/-- In a run of safe entries no batch of safe entries stops a replica: every entry gets its
result. -/
theorem update_total {s : Store} (h : Reached E Cmd.Safe (.start s)) {ents : List Entry}
    (hne : ents ≠ []) (hsafe : AllMeet E Cmd.Safe ents (.start s)) :
    ∃ u, update E s ents = .ok u ∧ u.results.length = ents.length := by
  obtain ⟨b, results, happly, hlen⟩ := h.healthy.applyEntries hsafe
  rw [update, happly]
  cases hlast : ents.getLast? with
  | none => exact absurd (List.getLast?_eq_none_iff.mp hlast) hne
  | some ent => exact ⟨_, rfl, hlen⟩

/-- A batch after two puts: a transaction that compares, reads an older revision and deletes, a
deletion of a range, a put under a new lease, a compaction and a tick. -/
theorem update_total_mixed :
    ∃ s ∈ storeAfter [[.put { key := [97], value := [1] }, .put { key := [97, 98], value := [] }]],
      ∃ u, update .plain s (
        [.txn {
            compare := [⟨.equal, .version, [97], .version 1⟩]
            success := [.range { key := [97], revision := 2 }, .deleteRange { key := [97] }] },
          .deleteRange { key := [97], rangeEnd := [99], prevKv := true },
          .leaseGrant { id := 7, ttl := 1 },
          .put { key := [99], value := [3], lease := 7 },
          .compact 4, .tick 0].map (fun cmd => { index := 1, cmd := cmd })) = .ok u ∧
        u.results.length = 6 := by
  refine exists_mem_imp (D := fun s => AllMeet .plain Cmd.Safe _ (.start s)) ?_ (fun s hs hsafe =>
    update_total (reached_of_storeAfter (by decide +kernel) hs) (by simp) hsafe)
  decide +kernel

/-- Entries that stop a replica: a deletion without a key, a compaction of a store without events
and one that steps over the only event it could stop at, a comparison with the value of another
kind, a read ahead of the command, the second put of a key whose record is too short, a put over
one under a negative lease, and the deletion of a key put by an operation that named a lease and
asked for the present one to be kept. -/
theorem update_stops :
    [[Cmd.deleteRange { key := [] }],
      [.compact 1],
      [.put { key := [97], value := [1] }, .put { key := [97], value := [2] }, .compact 3],
      [.txn { compare := [⟨.equal, .version, [97], .lease 1⟩] }],
      [.txn { success := [.range { key := [97], revision := 9 }] }],
      [.put { key := [97], value := [] }, .put { key := [97], value := [] }],
      [.leaseGrant { id := -1, ttl := 9 }, .put { key := [97, 98], value := [1], lease := -1 },
        .put { key := [97, 98], value := [1] }],
      [.txn { success :=
          [.put { key := [97, 98], value := [1], lease := 5, ignoreLease := true }] },
        .deleteRange { key := [97, 98] }]].map
      (fun cmds => (update .plain .init (cmds.map (fun cmd => { index := 1, cmd := cmd }))).map
        (fun _ => ())) =
    [.error (.lmdb .badValSize), .error .checksumMissing, .error .checksumInvalid,
      .error .panic, .error .grpcFutureRev,
      .error .checksumMissing, .error (.lmdb .notFound), .error (.lmdb .notFound)] := by
  decide +kernel

end Turbokube
