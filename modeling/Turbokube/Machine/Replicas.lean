import Turbokube.Machine.Histories

/-!
# Replicas agree

Two replicas of a shard share the settings and the codec.  They differ in their id and in the
order in which Go iterates over the map of a compaction, which is random on each.  The id goes
into the header of every response and nowhere else.  The order goes into compaction, and there it
has no effect on what is stored: in a versioned state compaction has one outcome.

So replicas that apply the same log hold the same tables, and their results differ in the member
of the headers only.
-/

namespace Turbokube

open Encoding Lmdb DbKv

structure Env.SameShard (E F : Env) : Prop where
  flags : F.flags = E.flags
  codec : F.codec = E.codec
  shardID : F.shardID = E.shardID

section Anonymous

def ResponseHeader.anonymous (h : ResponseHeader) : ResponseHeader := { h with memberId := 0 }

def RangeResponse.anonymous (res : RangeResponse) : RangeResponse :=
  { res with header := res.header.anonymous }

def PutResponse.anonymous (res : PutResponse) : PutResponse :=
  { res with header := res.header.map ResponseHeader.anonymous }

def DeleteRangeResponse.anonymous (res : DeleteRangeResponse) : DeleteRangeResponse :=
  { res with header := res.header.anonymous }

def ResponseOp.anonymous : ResponseOp → ResponseOp
  | .range res => .range res.anonymous
  | .put res => .put res.anonymous
  | .deleteRange res => .deleteRange res.anonymous

def Data.anonymous : Data → Data
  | .put res => .put res.anonymous
  | .deleteRange res => .deleteRange res.anonymous
  | .compact header => .compact header.anonymous
  | .txn res =>
      .txn ⟨res.header.anonymous, res.succeeded, res.responses.map ResponseOp.anonymous⟩
  | .leaseGrant res => .leaseGrant { res with header := res.header.map ResponseHeader.anonymous }
  | .leaseRevoke header => .leaseRevoke header.anonymous
  | .leaseKeepAlive res =>
      .leaseKeepAlive { res with header := res.header.map ResponseHeader.anonymous }
  | .leaseKeepAliveBatch res =>
      .leaseKeepAliveBatch { res with header := res.header.map ResponseHeader.anonymous }
  | data => data

def TxnAcc.anonymous (acc : TxnAcc) : TxnAcc :=
  { acc with res := acc.res.map ResponseOp.anonymous }

/-- A result without the member that gives it. -/
def Result.anonymous (r : Result) : Result := { r with data := r.data.anonymous }

end Anonymous

variable {E F : Env}

namespace Env.SameShard

@[simp] theorem header (h : E.SameShard F) (rev : Nat) :
    (responseHeader F rev).anonymous = (responseHeader E rev).anonymous := by
  rw [responseHeader, responseHeader, ResponseHeader.anonymous, ResponseHeader.anonymous, h.shardID]

section Store

variable {db : DbKv}

theorem put (h : E.SameShard F) : db.put F = db.put E := by
  funext rev subrev lease epoch key val ignoreValue ignoreLease
  simp only [DbKv.put, DbKv.putOver, DbKv.patchPrev, DbKv.record, h.flags, h.codec]

theorem readRevs (h : E.SameShard F) (keysOnly : Bool) (l : List Keyrev) (item : Kv)
    (next : Option Bytes) :
    DbKv.readRevs F db keysOnly l item next = DbKv.readRevs E db keysOnly l item next := by
  induction l generalizing item next with
  | nil => rfl
  | cons r l ih => simp only [DbKv.readRevs, h.codec, ih]

theorem getRev (h : E.SameShard F) : db.getRev F = db.getRev E := by
  funext key r withPrev
  simp only [DbKv.getRev, DbKv.prev, h.readRevs, h.codec]

theorem rangeLoop (h : E.SameShard F) (a : RangeArgs) (key rangeEnd : Bytes)
    (l : List (Bytes × List Bytes)) (acc : RangeAcc) :
    DbKv.rangeLoop F db a key rangeEnd l acc = DbKv.rangeLoop E db a key rangeEnd l acc := by
  have hkey : DbKv.rangeKey F db a = DbKv.rangeKey E db a := by
    funext k dups acc
    simp only [DbKv.rangeKey, h.readRevs, h.flags]
  induction l generalizing acc with
  | nil => rfl
  | cons p l ih => simp only [DbKv.rangeLoop, hkey, ih]

theorem getRange (h : E.SameShard F) : db.getRange F = db.getRange E := by
  funext key rangeEnd a
  simp only [DbKv.getRange, h.rangeLoop]

theorem deleteRange (h : E.SameShard F) : db.deleteRange F = db.deleteRange E := by
  funext rev subrev epoch key rangeEnd
  have hloop : ∀ l acc, deleteLoop F rev subrev epoch key rangeEnd l acc =
      deleteLoop E rev subrev epoch key rangeEnd l acc := by
    intro l
    induction l with
    | nil => exact fun _ => rfl
    | cons p l ih =>
        obtain ⟨k, dups⟩ := p
        intro acc
        cases dups with
        | nil => exact ih acc
        | cons v vs => simp only [deleteLoop, h.flags, ih]
  simp only [DbKv.deleteRange, hloop]

theorem prevKvs (h : E.SameShard F) (l : List Keyrecord) (err : Option Err) :
    Turbokube.prevKvs F db l err = Turbokube.prevKvs E db l err := by
  induction l generalizing err with
  | nil => rfl
  | cons kr l ih => simp only [Turbokube.prevKvs, h.getRev, ih]

theorem txnCompare (h : E.SameShard F) (conds : List Compare) :
    Turbokube.txnCompare F db conds = Turbokube.txnCompare E db conds := by
  induction conds with
  | nil => rfl
  | cons cond conds ih => simp only [Turbokube.txnCompare, DbKv.get, h.getRev, ih]

/-- Compaction of a versioned state has one outcome. -/
theorem compact {S U : Prop} {bound : Nat} {max last : UInt64} {d : DbKv} {E₀ : Env}
    (hver : db.Versioned E₀ S U bound) (hc : db.compact E max = .ok (d, last)) :
    db.compact F max = .ok (d, last) := by
  obtain ⟨ch, hrep, hlog, -⟩ := hver
  obtain ⟨hmeets, hpiece, rfl⟩ := hrep.compactBy_inv hlog hc
  obtain ⟨d', hpiece', hcases⟩ := hrep.compactBy hlog max
  rw [hpiece.unique hpiece']
  exact (hcases F limitCompactionMaxKeys).1 hmeets

end Store

section Commands

theorem cmdPut (h : E.SameShard F) : Turbokube.cmdPut F = Turbokube.cmdPut E := by
  funext t rev subrev epoch req
  simp only [Turbokube.cmdPut, h.put]

theorem cmdDeleteRange (h : E.SameShard F) (t : Tables) (rev subrev : Nat) (epoch : UInt64)
    (req : DeleteRangeRequest) :
    (Turbokube.cmdDeleteRange F t rev subrev epoch req).map
        (fun r => (r.1, r.2.1.anonymous, r.2.2)) =
      (Turbokube.cmdDeleteRange E t rev subrev epoch req).map
        (fun r => (r.1, r.2.1.anonymous, r.2.2)) := by
  rw [Turbokube.cmdDeleteRange, Turbokube.cmdDeleteRange, h.deleteRange]
  cases t.kv.deleteRange E rev subrev epoch req.key req.rangeEnd with
  | error e => rfl
  | ok r =>
      obtain ⟨kv, prev⟩ := r
      simp only [h.prevKvs]
      cases detachAll prev t.leaseKey with
      | error e => rfl
      | ok leaseKey =>
          simp only
          cases (if req.prevKv then Turbokube.prevKvs E kv prev none else .ok []) with
          | error e => rfl
          | ok items => simp only [Except.map, DeleteRangeResponse.anonymous, h.header]

theorem queryRange (h : E.SameShard F) (kv : DbKv) (revMin : UInt64) (rev : Nat)
    (req : RangeRequest) :
    (Turbokube.queryRange F kv revMin rev req).map RangeResponse.anonymous =
      (Turbokube.queryRange E kv revMin rev req).map RangeResponse.anonymous := by
  rw [Turbokube.queryRange, Turbokube.queryRange, h.getRange]
  split
  · rfl
  · split
    · rfl
    · cases kv.getRange E req.key req.rangeEnd (rangeArgs req) with
      | error e => rfl
      | ok r => simp only [Except.map, RangeResponse.anonymous, h.header, h.flags]

/-- The operations of a transaction, with their responses without the members. -/
theorem txnLoop (h : E.SameShard F) (revMin : UInt64) (rev : Nat) (epoch : UInt64)
    (ops : List RequestOp) (i : Nat) {acc acc' : TxnAcc} (hacc : acc'.anonymous = acc.anonymous) :
    Prod.map TxnAcc.anonymous id (Turbokube.txnLoop F revMin rev epoch ops i acc') =
      Prod.map TxnAcc.anonymous id (Turbokube.txnLoop E revMin rev epoch ops i acc) := by
  induction ops generalizing i acc acc' with
  | nil => exact congrArg (·, none) hacc
  | cons op ops ih =>
      obtain ⟨htables, hres, hkeys⟩ := TxnAcc.mk.inj hacc
      cases op with
      | put req =>
          rw [Turbokube.txnLoop, Turbokube.txnLoop, h.cmdPut, htables]
          cases Turbokube.cmdPut E acc.tables rev i epoch req with
          | error e => exact congrArg (·, some e) hacc
          | ok r => exact ih (i + 1) (by simp [TxnAcc.anonymous, hkeys, hres])
      | deleteRange req =>
          rw [Turbokube.txnLoop, Turbokube.txnLoop, htables]
          rcases cases_of_map_eq (h.cmdDeleteRange acc.tables rev i epoch req) with
            ⟨e, hF, hE⟩ | ⟨⟨t', res', keys'⟩, ⟨t, res, keys⟩, hF, hE, heq⟩
          · rw [hF, hE]
            exact congrArg (·, some e) hacc
          · obtain ⟨rfl, hr, rfl⟩ : t' = t ∧ res'.anonymous = res.anonymous ∧ keys' = keys := by
              simpa using heq
            rw [hF, hE]
            exact ih (i + 1) (by simp [TxnAcc.anonymous, ResponseOp.anonymous, hkeys, hres, hr])
      | range req =>
          rw [Turbokube.txnLoop, Turbokube.txnLoop, htables]
          rcases cases_of_map_eq (h.queryRange acc.tables.kv revMin rev req) with
            ⟨e, hF, hE⟩ | ⟨r', r, hF, hE, heq⟩
          · rw [hF, hE]
            exact congrArg (·, some e) hacc
          · rw [hF, hE]
            exact ih (i + 1) (by simp [TxnAcc.anonymous, ResponseOp.anonymous, hkeys, hres, heq])
      | txn => exact ih (i + 1) hacc
      | none => exact ih (i + 1) hacc

end Commands

section Entries

variable {b : Batch} {ent : Entry}

/-- An entry and its result without the member. -/
def answered (r : Except Err (Batch × Result)) : Except Err (Batch × Result) :=
  r.map (fun p => (p.1, p.2.anonymous))

theorem applyPut (h : E.SameShard F) (req : PutRequest) :
    answered (Turbokube.applyPut F b ent req) = answered (Turbokube.applyPut E b ent req) := by
  rw [Turbokube.applyPut, Turbokube.applyPut, h.cmdPut]
  split
  · rfl
  · split
    · rfl
    · cases leaseKnown b.store.tables.lease req.lease with
      | error e => rfl
      | ok known =>
          cases known with
          | false => rfl
          | true =>
              simp only
              cases Turbokube.cmdPut E b.store.tables (b.newRev + 1) 0 b.epoch req with
              | error e => cases e <;> rfl
              | ok r =>
                  simp [answered, Except.map, Result.anonymous, Data.anonymous,
                    PutResponse.anonymous, h.header]

theorem applyDeleteRange (h : E.SameShard F) (req : DeleteRangeRequest) :
    answered (Turbokube.applyDeleteRange F b req) =
      answered (Turbokube.applyDeleteRange E b req) := by
  rw [Turbokube.applyDeleteRange, Turbokube.applyDeleteRange]
  rcases cases_of_map_eq (h.cmdDeleteRange b.store.tables (b.newRev + 1) 0 b.epoch req) with
    ⟨e, hF, hE⟩ | ⟨⟨t', res', keys'⟩, ⟨t, res, keys⟩, hF, hE, heq⟩
  · rw [hF, hE]
  · obtain ⟨rfl, hr, rfl⟩ : t' = t ∧ res'.anonymous = res.anonymous ∧ keys' = keys := by
      simpa using heq
    rw [hF, hE]
    simp only [DeleteRangeResponse.anonymous, DeleteRangeResponse.mk.injEq] at hr
    simp [answered, Except.map, Result.anonymous, Data.anonymous, DeleteRangeResponse.anonymous,
      h.header, hr.2.1, hr.2.2]

theorem applyTxn (h : E.SameShard F) (req : TxnRequest) :
    answered (Turbokube.applyTxn F b ent req) = answered (Turbokube.applyTxn E b ent req) := by
  rw [Turbokube.applyTxn, Turbokube.applyTxn, h.txnCompare]
  cases Turbokube.txnCompare E b.store.tables.kv req.compare with
  | error e => rfl
  | ok success =>
      have hloop := h.txnLoop b.store.dbMeta.revMin (b.newRev + 1) b.epoch
        (if success then req.success else req.failure) 0
        (show TxnAcc.anonymous ⟨b.store.tables, [], []⟩ = _ from rfl)
      simp only [txnOps]
      generalize Turbokube.txnLoop F _ _ _ _ _ _ = outF at hloop ⊢
      generalize Turbokube.txnLoop E _ _ _ _ _ _ = outE at hloop ⊢
      obtain ⟨out', err'⟩ := outF
      obtain ⟨out, err⟩ := outE
      obtain ⟨hout, rfl⟩ : out'.anonymous = out.anonymous ∧ err' = err := Prod.mk.inj hloop
      obtain ⟨ht, hr, hk⟩ := TxnAcc.mk.inj hout
      cases err' with
      | some e =>
          simp only [hk]
          cases e <;> rfl
      | none =>
          simp [answered, Except.map, Result.anonymous, Data.anonymous, ht, hk, hr, h.header]

/-- An entry of a versioned state has the same effect on both replicas. -/
theorem applyEntry (h : E.SameShard F) {E₀ : Env} {S U : Prop} {bound : Nat}
    (hver : b.store.tables.kv.Versioned E₀ S U bound) {b' : Batch} {res : Result}
    (hok : Turbokube.applyEntry E b ent = .ok (b', res)) :
    ∃ res', Turbokube.applyEntry F b ent = .ok (b', res') ∧ res'.anonymous = res.anonymous := by
  have hsame : ∀ x : Except Err (Batch × Result),
      answered x = answered (Turbokube.applyEntry E b ent) →
      ∃ res', x = .ok (b', res') ∧ res'.anonymous = res.anonymous := by
    intro x hx
    rcases cases_of_map_eq hx with ⟨e, -, hE⟩ | ⟨r', r, hF, hE, heq⟩
    · rw [hok] at hE
      cases hE
    · rw [hok] at hE
      obtain rfl := Except.ok.inj hE
      obtain ⟨c, res'⟩ := r'
      obtain ⟨rfl, hres⟩ := Prod.mk.inj heq
      exact ⟨res', hF, hres⟩
  rw [Turbokube.applyEntry] at hok hsame ⊢
  cases hcmd : ent.cmd with
  | put req =>
      simp only [hcmd] at hok hsame ⊢
      exact hsame _ (h.applyPut req)
  | deleteRange req =>
      simp only [hcmd] at hok hsame ⊢
      exact hsame _ (h.applyDeleteRange req)
  | compact revision =>
      simp only [hcmd, applyCompact] at hok ⊢
      split at hok
      · cases hok
      · rename_i kv last hc
        obtain ⟨rfl, rfl⟩ := Prod.mk.inj (Except.ok.inj hok)
        rw [compact (F := F) hver hc]
        exact ⟨_, rfl, by simp [Result.anonymous, Data.anonymous, h.header]⟩
  | txn req =>
      simp only [hcmd] at hok hsame ⊢
      exact hsame _ (h.applyTxn req)
  | leaseGrant _ | leaseRevoke _ | leaseKeepAlive _ | leaseKeepAliveBatch _ =>
      simp only [hcmd, applyLeaseGrant, applyLeaseRevoke, applyLeaseKeepAlive,
        applyLeaseKeepAliveBatch] at hok hsame ⊢
      refine hsame _ ?_
      split
      · rfl
      · simp [answered, Except.map, Result.anonymous, Data.anonymous, h.header]
  | _ =>
      simp only [hcmd] at hok hsame ⊢
      exact hsame _ rfl

end Entries

end Env.SameShard

section Runs

theorem allMeet_of_forall {P : Cmd → Prop} {ents : List Entry} (h : ∀ ent ∈ ents, P ent.cmd)
    (b : Batch) : AllMeet E (fun _ cmd => P cmd) ents b := by
  induction ents generalizing b with
  | nil => trivial
  | cons ent ents ih =>
      refine ⟨h ent List.mem_cons_self, ?_⟩
      cases applyEntry E b ent with
      | error e => trivial
      | ok r => exact ih (fun ent' hent' => h ent' (List.mem_cons_of_mem _ hent')) r.1

theorem newRev_le_of_applyEntries {ents : List Entry} {b b' : Batch} {rs : List Result}
    (h : applyEntries E ents b = .ok (b', rs)) : b.newRev ≤ b'.newRev := by
  refine applyEntries_rec (Q := fun _ _ => True) (I := fun c => b.newRev ≤ c.newRev) ?_ le_rfl
    (allMeet_of_forall (fun _ _ => trivial) b) h
  intro c c' ent res hle _ happly
  exact hle.trans (effect_of_applyEntry happly).newRev_le

/-- The entries of a log have the same effect on both replicas. -/
theorem Env.SameShard.applyEntries (h : E.SameShard F) {ents : List Entry} {b b' : Batch}
    {rs : List Result} (hb : Reached E (fun _ cmd => cmd.OpsAtMost 1024) b)
    (hops : ∀ ent ∈ ents, ent.cmd.OpsAtMost 1024)
    (hok : Turbokube.applyEntries E ents b = .ok (b', rs)) (hrev : b'.newRev < 2 ^ 52) :
    ∃ rs', Turbokube.applyEntries F ents b = .ok (b', rs') ∧
      rs'.map Result.anonymous = rs.map Result.anonymous := by
  induction ents generalizing b rs with
  | nil =>
      obtain ⟨rfl, rfl⟩ := Prod.mk.inj (Except.ok.inj hok)
      exact ⟨[], rfl, rfl⟩
  | cons ent ents ih =>
      have hle := newRev_le_of_applyEntries hok
      rw [Turbokube.applyEntries] at hok
      split at hok
      · cases hok
      · rename_i c res hent
        split at hok
        · cases hok
        · rename_i c' rest hrest
          obtain ⟨rfl, rfl⟩ := Prod.mk.inj (Except.ok.inj hok)
          obtain ⟨res', hentF, hres⟩ := h.applyEntry
            (hb.versioned_of_opsAtMost (fun _ _ hq => hq) (hle.trans_lt hrev)) hent
          obtain ⟨rest', hrestF, hrest'⟩ := ih (hb.entry (hops ent List.mem_cons_self) hent)
            (fun ent' hent' => hops ent' (List.mem_cons_of_mem _ hent')) hrest
          refine ⟨res' :: rest', ?_, ?_⟩
          · rw [Turbokube.applyEntries, hentF]
            simp only [hrestF]
          · rw [List.map_cons, List.map_cons, hres, hrest']

theorem Env.SameShard.update (h : E.SameShard F) {ents : List Entry} {u : Updated}
    (hops : ∀ ent ∈ ents, ent.cmd.OpsAtMost 1024) (hok : Turbokube.update E .init ents = .ok u)
    (hrev : u.store.dbMeta.rev < 2 ^ 52) :
    ∃ u', Turbokube.update F .init ents = .ok u' ∧ u'.store = u.store ∧
      u'.results.map Result.anonymous = u.results.map Result.anonymous := by
  rw [Turbokube.update] at hok ⊢
  split at hok
  · cases hok
  · rename_i b rs happly
    split at hok
    · cases hok
    · obtain rfl := Except.ok.inj hok
      rw [finish_eq (synced_applyEntries (synced_start _) happly)] at hrev
      obtain ⟨rs', happly', hrs⟩ := h.applyEntries .init hops happly hrev
      rw [happly']
      exact ⟨_, rfl, rfl, hrs⟩

/-- Replicas that apply the same log agree, whatever the order of their maps and however each of
them cuts the log into batches: they store the same, and their results differ at most in the member
that is named in the headers. -/
theorem replicas_agree (h : E.SameShard F) {batches batches' : List (List Entry)}
    (hall : ∀ ents ∈ batches, ents ≠ []) (hall' : ∀ ents ∈ batches', ents ≠ [])
    (hlog : batches'.flatten = batches.flatten)
    (hops : ∀ ent ∈ batches.flatten, ent.cmd.OpsAtMost 1024) {s : Store} {rs : List Result}
    (hok : updates E batches .init = .ok (s, rs)) (hrev : s.dbMeta.rev < 2 ^ 52) :
    ∃ rs', updates F batches' .init = .ok (s, rs') ∧
      rs'.map Result.anonymous = rs.map Result.anonymous := by
  cases batches with
  | nil =>
      obtain rfl : batches' = [] := List.eq_nil_iff_forall_not_mem.mpr (fun ents hents =>
        hall' ents hents (List.flatten_eq_nil_iff.mp hlog ents hents))
      obtain ⟨rfl, rfl⟩ := Prod.mk.inj (Except.ok.inj hok)
      exact ⟨[], rfl, rfl⟩
  | cons ents rest =>
      obtain ⟨hents, hrest⟩ := List.forall_mem_cons.mp hall
      cases batches' with
      | nil => exact absurd (List.append_eq_nil_iff.mp hlog.symm).1 hents
      | cons ents' rest' =>
          obtain ⟨hents', hrest'⟩ := List.forall_mem_cons.mp hall'
          rw [updates_cons E _ hents hrest, ← List.flatten_cons] at hok
          rw [updates_cons F _ hents' hrest', ← List.flatten_cons, hlog]
          cases hu : update E .init (ents :: rest).flatten with
          | error e =>
              rw [hu] at hok
              cases hok
          | ok u =>
              rw [hu] at hok
              obtain ⟨rfl, rfl⟩ := Prod.mk.inj (Except.ok.inj hok)
              obtain ⟨u', hu', hstore, hresults⟩ := h.update hops hu hrev
              rw [hu', ← hstore]
              exact ⟨_, rfl, hresults⟩

/-- The settings of a second replica, whose maps iterate the other way round. -/
def Env.second : Env :=
  { Env.plain with
    order := fun _ l => l.reverse
    order_perm := fun _ l => l.reverse_perm
    replicaID := 2 }

/-- Two keys are overwritten. -/
def overwrites : List Entry :=
  [⟨1, .put { key := [97], value := [1] }, {}⟩, ⟨2, .put { key := [98], value := [1] }, {}⟩,
    ⟨3, .put { key := [97], value := [2] }, {}⟩, ⟨4, .put { key := [97], value := [3] }, {}⟩,
    ⟨5, .put { key := [98], value := [2] }, {}⟩, ⟨6, .put { key := [98], value := [3] }, {}⟩,
    ⟨7, .put { key := [99] }, {}⟩]

/-- What is overwritten is compacted, on one replica in the batch of the puts and on the other in
the next one.  Both keys are pruned, each replica in its own order. -/
theorem replicas_agree_on_compaction :
    ∃ s rs rs',
      updates .plain [overwrites, [⟨8, .compact 8, {}⟩]] .init = .ok (s, rs) ∧
      updates .second [overwrites ++ [⟨8, .compact 8, {}⟩]] .init = .ok (s, rs') ∧
      rs'.map Result.anonymous = rs.map Result.anonymous := by
  obtain ⟨⟨s, rs⟩, hr, hrev⟩ : ∃ r ∈ (updates .plain
      [overwrites, [⟨8, .compact 8, {}⟩]] .init).toOption, r.1.dbMeta.rev < 2 ^ 52 := by
    decide +kernel
  have hok := eq_ok_of_mem_toOption hr
  have hsame : Env.plain.SameShard .second := ⟨rfl, rfl, rfl⟩
  have hlog : [overwrites ++ [⟨8, .compact 8, {}⟩]].flatten =
      [overwrites, [⟨8, .compact 8, {}⟩]].flatten := rfl
  obtain ⟨rs', hF, hrs⟩ :=
    replicas_agree hsame (by decide) (by decide) hlog (by decide +kernel) hok hrev
  exact ⟨s, rs, rs', hok, hF, hrs⟩

end Runs

end Turbokube
