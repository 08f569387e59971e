import Turbokube.Store.Records

/-!
# How reads fail

The errors of the tables and of decoding are none of those that are returned to a client.  So a
read that fails with one of the latter has been refused before the tables were read.
-/

namespace Turbokube

open Encoding Lmdb

/-- The error is none of those that are returned to a client. -/
def Err.isInternal : Err → Bool
  | .grpcEmptyKey | .grpcKeyTooLong | .grpcValueProvided | .grpcLeaseProvided | .grpcDuplicateKey
  | .grpcCompacted | .grpcFutureRev | .grpcLeaseNotFound | .grpcLeaseExist => false
  | _ => true

theorem Keyrecord.fromBytes_internal {kr : Keyrecord} {k v : Bytes} {e : Err}
    (h : kr.fromBytes k v = .error e) : e.isInternal = true := by
  unfold Keyrecord.fromBytes at h
  split at h
  · cases h
    rfl
  · split at h
    · cases h
      rfl
    · simp only at h
      split at h
      · cases h
      · split at h <;> cases h

theorem Kv.fromBytes_internal {C : Codec} {kv item : Kv} {k v : Bytes} {next : Option Bytes}
    {noval : Bool} {e : Err} (h : kv.fromBytes C k v next noval = (item, some e)) :
    e.isInternal = true := by
  have hdecoding := Kv.fromBytes_err (congrArg Prod.snd h)
  cases e <;> first | rfl | cases hdecoding

namespace DbKv

variable {E : Env} {db : DbKv} {e : Err}

theorem descend_internal {k : Bytes} {r : UInt64} {keep : Bool} {l : List Bytes}
    {next : List Keyrev} (h : descend k r keep l next = .error e) : e.isInternal = true := by
  induction l generalizing next with
  | nil => cases h
  | cons b l ih =>
      rw [descend] at h
      split at h
      · rename_i herr
        cases h
        exact Keyrecord.fromBytes_internal herr
      · split at h
        · exact ih h
        · cases h

theorem readRevs_internal {keysOnly : Bool} {l : List Keyrev} {recv item : Kv}
    {next : Option Bytes} (h : readRevs E db keysOnly l recv next = (item, some e)) :
    e.isInternal = true := by
  induction l generalizing recv next with
  | nil => cases h
  | cons r l ih =>
      rw [readRevs] at h
      split at h
      · cases h
        rfl
      · split at h
        · rename_i herr
          cases h
          exact Kv.fromBytes_internal herr
        · exact ih h

theorem rangeKey_internal {a : RangeArgs} {k : Bytes} {dups : List Bytes} {acc : RangeAcc}
    (h : rangeKey E db a k dups acc = .error e) : e.isInternal = true := by
  unfold rangeKey at h
  split at h
  · cases h
  · split at h
    · rename_i herr
      cases h
      exact Keyrecord.fromBytes_internal herr
    · simp only at h
      split at h
      · cases h
      · split at h
        · rename_i herr
          cases h
          exact descend_internal herr
        · cases h
        · repeat' split at h
          all_goals first
            | cases h; done
            | rename_i herr
              cases h
              exact readRevs_internal herr

theorem getRange_internal {key rangeEnd : Bytes} {a : RangeArgs}
    (h : db.getRange E key rangeEnd a = .error e) : e.isInternal = true := by
  have hloop : ∀ (l : List (Bytes × List Bytes)) (acc : RangeAcc),
      rangeLoop E db a key rangeEnd l acc = .error e → e.isInternal = true := by
    intro l
    induction l with
    | nil => exact fun _ h => by cases h
    | cons p l ih =>
        obtain ⟨k, dups⟩ := p
        intro acc h
        rw [rangeLoop] at h
        split at h
        · cases h
        · split at h
          · rename_i herr
            cases h
            exact rangeKey_internal herr
          · split at h
            · cases h
            · exact ih _ h
  unfold getRange at h
  split at h
  · cases h
  · cases h
    rfl
  · split at h
    · rename_i herr
      cases h
      exact hloop _ _ herr
    · cases h

theorem eq_of_absentOk {err : Option Err} (h : absentOk err = some e) : err = some e := by
  unfold absentOk at h
  split at h
  · cases h
  · exact h

theorem getRev_internal {key : Bytes} {r : UInt64} {item prev : Kv}
    (h : db.getRev E key r false = (item, prev, some e)) : e.isInternal = true := by
  replace h := congrArg (fun r => r.2.2) h
  unfold getRev at h
  split at h
  · cases eq_of_absentOk h
    rfl
  · cases h
  · split at h
    · cases h
    · split at h
      · rename_i herr
        cases h
        exact descend_internal herr
      · cases h
      · split at h
        · cases h
        · split at h
          · rename_i herr
            cases eq_of_absentOk h
            exact readRevs_internal herr
          · cases h

end DbKv

end Turbokube
