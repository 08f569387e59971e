import Turbokube.Store.Versioned

/-!
# Recorded events

`events db` are the events of the event table in the order of a cursor that goes
through it: by revision, then by operation, and the tombstones of one operation by
their stored bytes.  Under `Rep` every entry decodes to the event of a version.
-/

namespace Turbokube

open Encoding Lmdb

theorem fromKey_evtBytes (rev : Keyrev) (epoch : UInt64) (key : Bytes) :
    Keyrev.fromKey rev.key (evtBytes rev epoch key) = .ok rev := by
  have hlen : ¬ (evtBytes rev epoch key).length < 4 := by
    rw [evtBytes, withChecksum_length]
    omega
  rw [Keyrev.fromKey, if_neg hlen, evtBytes, splitChecksum_withChecksum]
  simp [rev.mk_uint64_key]

theorem trimChecksum_withChecksum (key val : Bytes) :
    trimChecksum key (withChecksum key val) = .ok val := by
  have hlen : ¬ (withChecksum key val).length < 4 := by
    rw [withChecksum_length]
    omega
  rw [trimChecksum, if_neg hlen, splitChecksum_withChecksum]
  rfl

theorem skipUvarint_putUvarint (x : UInt64) (rest : Bytes) :
    skipUvarint (putUvarint x ++ rest) = .ok (x, rest) := by
  rw [skipUvarint, uvarint_putUvarint]

namespace DbKv

theorem evtFromBytes_evtBytes (rev : Keyrev) (epoch : UInt64) (key : Bytes) :
    evtFromBytes rev.key (evtBytes rev epoch key) = .ok ⟨epoch, key, rev⟩ := by
  rw [evtFromBytes, fromKey_evtBytes, evtBytes, trimChecksum_withChecksum]
  simp only [skipUvarint_putUvarint]

/-- The event an entry decodes to. -/
def decodeEvt (p : Bytes × Bytes) : KvEvent :=
  match evtFromBytes p.1 p.2 with
  | .ok evt => evt
  | .error _ => ⟨0, [], .zero⟩

def events (db : DbKv) : List KvEvent := db.evt.pairs.map decodeEvt

/-- The events of the revisions from `n` on. -/
def eventsFrom (db : DbKv) (n : Nat) : List KvEvent :=
  db.events.filter (fun evt => n ≤ evt.rev.upper.toNat)

variable {E : Env} {S : Prop} {db : DbKv} {ch : Bytes → List Version}

theorem decodeEvt_evtBytes (rev : Keyrev) (epoch : UInt64) (key : Bytes) :
    decodeEvt (rev.key, evtBytes rev epoch key) = ⟨epoch, key, rev⟩ := by
  rw [decodeEvt, evtFromBytes_evtBytes]

/-- An entry of the event table that encodes an event. -/
def EvtOk (p : Bytes × Bytes) : Prop :=
  p = ((decodeEvt p).rev.key, evtBytes (decodeEvt p).rev (decodeEvt p).epoch (decodeEvt p).key)

theorem evtOk_evtBytes (rev : Keyrev) (epoch : UInt64) (key : Bytes) :
    EvtOk (rev.key, evtBytes rev epoch key) := by
  rw [EvtOk, decodeEvt_evtBytes]

theorem fromKey_of_evtOk {p : Bytes × Bytes} (h : EvtOk p) :
    Keyrev.fromKey p.1 p.2 = .ok (decodeEvt p).rev := by
  conv => lhs; rw [h]
  exact fromKey_evtBytes _ _ _

theorem trimChecksum_of_evtOk {p : Bytes × Bytes} (h : EvtOk p) :
    trimChecksum p.1 p.2 = .ok (putUvarint (decodeEvt p).epoch ++ (decodeEvt p).key) := by
  conv => lhs; rw [h]
  exact trimChecksum_withChecksum _ _

theorem evtFromBytes_of_evtOk {p : Bytes × Bytes} (h : EvtOk p) :
    evtFromBytes p.1 p.2 = .ok (decodeEvt p) := by
  conv => lhs; rw [h]
  exact evtFromBytes_evtBytes _ _ _

theorem scanPairs_eq {l : List (Bytes × Bytes)} (h : ∀ p ∈ l, EvtOk p) :
    scanPairs l = .ok (l.map decodeEvt) := by
  induction l with
  | nil => rfl
  | cons p l ih =>
      rw [show p = (p.1, p.2) from rfl, scanPairs, evtFromBytes_of_evtOk (h p List.mem_cons_self)]
      simp only [ih (fun q hq => h q (List.mem_cons_of_mem _ hq)), List.map_cons]

/-- A scan goes through the events from a revision on. -/
theorem scan_eq (hok : ∀ p ∈ db.evt.pairs, EvtOk p) {r : UInt64} (hr : r.toNat < 2 ^ 52) :
    db.scan r = .ok (db.eventsFrom r.toNat) := by
  have hword : (r <<< 12).toNat = r.toNat * 4096 := by
    rw [UInt64.toNat_shiftLeft, show (12 : UInt64).toNat % 64 = 12 from rfl, Nat.shiftLeft_eq]
    exact Nat.mod_eq_of_lt (by omega)
  rw [scan, DupTable.seekPairs, scanPairs_eq (fun p hp => hok p (List.mem_of_mem_filter hp)),
    eventsFrom, events, List.filter_map]
  refine congrArg (fun l => Except.ok (l.map decodeEvt)) (List.filter_congr (fun p hp => ?_))
  have hkey : p.1 = (decodeEvt p).rev.key := congrArg Prod.fst (hok p hp)
  have hle := @Keyrev.key_le_key_iff ⟨r <<< 12⟩ (decodeEvt p).rev
  rw [Keyrev.key, hword] at hle
  simp only [Function.comp, Keyrev.upper_toNat, hkey, decide_eq_decide, hle]
  omega

/-- An event belongs to a version of its key, which may have been compacted away. -/
theorem Rep.version_of_evt (h : db.Rep E S ch) {p : Bytes × Bytes} (hp : p ∈ db.evt.pairs) :
    EvtOk p ∧ ∃ x ∈ versions db.log (decodeEvt p).key, x.rev = (decodeEvt p).rev := by
  obtain ⟨k, x, hx, epoch, hrk, hv⟩ := h.evt p.1 p.2 (DupTable.mem_pairs.mp hp)
  have hpair : p = (x.rev.key, evtBytes x.rev epoch k) := Prod.ext hrk hv
  rw [hpair, decodeEvt_evtBytes]
  exact ⟨evtOk_evtBytes _ _ _, x, hx, rfl⟩

theorem Rep.version_of_event (h : db.Rep E S ch) {evt : KvEvent} (hevt : evt ∈ db.events) :
    ∃ x ∈ versions db.log evt.key, x.rev = evt.rev := by
  obtain ⟨p, hp, rfl⟩ := List.mem_map.mp hevt
  exact (h.version_of_evt hp).2

/-- Entries that decode are in the order of their revisions. -/
theorem pairs_rev_le {l : List (Bytes × Bytes)} (hok : ∀ p ∈ l, EvtOk p)
    (hsorted : l.Pairwise (fun a b => a.1 < b.1 ∨ a.1 = b.1 ∧ a.2 < b.2)) :
    l.Pairwise (fun a b => (decodeEvt a).rev.word.toNat ≤ (decodeEvt b).rev.word.toNat) := by
  refine hsorted.imp_of_mem (fun {a b} ha hb hlt => ?_)
  have hkey : ∀ p ∈ l, p.1 = (decodeEvt p).rev.key := fun p hp => congrArg Prod.fst (hok p hp)
  have hle : a.1 ≤ b.1 := by
    rcases hlt with hlt | ⟨heq, -⟩
    · exact hlt.le
    · exact heq.le
  rw [hkey a ha, hkey b hb] at hle
  exact Keyrev.key_le_key_iff.mp hle

theorem split_of_sorted {α : Type} {f : α → Nat} {l : List α}
    (h : l.Pairwise (fun a b => f a ≤ f b)) (n : Nat) :
    ∃ low high, l = low ++ high ∧ (∀ a ∈ low, f a < n) ∧ ∀ a ∈ high, n ≤ f a := by
  induction l with
  | nil => exact ⟨[], [], rfl, by simp, by simp⟩
  | cons a l ih =>
      obtain ⟨ha, hl⟩ := List.pairwise_cons.mp h
      by_cases hlt : f a < n
      · obtain ⟨low, high, rfl, hlow, hhigh⟩ := ih hl
        exact ⟨a :: low, high, rfl, List.forall_mem_cons.mpr ⟨hlt, hlow⟩, hhigh⟩
      · refine ⟨[], a :: l, rfl, by simp, List.forall_mem_cons.mpr ⟨by omega, fun b hb => ?_⟩⟩
        have := ha b hb
        omega

theorem events_sorted (hok : ∀ p ∈ db.evt.pairs, EvtOk p) :
    db.events.Pairwise (fun a b => a.rev.word.toNat ≤ b.rev.word.toNat) := by
  rw [events, List.pairwise_map]
  exact pairs_rev_le hok db.evt.pairs_sorted

theorem Rep.evtOk (h : db.Rep E S ch) : ∀ p ∈ db.evt.pairs, EvtOk p :=
  fun _ hp => (h.version_of_evt hp).1

theorem Rep.events_sorted (h : db.Rep E S ch) :
    db.events.Pairwise (fun a b => a.rev.word.toNat ≤ b.rev.word.toNat) :=
  DbKv.events_sorted h.evtOk

/-- A scan leaves out the events below a revision, which come first. -/
theorem scan_split (hok : ∀ p ∈ db.evt.pairs, EvtOk p) {r : UInt64} (hr : r.toNat < 2 ^ 52) :
    ∃ low high, db.events = low ++ high ∧ (∀ evt ∈ low, evt.rev.upper < r) ∧
      (∀ evt ∈ high, r ≤ evt.rev.upper) ∧ db.scan r = .ok high := by
  have hsorted : db.events.Pairwise (fun a b => a.rev.upper.toNat ≤ b.rev.upper.toNat) := by
    refine (DbKv.events_sorted hok).imp (fun {a b} hle => ?_)
    rw [Keyrev.upper_toNat, Keyrev.upper_toNat]
    exact Nat.div_le_div_right hle
  obtain ⟨low, high, hsplit, hlow, hhigh⟩ := split_of_sorted hsorted r.toNat
  refine ⟨low, high, hsplit, hlow, hhigh, ?_⟩
  rw [scan_eq hok hr, eventsFrom, hsplit, List.filter_append,
    List.filter_eq_nil_iff.mpr (fun evt hevt => by simpa using hlow evt hevt),
    List.filter_eq_self.mpr (fun evt hevt => by simpa using hhigh evt hevt), List.nil_append]

end DbKv

end Turbokube
