import Turbokube.Record.Keyrev

/-!
# Stored records decode back

A `Keyrecord` decodes to what was encoded and the records of one key sort newest
first.  A `Kv` decodes back when the decoder is given the value its patch was
made against, except that the decoder refuses buffers below eleven bytes: the
record of a one-byte key with an empty value whose three counters fit one byte
each takes ten (`Kv.Short`).
-/

namespace Turbokube

open Encoding

namespace Keyrecord

theorem bytes_of_isdel {kr : Keyrecord} (h : kr.rev.isdel = true) :
    kr.bytes = withChecksum kr.key kr.rev.invert.key := by
  simp [bytes, h]

theorem bytes_of_live {kr : Keyrecord} (h : kr.rev.isdel = false) :
    kr.bytes = withChecksum kr.key (kr.rev.invert.key ++ putUvarint kr.lease) := by
  simp [bytes, h]

theorem twelve_le_bytes_length (kr : Keyrecord) : 12 ≤ kr.bytes.length := by
  cases h : kr.rev.isdel
  · simp [bytes_of_live h]
  · simp [bytes_of_isdel h]

/-- Decoding a tombstone leaves the lease of the receiver. -/
theorem fromBytes_bytes (recv kr : Keyrecord) :
    recv.fromBytes kr.key kr.bytes =
      .ok ⟨kr.key, kr.rev, if kr.rev.isdel then recv.lease else kr.lease⟩ := by
  have hlen : ¬ kr.bytes.length < 11 := by
    have := kr.twelve_le_bytes_length
    omega
  rw [fromBytes, if_neg hlen]
  cases h : kr.rev.isdel
  · have hrev : (Keyrev.mk (uint64 kr.bytes)).invert = kr.rev := by
      rw [bytes_of_live h, withChecksum, List.append_assoc, Keyrev.key, uint64_putUint64_append]
      exact kr.rev.invert_invert
    have hdrop : kr.bytes.drop 8 =
        putUvarint kr.lease ++
          putUint32 (crc32 (kr.key ++ (kr.rev.invert.key ++ putUvarint kr.lease))) := by
      rw [bytes_of_live h, withChecksum, List.append_assoc]
      exact List.drop_left' kr.rev.invert.key_length
    have hsplit : (splitChecksum kr.key kr.bytes).2 = true := by
      rw [bytes_of_live h, splitChecksum_withChecksum]
    simp only [hsplit, hrev, h, hdrop, uvarint_putUvarint, Bool.not_true, Bool.false_eq_true,
      if_false]
  · have hrev : (Keyrev.mk (uint64 kr.bytes)).invert = kr.rev := by
      rw [bytes_of_isdel h, withChecksum, Keyrev.key, uint64_putUint64_append]
      exact kr.rev.invert_invert
    have hsplit : (splitChecksum kr.key kr.bytes).2 = true := by
      rw [bytes_of_isdel h, splitChecksum_withChecksum]
    simp only [hsplit, hrev, h, Bool.not_true, Bool.false_eq_true, if_false, if_true]

/-- The inverted word leads the record, so newer records sort first. -/
theorem bytes_lt_bytes {a b : Keyrecord} (h : b.rev.word.toNat < a.rev.word.toNat) :
    a.bytes < b.bytes := by
  have hsplit : ∀ kr : Keyrecord, ∃ rest, kr.bytes = kr.rev.invert.key ++ rest := by
    intro kr
    cases hd : kr.rev.isdel
    · exact ⟨_, by rw [bytes_of_live hd, withChecksum, List.append_assoc]⟩
    · exact ⟨_, by rw [bytes_of_isdel hd, withChecksum]⟩
  obtain ⟨s, hs⟩ := hsplit a
  obtain ⟨t, ht⟩ := hsplit b
  rw [hs, ht]
  exact append_lt_append_of_lt (by simp) (Keyrev.invert_key_lt_iff.mpr h) s t

end Keyrecord

/-- The errors of a record that does not decode. -/
def Err.isDecoding : Err → Bool
  | .checksumMissing | .checksumInvalid | .uvarint _ | .snappyCorrupt | .patchInvalid
  | .patchCorrupt | .panic => true
  | _ => false

namespace Kv

variable (F : Flags) (C : Codec)

/-- What precedes the checksum of a live record. -/
def body (kv : Kv) (next : Option Bytes) : Bytes :=
  putUvarint (UInt64.ofNat kv.key.length) ++ kv.key ++ putUvarint kv.created ++
    putUvarint kv.version ++ putUvarint kv.lease ++ [(packed F C kv.val next).2] ++
    (packed F C kv.val next).1

variable {F C}

theorem bytes_of_live {kv : Kv} (h : kv.rev.isdel = false) (next : Option Bytes) :
    kv.bytes F C next = withChecksum kv.rev.key (kv.body F C next) := by
  simp [bytes, body, h]

theorem patched_cases (val : Bytes) (base : Option Bytes) :
    patched F C val base = (val, 0) ∨
      ∃ b, base = some b ∧ val ≠ [] ∧ patched F C val base = (C.generate b val, kvFlagPatch) := by
  cases base with
  | none => exact .inl rfl
  | some b =>
      by_cases hon : F.patchEnabled = true
      · by_cases hlt : (C.generate b val).length < val.length
        · refine .inr ⟨b, rfl, ?_, by simp [patched, hon, hlt]⟩
          rintro rfl
          exact absurd hlt (Nat.not_lt_zero _)
        · exact .inl (by simp [patched, hon, hlt])
      · exact .inl (by simp [patched, hon])

theorem compressed_cases (val : Bytes) (flags : UInt8) :
    compressed F C val flags = (val, flags) ∨
      val ≠ [] ∧ compressed F C val flags = (C.encode val, flags ||| kvFlagCompressed) := by
  by_cases hlong : F.compressionEnabled = true ∧ 16 < val.length
  · by_cases hlt : (C.encode val).length < val.length
    · refine .inr ⟨?_, by simp [compressed, hlong, hlt]⟩
      rintro rfl
      exact absurd hlt (Nat.not_lt_zero _)
    · exact .inl (by simp [compressed, hlong, hlt])
  · exact .inl (by simp [compressed, hlong])

theorem packed_eq_nil_iff {val : Bytes} {base : Option Bytes} :
    (packed F C val base).1 = [] ↔ val = [] := by
  have hpatched : (patched F C val base).1 = [] ↔ val = [] := by
    rcases patched_cases (F := F) (C := C) val base with h | ⟨b, -, hval, h⟩
    · rw [h]
    · simp [h, hval, C.generate_ne_nil]
  rw [← hpatched, packed]
  rcases compressed_cases (F := F) (C := C) (patched F C val base).1 (patched F C val base).2
    with h | ⟨hval, h⟩
  · rw [h]
  · simp [h, hval, C.encode_ne_nil]

/-- The compression flag is set exactly when the content was compressed. -/
theorem decode_compressed (val : Bytes) {flags : UInt8} (h : flags = 0 ∨ flags = kvFlagPatch) :
    (if 0 < (compressed F C val flags).2 &&& kvFlagCompressed then
      C.decode (compressed F C val flags).1 else some (compressed F C val flags).1) = some val ∧
    (0 < (compressed F C val flags).2 &&& kvFlagPatch ↔ flags = kvFlagPatch) := by
  rcases compressed_cases (F := F) (C := C) val flags with hc | ⟨-, hc⟩
  · simp only [hc]
    rcases h with rfl | rfl
    · exact ⟨if_neg (by decide), by decide⟩
    · exact ⟨if_neg (by decide), by decide⟩
  · simp only [hc]
    rcases h with rfl | rfl
    · exact ⟨(if_pos (by decide)).trans (C.decode_encode val), by decide⟩
    · exact ⟨(if_pos (by decide)).trans (C.decode_encode val), by decide⟩

/-- A value unpacks against the value it was patched with, and against anything
when it was stored in full. -/
theorem unpacked_packed (val : Bytes) {base next : Option Bytes}
    (h : base = none ∨ next = base) :
    unpacked C (packed F C val base).2 (packed F C val base).1 next = (val, none) := by
  rw [unpacked, packed]
  rcases patched_cases (F := F) (C := C) val base with hp | ⟨b, hb, -, hp⟩
  · obtain ⟨hdec, hflag⟩ := decode_compressed (F := F) (C := C) val (.inl rfl)
    simp only [hp]
    rw [hdec]
    simp only [hflag]
    rfl
  · obtain ⟨hdec, hflag⟩ := decode_compressed (F := F) (C := C) (C.generate b val) (.inr rfl)
    have hnext : next = some b := by
      rcases h with h | h
      · rw [hb] at h
        exact absurd h (by simp)
      · rw [h, hb]
    simp only [hp]
    rw [hdec]
    simp only [hflag, hnext, C.apply_generate, if_true]

/-- A record whose encoding is below the eleven bytes the decoder asks for. -/
def Short (kv : Kv) : Prop :=
  kv.key.length = 1 ∧ kv.created.toNat < 128 ∧ kv.version.toNat < 128 ∧ kv.lease.toNat < 128 ∧
    kv.val = []

instance (kv : Kv) : Decidable kv.Short := by
  unfold Short
  infer_instance

theorem bytes_length {kv : Kv} (h : kv.rev.isdel = false) (next : Option Bytes) :
    (kv.bytes F C next).length =
      (putUvarint (UInt64.ofNat kv.key.length)).length + kv.key.length +
        (putUvarint kv.created).length + (putUvarint kv.version).length +
        (putUvarint kv.lease).length + 1 + (packed F C kv.val next).1.length + 4 := by
  rw [bytes_of_live h, withChecksum_length, body]
  simp only [List.length_append, List.length_singleton]

theorem bytes_length_lt_iff {kv : Kv} (h : kv.rev.isdel = false) (hkey : kv.key ≠ [])
    (next : Option Bytes) : (kv.bytes F C next).length < 11 ↔ kv.Short := by
  have hkey1 : 1 ≤ kv.key.length := List.length_pos_iff.mpr hkey
  have hk := one_le_putUvarint_length (UInt64.ofNat kv.key.length)
  have hc := one_le_putUvarint_length kv.created
  have hv := one_le_putUvarint_length kv.version
  have hl := one_le_putUvarint_length kv.lease
  rw [bytes_length h, Short, ← putUvarint_length_eq_one, ← putUvarint_length_eq_one,
    ← putUvarint_length_eq_one, ← @packed_eq_nil_iff F C kv.val next,
    ← List.length_eq_zero_iff]
  constructor
  · intro hlt
    omega
  · rintro ⟨h1, h2, h3, h4, h5⟩
    have hk1 : (putUvarint (UInt64.ofNat kv.key.length)).length = 1 := by
      rw [putUvarint_length_eq_one, h1]
      decide
    omega

theorem fromTail_tail (recv kv : Kv) {base next : Option Bytes} {noval : Bool}
    (h : noval = false → base = none ∨ next = base) :
    fromTail C recv
        (putUvarint kv.created ++ putUvarint kv.version ++ putUvarint kv.lease ++
          [(packed F C kv.val base).2] ++ (packed F C kv.val base).1) next noval =
      ({ recv with
          created := kv.created, version := kv.version, lease := kv.lease,
          val := if noval then recv.val else kv.val }, none) := by
  rw [fromTail]
  simp only [List.append_assoc, readUvarint_putUvarint, List.cons_append, List.nil_append]
  cases noval with
  | true => rfl
  | false =>
      rw [unpacked_packed kv.val (h rfl)]
      rfl

/-- Decoding reads the fields of a record that is not too short off its encoding, and goes on to
what follows the key. -/
theorem fromBytes_eq_fromTail (recv : Kv) {kv : Kv} (hlive : kv.rev.isdel = false)
    (hkey : kv.key ≠ []) (hlen : kv.key.length < 2 ^ 64) (hshort : ¬ kv.Short)
    (base next : Option Bytes) (noval : Bool) :
    recv.fromBytes C kv.rev.key (kv.bytes F C base) next noval =
      fromTail C { recv with rev := kv.rev, key := kv.key }
        (putUvarint kv.created ++ putUvarint kv.version ++ putUvarint kv.lease ++
          [(packed F C kv.val base).2] ++ (packed F C kv.val base).1) next noval := by
  have hklen : (UInt64.ofNat kv.key.length).toNat = kv.key.length := by
    rw [UInt64.toNat_ofNat', Nat.mod_eq_of_lt hlen]
  have hbytes : kv.bytes F C base =
      putUvarint (UInt64.ofNat kv.key.length) ++
        (kv.key ++ (putUvarint kv.created ++ putUvarint kv.version ++ putUvarint kv.lease ++
          [(packed F C kv.val base).2] ++ (packed F C kv.val base).1) ++
          putUint32 (crc32 (kv.rev.key ++ kv.body F C base))) := by
    rw [bytes_of_live hlive, withChecksum]
    conv => lhs; lhs; rw [body]
    simp only [List.append_assoc]
  have hnotlt : ¬ (kv.bytes F C base).length < 11 := by
    rw [bytes_length_lt_iff hlive hkey]
    exact hshort
  have hsum : (splitChecksum kv.rev.key (kv.bytes F C base)).2 = true := by
    rw [bytes_of_live hlive, splitChecksum_withChecksum]
  have hrev : Keyrev.mk (uint64 kv.rev.key) = kv.rev := kv.rev.mk_uint64_key
  rw [fromBytes, if_neg hnotlt, hsum]
  simp only [hrev, hlive, Bool.not_true, Bool.false_eq_true, if_false]
  rw [hbytes, uvarint_putUvarint]
  simp only [hklen]
  rw [if_neg (by simp only [List.length_append, putUint32_length]; omega)]
  rw [List.take_left' (by simp only [List.length_append, putUint32_length]; omega),
    List.take_left' rfl, List.drop_left' rfl]

theorem fromBytes_bytes (recv : Kv) {kv : Kv} (hlive : kv.rev.isdel = false) (hkey : kv.key ≠ [])
    (hlen : kv.key.length < 2 ^ 64) (hshort : ¬ kv.Short) {base next : Option Bytes} {noval : Bool}
    (h : noval = false → base = none ∨ next = base) :
    recv.fromBytes C kv.rev.key (kv.bytes F C base) next noval =
      ({ kv with val := if noval then recv.val else kv.val }, none) := by
  rw [fromBytes_eq_fromTail recv hlive hkey hlen hshort, fromTail_tail _ kv h]

theorem fromBytes_short (recv : Kv) {kv : Kv} (hlive : kv.rev.isdel = false) (hshort : kv.Short)
    (base next : Option Bytes) (noval : Bool) :
    recv.fromBytes C kv.rev.key (kv.bytes F C base) next noval =
      (recv, some .checksumMissing) := by
  have hkey : kv.key ≠ [] := by
    intro h
    have h1 := hshort.1
    rw [h] at h1
    exact absurd h1 (by decide)
  rw [fromBytes, if_pos ((bytes_length_lt_iff hlive hkey base).mpr hshort)]

theorem fromTail_rev (kv : Kv) (r : Bytes) (next : Option Bytes) (noval : Bool) :
    (kv.fromTail C r next noval).1.rev = kv.rev := by
  simp only [fromTail]
  split
  · rfl
  · split
    · rfl
    · split
      · rfl
      · split
        · rfl
        · split <;> rfl

/-- A record that decodes has the revision it is stored under. -/
theorem fromBytes_rev {recv item : Kv} {revKey buf : Bytes} {next : Option Bytes} {noval : Bool}
    (h : recv.fromBytes C revKey buf next noval = (item, none)) :
    item.rev = ⟨uint64 revKey⟩ := by
  rw [fromBytes] at h
  split at h
  · cases (Prod.mk.inj h).2
  · split at h
    · cases (Prod.mk.inj h).2
    · simp only at h
      split at h
      · rw [← (Prod.mk.inj h).1]
      · split at h
        · cases (Prod.mk.inj h).2
        · split at h
          · cases (Prod.mk.inj h).2
          · exact (congrArg (fun p => p.1.rev) h).symm.trans (fromTail_rev _ _ _ _)

theorem unpacked_err {flags : UInt8} {val : Bytes} {next : Option Bytes} {e : Err}
    (h : (unpacked C flags val next).2 = some e) : e.isDecoding = true := by
  simp only [unpacked] at h
  split at h
  · obtain rfl := Option.some.inj h
    rfl
  · split at h
    · split at h
      · obtain rfl := Option.some.inj h
        rfl
      · split at h
        · obtain rfl := Option.some.inj h
          rfl
        · cases h
    · cases h

theorem fromTail_err {kv : Kv} {r : Bytes} {next : Option Bytes} {noval : Bool} {e : Err}
    (h : (kv.fromTail C r next noval).2 = some e) : e.isDecoding = true := by
  simp only [fromTail] at h
  split at h
  · obtain rfl := Option.some.inj h
    rfl
  · split at h
    · obtain rfl := Option.some.inj h
      rfl
    · split at h
      · obtain rfl := Option.some.inj h
        rfl
      · split at h
        · obtain rfl := Option.some.inj h
          rfl
        · split at h
          · cases h
          · exact unpacked_err h

theorem fromBytes_err {kv : Kv} {revKey buf : Bytes} {next : Option Bytes} {noval : Bool} {e : Err}
    (h : (kv.fromBytes C revKey buf next noval).2 = some e) : e.isDecoding = true := by
  rw [fromBytes] at h
  split at h
  · obtain rfl := Option.some.inj h
    rfl
  · split at h
    · obtain rfl := Option.some.inj h
      rfl
    · simp only at h
      split at h
      · cases h
      · split at h
        · obtain rfl := Option.some.inj h
          rfl
        · split at h
          · obtain rfl := Option.some.inj h
            rfl
          · exact fromTail_err h

/-- Whatever a patch is applied to, a record that decodes has the creation revision it was stored
with. -/
theorem created_of_fromBytes {recv kv item : Kv} (hlive : kv.rev.isdel = false)
    (hkey : kv.key ≠ []) (hlen : kv.key.length < 2 ^ 64) {base next : Option Bytes} {noval : Bool}
    (h : recv.fromBytes C kv.rev.key (kv.bytes F C base) next noval = (item, none)) :
    item.created = kv.created := by
  by_cases hshort : kv.Short
  · rw [fromBytes_short recv hlive hshort] at h
    cases (Prod.mk.inj h).2
  · rw [fromBytes_eq_fromTail recv hlive hkey hlen hshort, fromTail] at h
    simp only [List.append_assoc, readUvarint_putUvarint, List.cons_append,
      List.nil_append] at h
    split at h
    · rw [← (Prod.mk.inj h).1]
    · rw [← (Prod.mk.inj h).1]

/-- The fields before the value can be read off the encoding, short or not. -/
theorem bytes_inj {a b : Kv} (hrev : a.rev = b.rev) (hlive : a.rev.isdel = false)
    (ha : a.key.length < 2 ^ 64) (hb : b.key.length < 2 ^ 64) {base base' : Option Bytes}
    (h : a.bytes F C base = b.bytes F C base') :
    a.key = b.key ∧ a.created = b.created ∧ a.version = b.version ∧ a.lease = b.lease := by
  rw [bytes_of_live hlive, bytes_of_live (hrev ▸ hlive), hrev] at h
  have hbody := withChecksum_inj h
  simp only [body, List.append_assoc] at hbody
  obtain ⟨hlen, hbody⟩ := putUvarint_append_inj hbody
  have hlen' : a.key.length = b.key.length := by
    have hnat := congrArg UInt64.toNat hlen
    rwa [UInt64.toNat_ofNat', UInt64.toNat_ofNat', Nat.mod_eq_of_lt ha, Nat.mod_eq_of_lt hb] at hnat
  obtain ⟨hkey, hbody⟩ := List.append_inj hbody hlen'
  obtain ⟨hcreated, hbody⟩ := putUvarint_append_inj hbody
  obtain ⟨hversion, hbody⟩ := putUvarint_append_inj hbody
  obtain ⟨hlease, -⟩ := putUvarint_append_inj hbody
  exact ⟨hkey, hcreated, hversion, hlease⟩

/-- A live record comes back from its encoding, with or without its value, exactly when it is
not too short for the decoder. -/
theorem record_roundtrip_iff (recv : Kv) {kv : Kv} (hlive : kv.rev.isdel = false)
    (hkey : kv.key ≠ []) (hlen : kv.key.length ≤ 480) (next : Option Bytes) :
    (recv.fromBytes C kv.rev.key (kv.bytes F C next) next false = (kv, none) ∧
      recv.fromBytes C kv.rev.key (kv.bytes F C next) next true =
        ({ kv with val := recv.val }, none)) ↔ ¬ kv.Short := by
  constructor
  · rintro ⟨hfull, -⟩ hshort
    rw [fromBytes_short recv hlive hshort] at hfull
    cases (Prod.mk.inj hfull).2
  · intro hshort
    have hlen' : kv.key.length < 2 ^ 64 := by omega
    refine ⟨?_, ?_⟩
    · rw [fromBytes_bytes recv hlive hkey hlen' hshort (fun _ => .inr rfl)]
      rfl
    · rw [fromBytes_bytes recv hlive hkey hlen' hshort (fun _ => .inr rfl)]
      rfl

theorem record_roundtrip_two_bytes :
    Kv.fromBytes .plain {} (revAt 2 0 false).key
        (Kv.bytes {} .plain ⟨revAt 2 0 false, 1, 2, 0, [97, 98], []⟩ (some [1])) (some [1]) false =
      (⟨revAt 2 0 false, 1, 2, 0, [97, 98], []⟩, none) ∧
    Kv.fromBytes .plain {} (revAt 2 0 false).key
        (Kv.bytes {} .plain ⟨revAt 2 0 false, 1, 2, 0, [97, 98], []⟩ (some [1])) (some [1]) true =
      (⟨revAt 2 0 false, 1, 2, 0, [97, 98], []⟩, none) :=
  (record_roundtrip_iff {} (by decide) (by decide) (by decide) (some [1])).mpr (by decide)

/-- One byte of key, no value, and three counters of one byte each. -/
theorem record_roundtrip_fails :
    Kv.fromBytes .plain {} (revAt 2 0 false).key
        (Kv.bytes {} .plain ⟨revAt 2 0 false, 1, 2, 0, [97], []⟩ none) none false =
      ({}, some .checksumMissing) := by
  decide +kernel

end Kv

end Turbokube
