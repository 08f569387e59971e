import Turbokube.Encoding.BigEndian

/-!
# CRC-32 and checksummed strings

`crc32` is the IEEE checksum of `hash/crc32`, one bit at a time.  A checksummed
string carries the checksum of a key and of its own content in its last four
bytes.
-/

namespace Encoding

def crcBit (c : UInt32) : UInt32 :=
  if c &&& 1 = 1 then (c >>> 1) ^^^ 0xEDB88320 else c >>> 1

def crcByte (c : UInt32) (b : UInt8) : UInt32 :=
  crcBit (crcBit (crcBit (crcBit (crcBit (crcBit (crcBit (crcBit (c ^^^ b.toUInt32))))))))

def crc32 (s : Bytes) : UInt32 := s.foldl crcByte 0xFFFFFFFF ^^^ 0xFFFFFFFF

/-- The checksum of the ASCII digits one to nine, the usual check value. -/
example : crc32 [49, 50, 51, 52, 53, 54, 55, 56, 57] = 0xCBF43926 := by decide +kernel

def withChecksum (key val : Bytes) : Bytes := val ++ putUint32 (crc32 (key ++ val))

/-- The content of a checksummed string, and whether its last four bytes are the
checksum of the key and that content. -/
def splitChecksum (key buf : Bytes) : Bytes × Bool :=
  let val := buf.take (buf.length - 4)
  (val, uint32 (buf.drop (buf.length - 4)) == crc32 (key ++ val))

@[simp] theorem withChecksum_length (key val : Bytes) :
    (withChecksum key val).length = val.length + 4 := by
  simp [withChecksum]

@[simp] theorem splitChecksum_withChecksum (key val : Bytes) :
    splitChecksum key (withChecksum key val) = (val, true) := by
  have hlen : (withChecksum key val).length - 4 = val.length := by simp
  have htake : (withChecksum key val).take val.length = val := by simp [withChecksum]
  have hdrop : (withChecksum key val).drop val.length = putUint32 (crc32 (key ++ val)) := by
    simp [withChecksum]
  simp only [splitChecksum, hlen, htake, hdrop, uint32_putUint32, BEq.rfl]

theorem withChecksum_inj {key s t : Bytes} (h : withChecksum key s = withChecksum key t) :
    s = t := by
  have hs := splitChecksum_withChecksum key s
  rw [h, splitChecksum_withChecksum] at hs
  simpa [eq_comm] using hs

end Encoding
