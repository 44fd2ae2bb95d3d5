import TripleStore.Text.Utf8

/-!
# Checksums of names

Graphs and terms are addressed by the 32-bit cyclic redundancy check with the
reversed polynomial `0xEDB88320`, an all-ones start value and a complemented
result.  It is no cryptographic hash: two texts may share a checksum, and the
dictionary has to notice.
-/

namespace TripleStore.Checksum

/-- One bit shifted out of the register. -/
def shift (crc : UInt32) : UInt32 :=
  if crc &&& 1 == 1 then (crc >>> 1) ^^^ 0xEDB88320 else crc >>> 1

/-- One byte fed into the register. -/
def feed (crc : UInt32) (b : UInt8) : UInt32 :=
  shift (shift (shift (shift (shift (shift (shift (shift (crc ^^^ b.toUInt32))))))))

/-- The checksum of bytes. -/
def ofBytes (bs : List UInt8) : UInt32 :=
  bs.foldl feed 0xFFFFFFFF ^^^ 0xFFFFFFFF

/-- The checksum of the UTF-8 bytes of a text. -/
def ofText (s : String) : UInt32 :=
  ofBytes (Text.Utf8.encode s)

/-- The check value of this checksum is the one of the nine digits. -/
example : ofText "123456789" = 0xCBF43926 := by decide +kernel

end TripleStore.Checksum
