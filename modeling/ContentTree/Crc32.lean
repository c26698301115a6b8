import ContentTree.Text.Hexadecimal

/-!
# The checksum CRC-32

The cyclic redundancy check with the reflected polynomial `0xedb88320`, all bits set at the start
and complemented at the end. Contents and subtrees are compared by it before they are compared in
full.

## Main definitions

* `ofBytes`, `ofString`: the checksum of a sequence of bytes, or of the UTF-8 form of a text.
* `bytes`: a checksum as four bytes, most significant first.
* `hex`: a checksum as eight hexadecimal digits.
-/

namespace ContentTree.Crc32

/-- Divides by the polynomial for one bit. -/
def bitStep (register : UInt32) : UInt32 :=
  if register &&& 1 = 1 then (register >>> 1) ^^^ 0xedb88320 else register >>> 1

/-- Takes one byte into the register. -/
def byteStep (register : UInt32) (byte : UInt8) : UInt32 :=
  (List.range 8).foldl (fun r _ => bitStep r) (register ^^^ byte.toUInt32)

/-- The checksum of a sequence of bytes. -/
def ofBytes (bytes : List UInt8) : UInt32 :=
  ~~~(bytes.foldl byteStep 0xffffffff)

/-- The checksum of the UTF-8 form of a text. -/
def ofString (s : String) : UInt32 :=
  ofBytes s.toUTF8.toList

/-- The four bytes of a checksum, most significant first. -/
def bytes (sum : UInt32) : List UInt8 :=
  [(sum >>> 24).toUInt8, (sum >>> 16).toUInt8, (sum >>> 8).toUInt8, sum.toUInt8]

/-- Eight hexadecimal digits. -/
def hex (sum : UInt32) : String :=
  String.ofList (Text.hexPadded 8 sum.toNat)

end ContentTree.Crc32
