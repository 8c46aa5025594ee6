import WordTex.Bytes
import WordTex.Checksum

/-! # Extra fields of directory entries

An entry of an archive's directory may have fields beyond the fixed ones. Each has a number, a size
and contents. Some of them bear on the name of the entry or on its sizes, and those that are known must be
well-formed. -/
namespace WordTex

/-- What extra fields bear on. The stored name is in bytes, and its characters are the name. The offset is
that of the member's own header, from the start of the archive. -/
structure DirectoryEntry where
  storedName : ByteArray
  name : String
  comment : String
  isEncrypted : Bool
  hasCipher : Bool
  size : Nat
  compressedSize : Nat
  offset : Nat

/-- The known extra fields. -/
inductive ExtraField where
  | unicodeName
  | unicodeComment
  | timestamps
  | fileTimes
  | cipher
  | largeSizes
  | alignment
  | other
deriving DecidableEq, Repr

namespace ExtraField

def ofNumber (n : Nat) : ExtraField :=
  if n = 0x7075 then unicodeName
  else if n = 0x6375 then unicodeComment
  else if n = 0x5455 then timestamps
  else if n = 0x000a then fileTimes
  else if n = 0x9901 then cipher
  else if n = 0x0001 then largeSizes
  else if n = 0xa11e then alignment
  else other

/-- The text of a field that replaces another one: after a byte of no meaning and the checksum of the
replaced text. -/
def replacement? (contents replaced : ByteArray) : Option ByteArray := do
  guard (littleEndian? contents 4 1 = some (crc32 replaced).toNat)
  slice? contents 5 (contents.size - 5)

/-- Timestamps of four bytes follow a byte with a bit for each of them. A single one needs no bit. -/
def isTimestamps (contents : ByteArray) : Bool :=
  match littleEndian? contents 1 0 with
  | some flags =>
    let times := ((List.range 8).filter fun k => flags >>> k % 2 = 1).length
    contents.size == 5 || contents.size == 1 + 4 * times
  | none => false

/-- Four bytes without a meaning, then one attribute with three times. -/
def isFileTimes (contents : ByteArray) : Bool :=
  contents.size == 32 && littleEndian? contents 2 4 == some 1 && littleEndian? contents 2 6 == some 24

/-- A version, the letters AE, one of three strengths, and the method of compression. -/
def isCipher (contents : ByteArray) : Bool :=
  contents.size == 7 && [some 1, some 2].contains (littleEndian? contents 2 0) &&
    littleEndian? contents 2 2 == some 0x4541 &&
    [some 1, some 2, some 3].contains (littleEndian? contents 1 4)

/-- A number of an entry, and the offset of the next one in the field. Its 64 bits are in the field if it
does not fit into 32, or if the field has room for all three numbers. -/
def largeNumber? (contents : ByteArray) (number offset : Nat) : Option (Nat × Nat) :=
  if 24 ≤ contents.size ∨ number = 0xffffffff then
    (littleEndian? contents 8 offset).map (·, offset + 8)
  else some (number, offset)

/-- The entry after a field with such contents. -/
def amend? (contents : ByteArray) (entry : DirectoryEntry) : ExtraField → Option DirectoryEntry
  | unicodeName => do
    let stored ← replacement? contents entry.storedName
    return { entry with storedName := stored, name := ← String.fromUTF8? stored }
  | unicodeComment => do
    let stored ← replacement? contents entry.comment.toUTF8
    return { entry with comment := ← String.fromUTF8? stored }
  | timestamps => if isTimestamps contents then some entry else none
  | fileTimes => if isFileTimes contents then some entry else none
  | cipher => if isCipher contents then some { entry with hasCipher := true } else none
  | largeSizes => do
    let (size, next) ← largeNumber? contents entry.size 0
    let (compressedSize, next) ← largeNumber? contents entry.compressedSize next
    let (offset, _) ← largeNumber? contents entry.offset next
    return { entry with size, compressedSize, offset }
  | alignment | other => some entry

end ExtraField

/-- The entry after its extra fields from an offset on. At the end there may be a part of the number and
the size of a field, unless the field is known. -/
def DirectoryEntry.withExtraFields? (entry : DirectoryEntry) (extra : ByteArray) (offset : Nat) :
    Option DirectoryEntry :=
  if offset + 4 ≤ extra.size then do
    let number ← littleEndian? extra 2 offset
    let size ← littleEndian? extra 2 (offset + 2)
    let contents ← slice? extra (offset + 4) size
    let next ← (ExtraField.ofNumber number).amend? contents entry
    next.withExtraFields? extra (offset + 4 + size)
  else
    let field := (littleEndian? extra 2 offset).map ExtraField.ofNumber
    if field.getD .other = .other then some entry else none
termination_by extra.size - offset
decreasing_by omega

end WordTex
