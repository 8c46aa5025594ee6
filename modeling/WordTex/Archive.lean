import WordTex.Bytes
import WordTex.Checksum
import WordTex.Deflate
import WordTex.ExtraFields
import WordTex.TextEncodings
import WordTex.PackageParts

/-! # Archives

The directory of an archive lies behind its members, and a record at the very end tells where. If the
numbers do not fit into this record, a large end record stands before it, and a locator between the two.
Bytes may precede the archive; the directory or the large end record then shows by how much everything is
moved. -/
namespace WordTex

/-- An entry of the directory. The offset is that of the member's own header. -/
structure Member where
  storedName : ByteArray
  name : String
  isEncrypted : Bool
  method : Nat
  checksum : Nat
  compressedSize : Nat
  offset : Nat

/-- A member is stored under a name if the bytes agree. -/
def Member.isStoredAs (m : Member) (storedName : ByteArray) : Bool :=
  m.storedName.data = storedName.data

/-- Members have different stored names. -/
structure Archive where
  bytes : ByteArray
  members : List Member

namespace Archive

/-- The numbers by which the records of an archive are known. -/
def endSignature : Nat := 0x06054b50

def largeEndSignature : Nat := 0x06064b50

def locatorSignature : Nat := 0x07064b50

def directorySignature : Nat := 0x02014b50

def memberSignature : Nat := 0x04034b50

def hasSignature (bytes : ByteArray) (signature offset : Nat) : Bool :=
  littleEndian? bytes 4 offset == some signature

/-- The method of compression that is given for members whose data is in a cipher. -/
def cipherMethod : Nat := 99

/-- The directory entry at an offset, and the offset after it. `start` is where the archive starts. A
flag tells the encoding of the name and the comment. -/
def member? (bytes : ByteArray) (start offset : Nat) : Option (Member × Nat) := do
  guard (hasSignature bytes directorySignature offset)
  let flags ← littleEndian? bytes 2 (offset + 8)
  let method ← littleEndian? bytes 2 (offset + 10)
  let checksum ← littleEndian? bytes 4 (offset + 16)
  let compressedSize ← littleEndian? bytes 4 (offset + 20)
  let size ← littleEndian? bytes 4 (offset + 24)
  let nameSize ← littleEndian? bytes 2 (offset + 28)
  let extraSize ← littleEndian? bytes 2 (offset + 30)
  let commentSize ← littleEndian? bytes 2 (offset + 32)
  let headerOffset ← littleEndian? bytes 4 (offset + 42)
  let storedName ← slice? bytes (offset + 46) nameSize
  let extra ← slice? bytes (offset + 46 + nameSize) extraSize
  let comment ← slice? bytes (offset + 46 + nameSize + extraSize) commentSize
  let decode := if flags >>> 11 % 2 = 1 then textOfUtf8 else textOfCodePage437
  let entry : DirectoryEntry := ⟨storedName, decode storedName, decode comment, flags % 2 == 1, false,
    size, compressedSize, headerOffset⟩
  let entry ← entry.withExtraFields? extra 0
  guard (method = cipherMethod → entry.hasCipher)
  guard (start + entry.offset < 1 <<< 64)
  return (⟨entry.storedName, entry.name, entry.isEncrypted || entry.hasCipher, method, checksum,
    entry.compressedSize, start + entry.offset⟩, offset + 46 + nameSize + extraSize + commentSize)

/-- Of two members with one stored name the later takes the place of the earlier. -/
def addMember (members : List Member) (m : Member) : List Member :=
  if members.any (·.isStoredAs m.storedName) then
    members.map fun other => if other.isStoredAs m.storedName then m else other
  else members ++ [m]

/-- So many directory entries from an offset on, added to the members before them. -/
def members? (bytes : ByteArray) (start : Nat) : Nat → Nat → List Member → Option (List Member)
  | 0, _, members => some members
  | count + 1, offset, members => do
    let (m, next) ← member? bytes start offset
    members? bytes start count next (addMember members m)

/-- Where a directory is: the start of the archive, the offset of the first entry, and the number of
entries. -/
structure DirectoryPlace where
  start : Nat
  first : Nat
  count : Nat

/-- What stands before an end record and tells where the large one is, from the start of the archive. -/
structure EndLocator where
  directoryDisk : Nat
  recordOffset : Nat
  disks : Nat

def endLocator? (bytes : ByteArray) (offset : Nat) : Option EndLocator := do
  guard (hasSignature bytes locatorSignature offset)
  let directoryDisk ← littleEndian? bytes 4 (offset + 4)
  let recordOffset ← littleEndian? bytes 8 (offset + 8)
  let disks ← littleEndian? bytes 4 (offset + 16)
  return ⟨directoryDisk, recordOffset, disks⟩

/-- The end record of a large archive. Its size does not count the signature and the size itself. -/
structure LargeEndRecord where
  size : Nat
  madeBy : Nat
  needed : Nat
  disk : Nat
  directoryDisk : Nat
  countOnDisk : Nat
  count : Nat
  directory : Nat

def largeEndRecord? (bytes : ByteArray) (offset : Nat) : Option LargeEndRecord := do
  guard (hasSignature bytes largeEndSignature offset)
  let size ← littleEndian? bytes 8 (offset + 4)
  let madeBy ← littleEndian? bytes 2 (offset + 12)
  let needed ← littleEndian? bytes 2 (offset + 14)
  let disk ← littleEndian? bytes 4 (offset + 16)
  let directoryDisk ← littleEndian? bytes 4 (offset + 20)
  let countOnDisk ← littleEndian? bytes 8 (offset + 24)
  let count ← littleEndian? bytes 8 (offset + 32)
  let directory ← littleEndian? bytes 8 (offset + 48)
  return ⟨size, madeBy, needed, disk, directoryDisk, countOnDisk, count, directory⟩

/-- The record reaches from one offset to the locator at the other, it agrees with the locator, and before
it there is room for the entries of the directory. -/
def LargeEndRecord.fits (r : LargeEndRecord) (locator : EndLocator) (offset locatorOffset : Nat) : Bool :=
  44 ≤ r.size && offset + 12 + r.size = locatorOffset && r.directoryDisk = locator.directoryDisk &&
    r.directory + 46 * r.count ≤ offset

/-- The directory by the first large end record that fits to a locator. -/
def largeDirectory? (bytes : ByteArray) (locator : EndLocator) (locatorOffset : Nat) :
    Option DirectoryPlace := do
  guard (locator.recordOffset < locatorOffset ∧ locator.disks ≤ 1)
  let isRecord (k : Nat) := (largeEndRecord? bytes k).any (·.fits locator k locatorOffset)
  let found ← searchUp? isRecord (locatorOffset - 3 - locator.recordOffset) locator.recordOffset
  let r ← largeEndRecord? bytes found
  guard (r.countOnDisk ≤ r.count ∧ r.needed ≤ r.madeBy ∧ r.disk = r.directoryDisk)
  let start := found - locator.recordOffset
  return ⟨start, r.directory + start, r.count⟩

/-- The directory by the end record at an offset. Numbers that do not fit into the record call for a
locator, but there need not be one. -/
def directory? (bytes : ByteArray) (offset : Nat) : Option DirectoryPlace := do
  guard (hasSignature bytes endSignature offset)
  let disk ← littleEndian? bytes 2 (offset + 4)
  let directoryDisk ← littleEndian? bytes 2 (offset + 6)
  let count ← littleEndian? bytes 2 (offset + 8)
  let total ← littleEndian? bytes 2 (offset + 10)
  let directory ← littleEndian? bytes 4 (offset + 16)
  let commentSize ← littleEndian? bytes 2 (offset + 20)
  guard (offset + 22 + commentSize ≤ bytes.size)
  let isLarge := (total = 0xffff ∨ directory = 0xffffffff) ∧ 20 ≤ offset
  match if isLarge then endLocator? bytes (offset - 20) else none with
  | some locator => largeDirectory? bytes locator (offset - 20)
  | none =>
    guard (disk = directoryDisk)
    if total = 0 then
      let start := offset - directory
      return ⟨start, directory + start, count⟩
    else
      let found ← searchUp? (hasSignature bytes directorySignature) (offset - 3 - directory) directory
      return ⟨found - directory, found, count⟩

/-- The archive whose end record is at this offset. -/
def ofEndRecord? (bytes : ByteArray) (offset : Nat) : Option Archive := do
  let place ← directory? bytes offset
  return ⟨bytes, ← members? bytes place.start place.count place.first []⟩

/-- The last end record that makes sense counts. -/
def ofBytes (bytes : ByteArray) : Except PackageError Archive :=
  match searchDown (ofEndRecord? bytes) bytes.size with
  | some archive => .ok archive
  | none => .error (.archive .noDirectory)

def memberNames (a : Archive) : List String := a.members.map Member.name

def hasPart (a : Archive) (path : String) : Bool := a.members.any (·.name == partName path)

/-- The compressed data of a member, which lies behind the member's header. -/
def compressedData (a : Archive) (m : Member) : Except PackageError ByteArray :=
  let sizes? := do
    guard (hasSignature a.bytes memberSignature m.offset)
    let nameSize ← littleEndian? a.bytes 2 (m.offset + 26)
    let extraSize ← littleEndian? a.bytes 2 (m.offset + 28)
    return nameSize + extraSize
  match sizes? with
  | none => .error (.archive .damagedMember)
  | some size =>
    let data := m.offset + 30 + size
    -- the size in the directory may reach beyond the end
    .ok (a.bytes.extract data (min (data + m.compressedSize) a.bytes.size))

/-- The data of a member is stored as it is or deflated. -/
def decompress (m : Member) (data : ByteArray) : Except PackageError ByteArray :=
  if m.method = 0 then .ok data
  else if m.method = 8 then (inflate data).mapError .data
  else .error (.archive .unknownCompression)

def readMember (a : Archive) (m : Member) : Except PackageError ByteArray := do
  if m.isEncrypted then throw (.archive .encrypted)
  let data ← decompress m (← a.compressedData m)
  if (crc32 data).toNat = m.checksum then return data else throw (.data .wrongChecksum)

/-- The bytes of the member that is stored under the name of a part. -/
def readBytes (a : Archive) (path : String) : Except PackageError ByteArray :=
  match a.members.find? (·.isStoredAs (partName path).toUTF8) with
  | some m => a.readMember m
  | none => .error (.partNotFound (partName path))

def readText (a : Archive) (path : String) : Except PackageError String := do
  textOfPart path (← a.readBytes path)

def source (a : Archive) : PartSource := ⟨a.hasPart, a.readText⟩

/-- The archive in the file at a path, given the contents of the file if there is one. -/
def ofFile (path : String) (contents : Option ByteArray) : Except PackageError Archive :=
  if path.toList.contains '\x00' then .error (.data .pathWithNull)
  else
    match contents with
    | some bytes => ofBytes bytes
    | none => .error (.packageNotFound path)

end Archive

end WordTex
