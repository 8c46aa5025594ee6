import WordTex.Dictionary
import WordTex.ReadErrors

/-! # Packages as collections of named parts -/
namespace WordTex

/-- The name of the part at a path; leading slashes do not count. -/
def partName (path : String) : String := .ofList (path.toList.dropWhile (· = '/'))

def documentPart : String := "word/document.xml"

def footnotesPart : String := "word/footnotes.xml"

def endnotesPart : String := "word/endnotes.xml"

def corePropertiesPart : String := "docProps/core.xml"

def relationshipsPart : String := "word/_rels/document.xml.rels"

/-- The text of a part from its bytes. -/
def textOfPart (path : String) (bytes : ByteArray) : Except PackageError String :=
  match String.fromUTF8? bytes with
  | some text => .ok text
  | none => .error (.notUtf8 (partName path))

/-- What the reader of a document needs of a package. -/
structure PartSource where
  hasPart : String → Bool
  readText : String → Except PackageError String

/-- The text of a part, if the package has it. -/
def PartSource.readOptionalText (source : PartSource) (path : String) :
    Except PackageError (Option String) :=
  if source.hasPart path then (source.readText path).map some else .ok none

/-- A package that is kept in memory. -/
structure MemoryPackage where
  parts : Dictionary ByteArray

namespace MemoryPackage

def empty : MemoryPackage := ⟨[]⟩

instance : Inhabited MemoryPackage := ⟨empty⟩

def insert (p : MemoryPackage) (path : String) (bytes : ByteArray) : MemoryPackage :=
  ⟨Dictionary.insert (partName path) bytes p.parts⟩

/-- The names of the parts in order. -/
def partNames (p : MemoryPackage) : List String := Dictionary.keys p.parts

def size (p : MemoryPackage) : Nat := p.parts.length

def hasPart (p : MemoryPackage) (path : String) : Bool :=
  (Dictionary.get? (partName path) p.parts).isSome

def readText (p : MemoryPackage) (path : String) : Except PackageError String :=
  match Dictionary.get? (partName path) p.parts with
  | some bytes => textOfPart path bytes
  | none => .error (.partNotFound (partName path))

def source (p : MemoryPackage) : PartSource := ⟨p.hasPart, p.readText⟩

end MemoryPackage

end WordTex
