import WordTex.Archive
import WordTex.DocumentReading

/-! # Archives that hold a document -/
namespace WordTex

structure WordPackage where
  archive : Archive
  hasDocument : archive.hasPart documentPart = true

namespace WordPackage

def ofArchive (archive : Archive) : Except ReadError WordPackage :=
  if h : archive.hasPart documentPart = true then .ok ⟨archive, h⟩
  else .error (.missingPart documentPart)

def ofBytes (bytes : ByteArray) : Except ReadError WordPackage := do
  ofArchive (← (Archive.ofBytes bytes).mapError .package)

/-- The package in the file at a path, given the contents of the file if there is one. -/
def ofFile (path : String) (contents : Option ByteArray) : Except ReadError WordPackage := do
  ofArchive (← (Archive.ofFile path contents).mapError .package)

def source (p : WordPackage) : PartSource := p.archive.source

def document (p : WordPackage) : DocumentReading Document := .ofSource p.source

def parts (p : WordPackage) : DocumentReading DocumentParts := .readParts p.source

end WordPackage

/-- Reads the document of a package that may have failed to open. -/
def DocumentReading.ofPackage (package : Except ReadError WordPackage) : DocumentReading Document :=
  match package with
  | .ok p => p.document
  | .error e => throw e

end WordTex
