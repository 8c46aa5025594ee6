import WordTex.Notices
import WordTex.XmlReading

/-! # Why a package or a document cannot be read -/
namespace WordTex

/-- What is wrong with an archive, or with the place of a member in it. -/
inductive ArchiveFault where
  | noDirectory
  | damagedDirectory
  | damagedMember
  | unknownCompression
  | encrypted
deriving DecidableEq, Repr

def ArchiveFault.message : ArchiveFault → String
  | noDirectory => "no central directory"
  | damagedDirectory => "damaged central directory"
  | damagedMember => "damaged member header"
  | unknownCompression => "unknown compression method"
  | encrypted => "encrypted member"

/-- What goes wrong while bytes are read. -/
inductive DataFault where
  | pathWithNull
  | truncated
  | damagedCompression
  | wrongChecksum
deriving DecidableEq, Repr

def DataFault.message : DataFault → String
  | pathWithNull => "file name with a null character"
  | truncated => "unexpected end of data"
  | damagedCompression => "damaged compressed data"
  | wrongChecksum => "wrong checksum"

inductive PackageError where
  | packageNotFound (path : String)
  | partNotFound (part : String)
  | notUtf8 (part : String)
  | archive (fault : ArchiveFault)
  | data (fault : DataFault)
deriving DecidableEq, Repr

def PackageError.message : PackageError → String
  | packageNotFound path => "Package not found: " ++ path
  | partNotFound part => "Part not found: " ++ part
  | notUtf8 part => "Part " ++ part ++ " is not valid UTF-8"
  | archive fault => "ZIP error: " ++ fault.message
  | data fault => "IO error: " ++ fault.message

inductive ReadError where
  | package (error : PackageError)
  | missingPart (part : String)
  | xml (part : String) (error : XmlError)
  | unrecognizedFieldMark (type : String) (place : Place)
deriving DecidableEq, Repr

def ReadError.message : ReadError → String
  | package error => "OPC error: " ++ error.message
  | missingPart part => "Missing required part: " ++ part
  | xml part error => "XML error in " ++ part ++ ": " ++ error.message
  | unrecognizedFieldMark type place =>
    "Unrecognized fldCharType " ++ quoted type ++ " in " ++ place.part ++ " at " ++ place.path

end WordTex
