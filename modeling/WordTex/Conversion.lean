import WordTex.WordPackage
import WordTex.LatexDocument

/-! # Conversion of packages to LaTeX -/
namespace WordTex

/-- The causes of a failed conversion in the terms of its user. -/
inductive ConversionError where
  | data (fault : DataFault)
  | archive (fault : ArchiveFault)
  | parse (message : String)
  | componentNotFound (name : String)
  | xml (message : String)
  | other (message : String)
deriving DecidableEq, Repr

namespace ConversionError

def message : ConversionError → String
  | data fault => "IO error: " ++ fault.message
  | archive fault => "ZIP error: " ++ fault.message
  | parse message => "Parse error: " ++ message
  | componentNotFound name => "Component not found: " ++ name
  | xml message => "XML error: " ++ message
  | other message => message

def ofPackageError (e : PackageError) : ConversionError :=
  match e with
  | .data fault => .data fault
  | .archive fault => .archive fault
  | .packageNotFound name => .componentNotFound name
  | .partNotFound name => .componentNotFound name
  | .notUtf8 _ => .other e.message

def ofXmlError (e : XmlError) : ConversionError := .xml e.message

def ofReadError (e : ReadError) : ConversionError :=
  match e with
  | .package e => ofPackageError e
  | .missingPart part => .componentNotFound part
  | .xml _ _ => .xml e.message
  | .unrecognizedFieldMark _ _ => .parse e.message

end ConversionError

/-- The LaTeX of a document that is read, and what the reader noticed. -/
def convert (reading : DocumentReading Document) : Except ConversionError String × List Notice :=
  let (result, notices) := reading.runLogged
  ((result.map (Document.toLatex {})).mapError .ofReadError, notices)

def latexOfSource (source : PartSource) : Except ConversionError String :=
  (convert (.ofSource source)).1

def latexOfBytes (bytes : ByteArray) : Except ConversionError String :=
  (convert (.ofPackage (WordPackage.ofBytes bytes))).1

/-- The LaTeX of the file at a path, given the contents of the file if there is one. -/
def latexOfFile (path : String) (contents : Option ByteArray) : Except ConversionError String :=
  (convert (.ofPackage (WordPackage.ofFile path contents))).1

end WordTex
