import WordTex.FieldInstruction
import WordTex.Notices

/-! # Fields between their marks

A field begins at a mark, has an instruction, a separator and a result, and ends at another mark.
The instruction may come in several pieces, and the marks may stand in different runs. -/
namespace WordTex

inductive FieldMark where
  | opening
  | separator
  | closing
deriving DecidableEq, Repr

def FieldMark.ofType? : String → Option FieldMark
  | "begin" => some opening
  | "separate" => some separator
  | "end" => some closing
  | _ => none

/-- What has been read of a field that is not closed yet. -/
structure OpenField where
  fragments : List String
  separated : Bool
  children : List Node

namespace OpenField

def start : OpenField := ⟨[], false, []⟩

instance : Inhabited OpenField := ⟨start⟩

/-- Text after the separator is not part of the instruction. -/
def addInstruction (f : OpenField) (text : String) : OpenField :=
  if f.separated then f else { f with fragments := f.fragments ++ [text] }

def instructionNotices (f : OpenField) (text : String) : List Notice :=
  if f.separated then [.lateInstruction text] else []

def separate (f : OpenField) : OpenField := { f with separated := true }

def push (f : OpenField) (n : Node) : OpenField := { f with children := f.children ++ [n] }

def instruction (f : OpenField) : String := String.join f.fragments

/-- The result of a field, whatever its instruction. -/
def result (f : OpenField) : Node := .group .fieldResult (.ofChildren f.children)

/-- A closed field is a cross-reference if its instruction says so, and otherwise its result. -/
def close (f : OpenField) : Node :=
  match FieldInstruction.ofText f.instruction with
  | .reference _ code _ => .reference code f.children
  | _ => f.result

def closeNotices (f : OpenField) : List Notice :=
  match FieldInstruction.ofText f.instruction with
  | .reference .. => []
  | .hyperlink url => [.hyperlinkInstruction url]
  | .listNumber series => [.listInstruction series]
  | .other name => [.otherInstruction name]

/-- The results of nested open fields, the innermost first in the list; each is the last child of
the field around it. -/
def closeAll : List OpenField → List Node
  | [] => []
  | [f] => [f.result]
  | f :: g :: rest => closeAll (g.push f.result :: rest)
termination_by fields => fields.length

end OpenField

end WordTex
