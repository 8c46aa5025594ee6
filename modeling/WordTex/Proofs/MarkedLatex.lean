import WordTex.Proofs.SiblingJoins
import WordTex.Proofs.WrittenNodes
import Mathlib.Data.List.Basic

/-! # LaTeX with its labels marked

The rendering of a tree in which each label that is written for a bookmark is one symbol. Spelled out
it is the LaTeX of the tree, so it tells the labels from text and commands that only look like one. -/
namespace WordTex

/-- A character that is written, or a label as a whole. -/
inductive TexSymbol where
  | char (c : Char)
  | label (key : String)

namespace TexSymbol

def tex : TexSymbol → List Char
  | char c => [c]
  | label key => commandTex "label" key.toList

def key? : TexSymbol → Option String
  | char _ => none
  | label key => some key

def isBlank : TexSymbol → Bool
  | char c => WordTex.isBlank c
  | label _ => false

end TexSymbol

/-- The text that symbols spell. -/
def texOfSymbols (symbols : List TexSymbol) : List Char := symbols.flatMap TexSymbol.tex

/-- The keys of the labels among symbols. -/
def keysOfSymbols (symbols : List TexSymbol) : List String := symbols.filterMap TexSymbol.key?

section

variable (options : LatexOptions)

/-- Text that is no label. -/
def charSymbols (tex : List Char) : List TexSymbol := tex.map .char

def labelSymbols (labels : List String) : List TexSymbol :=
  if options.includeLabels then labels.map fun l => .label (labelKey l) else []

def commandSymbols (name : String) (body : List TexSymbol) : List TexSymbol :=
  charSymbols ('\\' :: name.toList ++ ['\x7b']) ++ body ++ charSymbols ['\x7d']

def roleSymbols (role : Role) (body labels : List TexSymbol) : List TexSymbol :=
  match role with
  | .plain | .fieldResult => body ++ labels
  | .heading1 => commandSymbols "section" body ++ labels
  | .heading2 => commandSymbols "subsection" body ++ labels
  | .heading3 => commandSymbols "subsubsection" body ++ labels
  | .numberedExample =>
    charSymbols "\\begin\x7bexe\x7d\n  \\ex ".toList ++ body ++ labels ++
      charSymbols "\n\\end\x7bexe\x7d".toList

/-- A group of nodes, each with its symbols. -/
def groupSymbols : SiblingGroup (Node × List TexSymbol) → List TexSymbol
  | .texts ts => charSymbols (texOfTexts options ts)
  | .single x => x.2

def siblingSymbols (nodes : List (Node × List TexSymbol)) : List TexSymbol :=
  joinWith (groupSymbols options)
    (fun g h => charSymbols (nodeSeparator (g.map Prod.fst) (h.map Prod.fst)))
    (SiblingGroup.ofList (fun x => x.1.runText?) nodes)

mutual

def Node.symbols : Node → List TexSymbol
  | .text t => charSymbols ((Node.text t).tex options)
  | .group role ⟨children, labels⟩ =>
    roleSymbols role (siblingSymbols options (symbolsAll children)) (labelSymbols options labels)
  | .note kind _ ⟨children, labels⟩ =>
    commandSymbols kind.toText
      ((siblingSymbols options (symbolsAll children) ++ labelSymbols options labels).dropWhile
        TexSymbol.isBlank)
  | .reference code _ =>
    charSymbols (commandTex options.referenceCommand (labelKey code).toList)
  | .named name ⟨children, labels⟩ =>
    commandSymbols name (siblingSymbols options (symbolsAll children)) ++ labelSymbols options labels
  | .unresolved kind id => charSymbols (missingNoteTex kind id)
  | .document ⟨children, labels, _, _, _, _⟩ =>
    siblingSymbols options (symbolsAll children) ++ labelSymbols options labels

def symbolsAll : List Node → List (Node × List TexSymbol)
  | [] => []
  | n :: ns => (n, n.symbols) :: symbolsAll ns

end

/-- The rendering of a document with its labels marked. -/
def Document.symbols (d : Document) : List TexSymbol :=
  siblingSymbols options (symbolsAll options d.children) ++ labelSymbols options d.labels

end

section

variable (options : LatexOptions)

theorem texOfSymbols_append (a b : List TexSymbol) :
    texOfSymbols (a ++ b) = texOfSymbols a ++ texOfSymbols b :=
  List.flatMap_append

theorem texOfSymbols_charSymbols (tex : List Char) : texOfSymbols (charSymbols tex) = tex := by
  induction tex with
  | nil => rfl
  | cons c tex ih => simpa [texOfSymbols, charSymbols, TexSymbol.tex] using ih

theorem texOfSymbols_labelSymbols (labels : List String) :
    texOfSymbols (labelSymbols options labels) = labelsTex options labels := by
  rw [labelSymbols, labelsTex]
  split
  · rw [texOfSymbols, List.flatMap_map]
    rfl
  · rfl

theorem texOfSymbols_commandSymbols (name : String) (body : List TexSymbol) :
    texOfSymbols (commandSymbols name body) = commandTex name (texOfSymbols body) := by
  rw [commandSymbols, texOfSymbols_append, texOfSymbols_append, texOfSymbols_charSymbols,
    texOfSymbols_charSymbols, commandTex]
  simp

theorem texOfSymbols_roleSymbols (role : Role) (body labels : List TexSymbol) :
    texOfSymbols (roleSymbols role body labels) =
      roleTex role (texOfSymbols body) (texOfSymbols labels) := by
  unfold roleSymbols roleTex
  cases role with
  | plain | fieldResult =>
    dsimp only
    rw [texOfSymbols_append]
  | heading1 | heading2 | heading3 =>
    dsimp only
    rw [texOfSymbols_append, texOfSymbols_commandSymbols]
  | numberedExample =>
    dsimp only
    rw [texOfSymbols_append, texOfSymbols_append, texOfSymbols_append, texOfSymbols_charSymbols,
      texOfSymbols_charSymbols]

/-- A label is no white space. -/
theorem texOfSymbols_dropWhile (symbols : List TexSymbol) :
    texOfSymbols (symbols.dropWhile TexSymbol.isBlank) = trimLeft (texOfSymbols symbols) := by
  induction symbols with
  | nil => rfl
  | cons s symbols ih =>
    cases s with
    | label key => rfl
    | char c =>
      have hcons : texOfSymbols (.char c :: symbols) = c :: texOfSymbols symbols := rfl
      rw [hcons, trimLeft, List.dropWhile_cons, List.dropWhile_cons]
      split <;> rename_i hc
      · have hc' : WordTex.isBlank c = true := hc
        rw [if_pos hc', ih, trimLeft]
      · have hc' : ¬WordTex.isBlank c = true := hc
        rw [if_neg hc', hcons]

theorem symbolsAll_eq_map (ns : List Node) :
    symbolsAll options ns = ns.map fun n => (n, n.symbols options) := by
  induction ns with
  | nil => rfl
  | cons n ns ih => rw [symbolsAll, ih, List.map_cons]

/-- The symbols of a list of nodes, group by group. -/
theorem siblingSymbols_symbolsAll (ns : List Node) :
    siblingSymbols options (symbolsAll options ns) =
      joinWith (fun g => groupSymbols options (g.map fun n => (n, n.symbols options)))
        (fun g h => charSymbols (nodeSeparator g h)) (groupNodes ns) := by
  rw [siblingSymbols, symbolsAll_eq_map, SiblingGroup.ofList_map, joinWith_map]
  congr 1
  funext g h
  cases g <;> cases h <;> rfl

theorem texOfSymbols_siblingSymbols {ns : List Node}
    (h : ∀ n ∈ ns, texOfSymbols (n.symbols options) = n.tex options) :
    texOfSymbols (siblingSymbols options (symbolsAll options ns)) = nodesTex options ns := by
  rw [siblingSymbols_symbolsAll, nodesTex_eq_joinWith,
    map_joinWith _ _ (f := texOfSymbols) rfl texOfSymbols_append]
  have hgroup : ∀ g ∈ groupNodes ns,
      texOfSymbols (groupSymbols options (g.map fun n => (n, n.symbols options))) =
        nodeGroupTex options g := by
    intro g hg
    cases g with
    | texts ts => exact texOfSymbols_charSymbols _
    | single n => exact h n (SiblingGroup.mem_of_single_mem_ofList hg)
  simp only [texOfSymbols_charSymbols]
  exact joinWith_congr _ _ hgroup

theorem texOfSymbols_symbols (n : Node) : texOfSymbols (n.symbols options) = n.tex options := by
  induction n using Node.induction with
  | text t => rw [Node.symbols, texOfSymbols_charSymbols]
  | group r c ih =>
    obtain ⟨cs, ls⟩ := c
    rw [Node.symbols, texOfSymbols_roleSymbols, texOfSymbols_siblingSymbols options ih,
      texOfSymbols_labelSymbols, Node.tex_group]
  | note k e c ih =>
    obtain ⟨cs, ls⟩ := c
    rw [Node.symbols, texOfSymbols_commandSymbols, texOfSymbols_dropWhile, texOfSymbols_append,
      texOfSymbols_siblingSymbols options ih, texOfSymbols_labelSymbols, Node.tex_note]
  | reference code cs _ => rw [Node.symbols, texOfSymbols_charSymbols, Node.tex_reference]
  | named name c ih =>
    obtain ⟨cs, ls⟩ := c
    rw [Node.symbols, texOfSymbols_append, texOfSymbols_commandSymbols,
      texOfSymbols_siblingSymbols options ih, texOfSymbols_labelSymbols, Node.tex_named]
  | unresolved k id => rw [Node.symbols, texOfSymbols_charSymbols, Node.tex_unresolved]
  | document d ih =>
    obtain ⟨cs, ls, m, f, e, r⟩ := d
    rw [Node.symbols, texOfSymbols_append, texOfSymbols_siblingSymbols options ih,
      texOfSymbols_labelSymbols, Node.tex_document, Document.tex]

theorem Document.texOfSymbols_symbols (d : Document) :
    texOfSymbols (d.symbols options) = d.tex options := by
  rw [symbols, texOfSymbols_append,
    texOfSymbols_siblingSymbols options fun n _ => WordTex.texOfSymbols_symbols options n,
    texOfSymbols_labelSymbols, tex]

end

section

variable (options : LatexOptions)

/-- The keys of labels, if labels are wanted. -/
def writtenKeys (labels : List String) : List String :=
  if options.includeLabels then labels.map labelKey else []

theorem writtenKeys_append (ls ls' : List String) :
    writtenKeys options (ls ++ ls') = writtenKeys options ls ++ writtenKeys options ls' := by
  simp only [writtenKeys, List.map_append]
  split <;> rfl

theorem writtenKeys_flatMap {α : Type} (f : α → List String) (xs : List α) :
    writtenKeys options (xs.flatMap f) = xs.flatMap fun x => writtenKeys options (f x) := by
  induction xs with
  | nil => simp [writtenKeys]
  | cons x xs ih => rw [List.flatMap_cons, writtenKeys_append, ih, List.flatMap_cons]

theorem keysOfSymbols_append (a b : List TexSymbol) :
    keysOfSymbols (a ++ b) = keysOfSymbols a ++ keysOfSymbols b :=
  List.filterMap_append

theorem keysOfSymbols_charSymbols (tex : List Char) : keysOfSymbols (charSymbols tex) = [] := by
  rw [keysOfSymbols, charSymbols, List.filterMap_map]
  exact List.filterMap_eq_nil_iff.mpr fun c _ => rfl

theorem keysOfSymbols_labelSymbols (labels : List String) :
    keysOfSymbols (labelSymbols options labels) = writtenKeys options labels := by
  rw [labelSymbols, writtenKeys]
  split
  · rw [keysOfSymbols, List.filterMap_map, ← List.filterMap_eq_map]
    rfl
  · rfl

theorem keysOfSymbols_commandSymbols (name : String) (body : List TexSymbol) :
    keysOfSymbols (commandSymbols name body) = keysOfSymbols body := by
  rw [commandSymbols, keysOfSymbols_append, keysOfSymbols_append, keysOfSymbols_charSymbols,
    keysOfSymbols_charSymbols, List.nil_append, List.append_nil]

theorem keysOfSymbols_roleSymbols (role : Role) (body labels : List TexSymbol) :
    keysOfSymbols (roleSymbols role body labels) = keysOfSymbols body ++ keysOfSymbols labels := by
  unfold roleSymbols
  cases role with
  | plain | fieldResult =>
    dsimp only
    rw [keysOfSymbols_append]
  | heading1 | heading2 | heading3 =>
    dsimp only
    rw [keysOfSymbols_append, keysOfSymbols_commandSymbols]
  | numberedExample =>
    dsimp only
    rw [keysOfSymbols_append, keysOfSymbols_append, keysOfSymbols_append, keysOfSymbols_charSymbols,
      keysOfSymbols_charSymbols, List.nil_append, List.append_nil]

theorem keysOfSymbols_dropWhile (symbols : List TexSymbol) :
    keysOfSymbols (symbols.dropWhile TexSymbol.isBlank) = keysOfSymbols symbols := by
  induction symbols with
  | nil => rfl
  | cons s symbols ih =>
    cases s with
    | label key => rfl
    | char c =>
      rw [List.dropWhile_cons]
      split
      · exact ih
      · rfl

/-- The keys of the labels that a node is written with. -/
def Node.writtenKeys (n : Node) : List String :=
  WordTex.writtenKeys options (n.written.flatMap Node.labels)

theorem Node.writtenKeys_of_run {n : Node} (h : n.runText? ≠ none) : n.writtenKeys options = [] := by
  cases n with
  | text t => simp [writtenKeys, WordTex.writtenKeys, written_text, labels]
  | _ => simp [runText?] at h

theorem keysOfSymbols_siblingSymbols {ns : List Node}
    (h : ∀ n ∈ ns, keysOfSymbols (n.symbols options) = n.writtenKeys options) :
    keysOfSymbols (siblingSymbols options (symbolsAll options ns)) =
      ns.flatMap (Node.writtenKeys options) := by
  rw [siblingSymbols_symbolsAll, map_joinWith _ _ (f := keysOfSymbols) rfl keysOfSymbols_append,
    joinWith_eq_flatMap _ _ fun _ _ _ _ => keysOfSymbols_charSymbols _,
    ← SiblingGroup.flatMap_ofList fun n _ => Node.writtenKeys_of_run options]
  refine List.flatMap_congr fun g hg => ?_
  cases g with
  | texts ts => exact keysOfSymbols_charSymbols _
  | single n => exact h n (SiblingGroup.mem_of_single_mem_ofList hg)

/-- A node with content is written with the labels of what is in it and then its own. -/
theorem Node.writtenKeys_of_written {n : Node} {cs : List Node}
    (h : n.written = writtenAll cs ++ [n]) :
    n.writtenKeys options =
      cs.flatMap (Node.writtenKeys options) ++ WordTex.writtenKeys options n.labels := by
  rw [writtenKeys, h, List.flatMap_append, writtenKeys_append, List.flatMap_singleton,
    writtenAll_eq_flatMap, List.flatMap_assoc, writtenKeys_flatMap]
  rfl

theorem Node.keysOfSymbols_symbols (n : Node) :
    keysOfSymbols (n.symbols options) = n.writtenKeys options := by
  induction n using Node.induction with
  | text t =>
    rw [Node.symbols, keysOfSymbols_charSymbols, writtenKeys, written_text]
    simp [WordTex.writtenKeys, labels]
  | group r c ih =>
    rw [writtenKeys_of_written options (written_group r c)]
    obtain ⟨cs, ls⟩ := c
    rw [Node.symbols, keysOfSymbols_roleSymbols, keysOfSymbols_siblingSymbols options ih,
      keysOfSymbols_labelSymbols]
    rfl
  | note k e c ih =>
    rw [writtenKeys_of_written options (written_note k e c)]
    obtain ⟨cs, ls⟩ := c
    rw [Node.symbols, keysOfSymbols_commandSymbols, keysOfSymbols_dropWhile, keysOfSymbols_append,
      keysOfSymbols_siblingSymbols options ih, keysOfSymbols_labelSymbols]
    rfl
  | reference code cs _ =>
    rw [Node.symbols, keysOfSymbols_charSymbols, writtenKeys, written_reference]
    simp [WordTex.writtenKeys, labels]
  | named name c ih =>
    rw [writtenKeys_of_written options (written_named name c)]
    obtain ⟨cs, ls⟩ := c
    rw [Node.symbols, keysOfSymbols_append, keysOfSymbols_commandSymbols,
      keysOfSymbols_siblingSymbols options ih, keysOfSymbols_labelSymbols]
    rfl
  | unresolved k id =>
    rw [Node.symbols, keysOfSymbols_charSymbols, writtenKeys, written_unresolved]
    simp [WordTex.writtenKeys, labels]
  | document d ih =>
    rw [writtenKeys_of_written options (written_document d)]
    obtain ⟨cs, ls, m, f, e, r⟩ := d
    rw [Node.symbols, keysOfSymbols_append, keysOfSymbols_siblingSymbols options ih,
      keysOfSymbols_labelSymbols]
    rfl

/-- The labels of a rendering, in order, are those of the nodes that are written and of the document
itself. -/
theorem Document.keysOfSymbols_symbols (d : Document) :
    keysOfSymbols (d.symbols options) =
      writtenKeys options (d.written.flatMap Node.labels ++ d.labels) := by
  rw [symbols, keysOfSymbols_append,
    keysOfSymbols_siblingSymbols options fun n _ => n.keysOfSymbols_symbols options,
    keysOfSymbols_labelSymbols, writtenKeys_append, written, writtenAll_eq_flatMap,
    List.flatMap_assoc, writtenKeys_flatMap]
  rfl

end

end WordTex
