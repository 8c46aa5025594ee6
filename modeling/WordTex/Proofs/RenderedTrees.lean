import WordTex.Proofs.SiblingJoins
import WordTex.Proofs.WrittenNodes

/-! # What the LaTeX of trees is made of

A rendering puts texts together, encloses them in commands and adds few characters of its own. A
relation between texts and lists that respects these steps relates the LaTeX of a tree to what is
contributed by the labels and cross-references that are written. -/
namespace WordTex

/-- The characters that a rendering adds outside of commands. -/
def isAddedChar (c : Char) : Bool := isKeyChar c || c == '\n' || c == ' ' || c == '[' || c == ']'

/-- The commands of paragraphs and notes and of the notice for a missing note. -/
def treeCommands : List String :=
  ["section", "subsection", "subsubsection", "footnote", "endnote", "textbf"]

variable {κ : Type}

/-- What the labels of a node contribute, or the code of a cross-reference. -/
def Node.contribution (ofLabels : List String → List κ) (ofReference : String → List κ) :
    Node → List κ
  | .reference code _ => ofReference code
  | n => ofLabels n.labels

/-- The relation respects the steps by which trees are written. -/
structure TexRelation (options : LatexOptions) (K : List Char → List κ → Prop)
    (ofLabels : List String → List κ) (ofReference : String → List κ) : Prop where
  nil : K [] []
  append : ∀ {a b ks ls}, K a ks → K b ls → K (a ++ b) (ks ++ ls)
  trimLeft : ∀ {a ks}, K a ks → K (trimLeft a) ks
  added : ∀ {a : List Char}, (∀ c ∈ a, isAddedChar c = true) → K a []
  texts : ∀ ts, K (texOfTexts options ts) []
  command : ∀ {name a ks}, name ∈ treeCommands → K a ks → K (commandTex name a) ks
  numbered : ∀ {a ks}, K a ks →
    K ("\\begin\x7bexe\x7d\n  \\ex ".toList ++ a ++ "\n\\end\x7bexe\x7d".toList) ks
  no_labels : ofLabels [] = []
  labels : ∀ ls, K (labelsTex options ls) (ofLabels ls)
  reference : ∀ code,
    K (commandTex options.referenceCommand (labelKey code).toList) (ofReference code)

namespace TexRelation

variable {options : LatexOptions} {K : List Char → List κ → Prop} {ofLabels : List String → List κ}
  {ofReference : String → List κ}

theorem contribution_text (h : TexRelation options K ofLabels ofReference) (t : StyledText) :
    (Node.text t).contribution ofLabels ofReference = [] := h.no_labels

theorem contribution_unresolved (h : TexRelation options K ofLabels ofReference) (kind : NoteKind)
    (id : String) : (Node.unresolved kind id).contribution ofLabels ofReference = [] := h.no_labels

theorem roleTex (h : TexRelation options K ofLabels ofReference) (role : Role)
    {body labels : List Char} {ks ls : List κ} (hb : K body ks) (hl : K labels ls) :
    K (roleTex role body labels) (ks ++ ls) := by
  cases role with
  | plain => exact h.append hb hl
  | fieldResult => exact h.append hb hl
  | heading1 => exact h.append (h.command (by decide) hb) hl
  | heading2 => exact h.append (h.command (by decide) hb) hl
  | heading3 => exact h.append (h.command (by decide) hb) hl
  | numberedExample =>
    have hwhole := h.numbered (h.append hb hl)
    rw [← List.append_assoc] at hwhole
    exact hwhole

theorem missingNoteTex (h : TexRelation options K ofLabels ofReference) (kind : NoteKind)
    (id : String) : K (missingNoteTex kind id) [] := by
  have hkind : ∀ c ∈ "[missing ".toList ++ kind.toText.toList ++ [' '], isAddedChar c = true := by
    cases kind <;> exact List.all_eq_true.mp (by decide)
  have hkey : ∀ c ∈ (labelKey id).toList, isAddedChar c = true := by
    intro c hc
    rw [labelKey, String.toList_ofList] at hc
    simp [isAddedChar, (List.mem_filter.mp hc).2]
  rw [missingNoteTex_eq]
  refine h.command (by decide) (h.added fun c hc => ?_)
  rcases List.mem_append.mp hc with hc | hc
  · rcases List.mem_append.mp hc with hc | hc
    · exact hkind c hc
    · exact hkey c hc
  · obtain rfl := List.mem_singleton.mp hc
    decide

theorem nodesTex (h : TexRelation options K ofLabels ofReference) {ns : List Node}
    (hns : ∀ n ∈ ns, K (n.tex options) (n.written.flatMap (Node.contribution ofLabels ofReference))) :
    K (nodesTex options ns) ((writtenAll ns).flatMap (Node.contribution ofLabels ofReference)) := by
  have hrun : ∀ n ∈ ns, n.runText? ≠ none →
      n.written.flatMap (Node.contribution ofLabels ofReference) = [] := by
    intro n _ hn
    cases n with
    | text t => rw [Node.written_text, List.flatMap_singleton, h.contribution_text]
    | _ => simp [Node.runText?] at hn
  rw [nodesTex_eq_joinWith, writtenAll_eq_flatMap, List.flatMap_assoc, ← SiblingGroup.flatMap_ofList hrun]
  refine joinWith_induction _ _ h.nil h.append (fun g g' => h.added ?_) fun g hg => ?_
  · rw [nodeSeparator.eq_def]
    split
    · split <;> exact List.all_eq_true.mp (by decide)
    · exact List.all_eq_true.mp (by decide)
  · cases g with
    | texts ts => exact h.texts ts
    | single n => exact hns n (SiblingGroup.mem_of_single_mem_ofList hg)

/-- The LaTeX of a node is related to what is contributed by the nodes that are written for it, if the
relation goes through the commands among them. -/
theorem nodeTex (h : TexRelation options K ofLabels ofReference) (n : Node)
    (hnamed : ∀ name c, .named name c ∈ n.walk → ∀ {a ks}, K a ks → K (commandTex name a) ks) :
    K (n.tex options) (n.written.flatMap (Node.contribution ofLabels ofReference)) := by
  have hchildren : ∀ {n : Node},
      (∀ c ∈ n.children,
        (∀ name b, .named name b ∈ c.walk → ∀ {a ks}, K a ks → K (commandTex name a) ks) →
        K (c.tex options) (c.written.flatMap (Node.contribution ofLabels ofReference))) →
      (∀ name b, .named name b ∈ n.walk → ∀ {a ks}, K a ks → K (commandTex name a) ks) →
      K (WordTex.nodesTex options n.children)
        ((writtenAll n.children).flatMap (Node.contribution ofLabels ofReference)) := by
    intro n ih hn
    exact h.nodesTex fun c hc =>
      ih c hc fun name b hm => hn name b (Node.mem_walk_of_mem_children hc hm)
  induction n using Node.induction with
  | text t =>
    rw [Node.tex_text, Node.written_text, List.flatMap_singleton, h.contribution_text]
    split
    · rename_i hbreak
      have hdata : t.data = "\n" := by simpa [StyledText.isLineBreak] using hbreak
      rw [hdata]
      exact h.added (List.all_eq_true.mp (by decide))
    · exact h.texts [t]
  | group r c ih =>
    rw [Node.tex_group, Node.written_group, List.flatMap_append, List.flatMap_singleton]
    exact h.roleTex r (hchildren (n := .group r c) ih hnamed) (h.labels c.labels)
  | note k e c ih =>
    rw [Node.tex_note, Node.written_note, List.flatMap_append, List.flatMap_singleton]
    refine h.command ?_
      (h.trimLeft (h.append (hchildren (n := .note k e c) ih hnamed) (h.labels c.labels)))
    cases k <;> decide
  | reference code cs _ =>
    rw [Node.tex_reference, Node.written_reference, List.flatMap_singleton]
    exact h.reference code
  | named name c ih =>
    rw [Node.tex_named, Node.written_named, List.flatMap_append, List.flatMap_singleton]
    exact h.append (hnamed name c (Node.mem_walk_self _) (hchildren (n := .named name c) ih hnamed))
      (h.labels c.labels)
  | unresolved k id =>
    rw [Node.tex_unresolved, Node.written_unresolved, List.flatMap_singleton, h.contribution_unresolved]
    exact h.missingNoteTex k id
  | document d ih =>
    rw [Node.tex_document, Node.written_document, List.flatMap_append, List.flatMap_singleton]
    exact h.append (hchildren (n := .document d) ih hnamed) (h.labels d.labels)

end TexRelation

end WordTex
