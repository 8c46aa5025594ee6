import WordTex.LatexDocument
import WordTex.Proofs.DocumentWalks

/-! # The LaTeX of nodes in terms of the LaTeX of their children -/
namespace WordTex

/-- What a node contributes to the list it stands in. -/
def Node.sibling (options : LatexOptions) (n : Node) : Sibling :=
  match n.runText? with
  | some t => .run t
  | none => if n.isBlock then .block (n.tex options) else .inline (n.tex options)

theorem siblings_eq_map (options : LatexOptions) (ns : List Node) :
    siblings options ns = ns.map (Node.sibling options) := by
  induction ns with
  | nil => rfl
  | cons n ns ih =>
    rw [siblings, ih]
    rfl

namespace Node

variable (options : LatexOptions)

theorem tex_text (t : StyledText) :
    (text t).tex options = if t.isLineBreak then t.data.toList else texOfTexts options [t] := by
  rw [tex]

theorem tex_group (r : Role) (c : Container) : (group r c).tex options =
    roleTex r (nodesTex options c.children) (labelsTex options c.labels) := by
  rcases c with ⟨cs, ls⟩
  rw [tex]
  rfl

theorem tex_note (k : NoteKind) (e : Option String) (c : Container) : (note k e c).tex options =
    commandTex k.toText (trimLeft (nodesTex options c.children ++ labelsTex options c.labels)) := by
  rcases c with ⟨cs, ls⟩
  rw [tex]
  rfl

theorem tex_reference (code : String) (cs : List Node) :
    (reference code cs).tex options = commandTex options.referenceCommand (labelKey code).toList := by
  rw [tex]

theorem tex_named (name : String) (c : Container) : (named name c).tex options =
    commandTex name (nodesTex options c.children) ++ labelsTex options c.labels := by
  rcases c with ⟨cs, ls⟩
  rw [tex]
  rfl

theorem tex_unresolved (k : NoteKind) (id : String) :
    (unresolved k id).tex options = missingNoteTex k id := by
  rw [tex]

theorem tex_document (d : Document) : (document d).tex options = d.tex options := by
  rcases d with ⟨cs, ls, m, f, e, r⟩
  rw [tex]
  rfl

end Node

/-- The notice is a command around its words. -/
theorem missingNoteTex_eq (k : NoteKind) (id : String) : missingNoteTex k id = commandTex "textbf"
    ("[missing ".toList ++ k.toText.toList ++ [' '] ++ (labelKey id).toList ++ [']']) := by
  delta missingNoteTex
  simp [commandTex]

theorem SiblingGroup.mem_of_single_mem_ofList {α : Type} {text? : α → Option StyledText} {x : α}
    {xs : List α} (h : .single x ∈ ofList text? xs) : x ∈ xs := by
  fun_induction ofList text? xs with
  | case1 => simp at h
  | case2 y ys _ ih =>
    simp only [List.mem_cons, single.injEq] at h
    rcases h with rfl | h
    · exact List.mem_cons_self
    · exact List.mem_cons_of_mem y (ih h)
  | case3 y ys t ts groups hgroups _ ih =>
    rw [hgroups] at ih
    simp only [List.mem_cons, reduceCtorEq, false_or] at h
    exact List.mem_cons_of_mem y (ih (List.mem_cons_of_mem _ h))
  | case4 y ys t _ _ ih =>
    simp only [List.mem_cons, reduceCtorEq, false_or] at h
    exact List.mem_cons_of_mem y (ih h)

end WordTex
