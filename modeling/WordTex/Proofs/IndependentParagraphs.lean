import WordTex.Proofs.ReadingSuccess
import WordTex.Proofs.SiblingJoins

/-! # Paragraphs do not influence each other

The blocks of a body can be cut into two parts anywhere. Each part is read and written as if it were
alone, whatever fields, styles or roles the paragraphs of the other part leave behind. -/
namespace WordTex

open DocumentReading

theorem Element.hasKnownMarks_append {body first second : Element}
    (h : body.childElements = first.childElements ++ second.childElements) :
    body.HasKnownMarks ↔ first.HasKnownMarks ∧ second.HasKnownMarks := by
  simp only [HasKnownMarks, h, List.forall_mem_append]

theorem bodyNodes_append {body first second : Element} (notes : Notes) (style : Style)
    (h : body.childElements = first.childElements ++ second.childElements) :
    bodyNodes notes style body = bodyNodes notes style first ++ bodyNodes notes style second := by
  simp [bodyNodes, h]

theorem bodyNodes_ne_nil {body : Element} (notes : Notes) (style : Style)
    (h : ∃ p ∈ body.childElements, p.localName = "p") : bodyNodes notes style body ≠ [] := by
  obtain ⟨p, hp, hname⟩ := h
  exact List.ne_nil_of_mem (List.mem_map_of_mem (List.mem_filter.mpr ⟨hp, by simpa using hname⟩))

/-- All nodes of a body are blocks. -/
theorem isBlock_of_mem_bodyNodes {notes : Notes} {style : Style} {body : Element} :
    ∀ n ∈ bodyNodes notes style body, n.isBlock = true := by
  intro n hn
  obtain ⟨p, -, rfl⟩ := List.mem_map.mp hn
  exact isParagraph_foldl_roleAfter (show Role.plain.isParagraph = true from rfl) p.childElements

section

variable {root body : Element} {index : Nat} {parts : DocumentParts} {log : List Notice}

theorem readDocument_error_iff (hbody : body? root = some (body, index)) :
    (∃ e log', (readDocument root parts).run.run log = (.error e, log')) ↔ ¬ body.HasKnownMarks := by
  rw [exists_error_iff (succeedsIff_readDocument root parts) log]
  simp [hbody]

theorem exists_readDocument (parts : DocumentParts) (log : List Notice)
    (hbody : body? root = some (body, index)) (h : body.HasKnownMarks) :
    ∃ d log', (readDocument root parts).run.run log = (.ok d, log') :=
  (succeedsIff_readDocument root parts log).mpr (by simpa [hbody] using h)

theorem children_documentOf (hbody : body? root = some (body, index)) :
    (documentOf root parts).children = bodyNodes parts.notes .empty body := by
  rw [documentOf, hbody]
  rfl

/-- A document that was read has labels in its paragraphs only. -/
theorem tex_documentOf (options : LatexOptions) :
    (documentOf root parts).tex options = nodesTex options (documentOf root parts).children := by
  have hlabels : labelsTex options [] = [] := by rw [labelsTex, List.flatMap_nil, ite_self]
  rw [Document.tex, show (documentOf root parts).labels = [] from rfl, hlabels, List.append_nil]

end

/-- A document whose body has the blocks of two others one after the other can be read if and only if
both can, and then its LaTeX is theirs with a blank line in between. -/
theorem tex_of_appended_bodies {whole first second body body₁ body₂ : Element} {i i₁ i₂ : Nat}
    (hbody : body? whole = some (body, i)) (hbody₁ : body? first = some (body₁, i₁))
    (hbody₂ : body? second = some (body₂, i₂))
    (hblocks : body.childElements = body₁.childElements ++ body₂.childElements)
    (hparagraph₁ : ∃ p ∈ body₁.childElements, p.localName = "p")
    (hparagraph₂ : ∃ p ∈ body₂.childElements, p.localName = "p") (parts : DocumentParts)
    (options : LatexOptions) (log log₁ log₂ : List Notice) :
    ((∃ e log', (readDocument whole parts).run.run log = (.error e, log')) ↔
      (∃ e log', (readDocument first parts).run.run log₁ = (.error e, log')) ∨
        ∃ e log', (readDocument second parts).run.run log₂ = (.error e, log')) ∧
    ∀ d log', (readDocument whole parts).run.run log = (.ok d, log') →
      ∃ d₁ log₁' d₂ log₂', (readDocument first parts).run.run log₁ = (.ok d₁, log₁') ∧
        (readDocument second parts).run.run log₂ = (.ok d₂, log₂') ∧
        d.children = d₁.children ++ d₂.children ∧
        d.toLatex options = d₁.toLatex options ++ "\n\n" ++ d₂.toLatex options := by
  have hmarks := Element.hasKnownMarks_append hblocks
  refine ⟨?_, fun d log' hread => ?_⟩
  · rw [readDocument_error_iff hbody, readDocument_error_iff hbody₁, readDocument_error_iff hbody₂,
      hmarks, not_and_or]
  · have hknown : body.HasKnownMarks := by
      simpa [hbody] using (succeedsIff_readDocument whole parts log).mp ⟨d, log', hread⟩
    obtain ⟨hknown₁, hknown₂⟩ := hmarks.mp hknown
    obtain ⟨d₁, log₁', hread₁⟩ := exists_readDocument parts log₁ hbody₁ hknown₁
    obtain ⟨d₂, log₂', hread₂⟩ := exists_readDocument parts log₂ hbody₂ hknown₂
    have hchildren : d.children = d₁.children ++ d₂.children := by
      rw [runs_readDocument hread, runs_readDocument hread₁, runs_readDocument hread₂,
        children_documentOf hbody, children_documentOf hbody₁, children_documentOf hbody₂,
        bodyNodes_append parts.notes .empty hblocks]
    have htex : d.tex options = d₁.tex options ++ ['\n', '\n'] ++ d₂.tex options := by
      rw [runs_readDocument hread, runs_readDocument hread₁, runs_readDocument hread₂] at hchildren ⊢
      rw [tex_documentOf, tex_documentOf, tex_documentOf, hchildren, children_documentOf hbody₁,
        children_documentOf hbody₂]
      exact nodesTex_append_of_isBlock options (bodyNodes_ne_nil _ _ hparagraph₁)
        (bodyNodes_ne_nil _ _ hparagraph₂) isBlock_of_mem_bodyNodes isBlock_of_mem_bodyNodes
    refine ⟨d₁, log₁', d₂, log₂', hread₁, hread₂, hchildren, ?_⟩
    rw [Document.toLatex, htex, String.ofList_append, String.ofList_append]
    rfl

/-- A document with these blocks in its body. -/
def documentRoot (blocks : List Element) : Element :=
  ⟨"w:document", [], [.element ⟨"w:body", [], blocks.map .element⟩]⟩

/-- A heading in which a field begins that does not end. -/
def openHeading : Element :=
  let style : Element := ⟨"w:pStyle", [("w:val", "Heading1")], []⟩
  let mark : Element := ⟨"w:fldChar", [("w:fldCharType", "begin")], []⟩
  ⟨"w:p", [], [.element ⟨"w:pPr", [], [.element style]⟩,
    .element ⟨"w:r", [], [.element mark, .element ⟨"w:t", [], [.text "a"]⟩]⟩]⟩

def plainParagraph : Element :=
  ⟨"w:p", [], [.element ⟨"w:r", [], [.element ⟨"w:t", [], [.text "b"]⟩]⟩]⟩

theorem tex_of_openHeading_plainParagraph :
    (body? (documentRoot [openHeading, plainParagraph])).isSome = true ∧
      openHeading.localName = "p" ∧ plainParagraph.localName = "p" ∧
      ∃ d log', (readDocument (documentRoot [openHeading, plainParagraph]) .empty).run.run [] =
        (.ok d, log') ∧ d.toLatex {} = "\\section\x7ba\x7d\n\nb" := by
  have hheading : openHeading.localName = "p" := by decide +kernel
  have hplain : plainParagraph.localName = "p" := by decide +kernel
  have hwhole : body? (documentRoot [openHeading, plainParagraph]) =
      some (⟨"w:body", [], [.element openHeading, .element plainParagraph]⟩, 0) := rfl
  have hfirst : body? (documentRoot [openHeading]) =
      some (⟨"w:body", [], [.element openHeading]⟩, 0) := rfl
  have hsecond : body? (documentRoot [plainParagraph]) =
      some (⟨"w:body", [], [.element plainParagraph]⟩, 0) := rfl
  have hread := (tex_of_appended_bodies hwhole hfirst hsecond rfl
    ⟨openHeading, List.mem_cons_self, hheading⟩ ⟨plainParagraph, List.mem_cons_self, hplain⟩
    .empty {} [] [] []).2
  obtain ⟨d, log', hd⟩ := exists_readDocument .empty [] hwhole (by decide +kernel)
  refine ⟨rfl, hheading, hplain, d, log', hd, ?_⟩
  obtain ⟨d₁, log₁, d₂, log₂, hd₁, hd₂, -, htex⟩ := hread d log' hd
  rw [htex, runs_readDocument hd₁, runs_readDocument hd₂]
  decide +kernel

end WordTex
