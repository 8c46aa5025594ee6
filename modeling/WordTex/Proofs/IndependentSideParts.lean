import WordTex.Conversion
import WordTex.Proofs.CitedNotes
import WordTex.Proofs.IndependentParagraphs

/-! # What the LaTeX of a package depends on

The body of a document is read with all notes of the package at hand, but each of its elements looks
up at most the note that it refers to. So the LaTeX depends on the main part and on the notes that the
body cites, and on nothing else that the package has. -/
namespace WordTex

open DocumentReading

section

variable {notes notes' : Notes}

/-- If the element refers to a note, both have the same one or none. -/
def Notes.AgreeAt (notes notes' : Notes) (e : Element) : Prop :=
  ∀ kind id, e.citation? = some (kind, id) → notes.get? kind id = notes'.get? kind id

theorem Notes.citation_congr {kind : NoteKind} {id : String}
    (h : notes.get? kind id = notes'.get? kind id) : notes.citation kind id = notes'.citation kind id := by
  rw [citation, h, ← citation]

theorem runChildEvents_congr {child : Element} (h : notes.AgreeAt notes' child) (style : Style) :
    runChildEvents notes style child = runChildEvents notes' style child := by
  have hcited := child.citation?_runItem
  rw [runChildEvents, runChildEvents]
  cases hitem : child.runItem with
  | note kind id =>
    rw [hitem] at hcited
    exact congrArg (fun n => [FieldEvent.node n]) (Notes.citation_congr (h kind id hcited.symm))
  | _ => rfl

theorem runEvents_congr {children : List Element} (h : ∀ c ∈ children, notes.AgreeAt notes' c)
    (style : Style) : runEvents notes style children = runEvents notes' style children := by
  induction children generalizing style with
  | nil => rfl
  | cons c cs ih =>
    rw [runEvents, runEvents, runChildEvents_congr (h c List.mem_cons_self),
      ih fun d hd => h d (List.mem_cons_of_mem c hd)]

theorem paragraphChildEvents_congr {child : Element}
    (h : ∀ r ∈ child.runsOfChild, ∀ c ∈ r.childElements, notes.AgreeAt notes' c) (style : Style) :
    paragraphChildEvents notes style child = paragraphChildEvents notes' style child := by
  rw [paragraphChildEvents_eq_flatMap, paragraphChildEvents_eq_flatMap]
  exact List.flatMap_congr fun r hr => runEvents_congr (h r hr) style

theorem paragraphEvents_congr {children : List Element}
    (h : ∀ p ∈ children, ∀ r ∈ p.runsOfChild, ∀ c ∈ r.childElements, notes.AgreeAt notes' c)
    (style : Style) : paragraphEvents notes style children = paragraphEvents notes' style children := by
  induction children generalizing style with
  | nil => rfl
  | cons c cs ih =>
    rw [paragraphEvents, paragraphEvents, paragraphChildEvents_congr (h c List.mem_cons_self),
      ih fun p hp => h p (List.mem_cons_of_mem c hp)]

theorem paragraphNode_congr {paragraph : Element}
    (h : ∀ c ∈ paragraph.runChildren, notes.AgreeAt notes' c) (style : Style) :
    paragraphNode notes [] style paragraph = paragraphNode notes' [] style paragraph := by
  have hruns : ∀ p ∈ paragraph.childElements, ∀ r ∈ p.runsOfChild, ∀ c ∈ r.childElements,
      notes.AgreeAt notes' c := fun p hp r hr c hc =>
    h c (List.mem_flatMap.mpr ⟨r, List.mem_flatMap.mpr ⟨p, hp, hr⟩, hc⟩)
  rw [paragraphNode, paragraphNode, paragraphEvents_congr hruns]

/-- A body is read alike with any notes that agree on those it cites. -/
theorem bodyNodes_congr {body : Element}
    (h : ∀ c ∈ bodyCitations body, notes.get? c.1 c.2 = notes'.get? c.1 c.2) (style : Style) :
    bodyNodes notes style body = bodyNodes notes' style body := by
  refine List.map_congr_left fun p hp => paragraphNode_congr (fun e he kind id hcited => ?_) style
  exact h (kind, id) (List.mem_flatMap.mpr ⟨p, hp, List.mem_filterMap.mpr ⟨e, he, hcited⟩⟩)

end

section

variable {source₁ source₂ : PartSource} {d d₁ d₂ : Document} {log₁ log₂ : List Notice}

theorem latexOfSource_of_runs (h : (ofSource source₁).run.run [] = (.ok d, log₁)) :
    latexOfSource source₁ = .ok (d.toLatex {}) := by
  rw [latexOfSource, convert, runLogged, h]
  rfl

/-- A part that can be read has the same root in all packages that have its text. -/
theorem PartSource.root?_congr {part : String} {root₁ root₂ : Element}
    (htext : source₁.readText part = source₂.readText part)
    (h₁ : source₁.root? part = some root₁) (h₂ : source₂.root? part = some root₂) :
    root₁ = root₂ := by
  have hpart : ∀ {source : PartSource} {root : Element}, source.root? part = some root →
      source.hasPart part = true := by
    intro source root h
    by_contra hnone
    rw [root?, readOptionalText, if_neg hnone] at h
    cases h
  rw [root?, readOptionalText, if_pos (hpart h₁), htext] at h₁
  rw [root?, readOptionalText, if_pos (hpart h₂)] at h₂
  exact Option.some.inj (h₁.symm.trans h₂)

theorem children_documentOf_congr {root : Element} {parts parts' : DocumentParts}
    (h : ∀ c ∈ documentCitations root, parts.notes.get? c.1 c.2 = parts'.notes.get? c.1 c.2) :
    (documentOf root parts).children = (documentOf root parts').children := by
  cases hbody : body? root with
  | none => rw [documentOf, documentOf, hbody]; rfl
  | some b =>
    obtain ⟨body, index⟩ := b
    rw [documentCitations, hbody] at h
    rw [children_documentOf hbody, children_documentOf hbody, bodyNodes_congr h]

/-- Two packages with the same main part that can both be read have the same LaTeX, if the documents
agree on each note that a reference in the body asks for. What else there is in the packages (other
notes, the core properties, the relationships, further parts) makes no difference. -/
theorem latex_of_same_citations (h₁ : (ofSource source₁).run.run [] = (.ok d₁, log₁))
    (h₂ : (ofSource source₂).run.run [] = (.ok d₂, log₂))
    (htext : source₁.readText documentPart = source₂.readText documentPart)
    (hnotes : ∀ root, source₁.root? documentPart = some root → ∀ c ∈ documentCitations root,
      Dictionary.get? c.2 (d₁.notes c.1) = Dictionary.get? c.2 (d₂.notes c.1)) :
    (∀ options, d₁.toLatex options = d₂.toLatex options) ∧
      ∃ tex, latexOfSource source₁ = .ok tex ∧ latexOfSource source₂ = .ok tex := by
  have hlatex : ∀ options, d₁.toLatex options = d₂.toLatex options := by
    obtain ⟨root, parts₁, hroot, -, rfl⟩ := runs_ofSource h₁
    obtain ⟨root₂, parts₂, hroot₂, -, rfl⟩ := runs_ofSource h₂
    obtain rfl := PartSource.root?_congr htext hroot hroot₂
    have hchildren : (documentOf root parts₁).children = (documentOf root parts₂).children := by
      refine children_documentOf_congr fun c hc => ?_
      exact (get?_notes_documentOf c.1 c.2).symm.trans
        ((hnotes root hroot c hc).trans (get?_notes_documentOf c.1 c.2))
    intro options
    rw [Document.toLatex, Document.toLatex, tex_documentOf, tex_documentOf, hchildren]
  refine ⟨hlatex, d₁.toLatex {}, latexOfSource_of_runs h₁, ?_⟩
  rw [hlatex]
  exact latexOfSource_of_runs h₂

end

/-- The body has a field that stays open and cites a footnote. -/
def sidePartsPackage (endnotes title : String) : PartSource :=
  .ofTexts
    [(documentPart,
        "<d><body><p><r><fldChar w:fldCharType=\"begin\"/><footnoteReference w:id=\"1\"/></r></p></body></d>"),
      (footnotesPart, "<n><a w:id=\"1\"><p><r><t>b</t></r></p></a></n>"),
      (endnotesPart, endnotes), (corePropertiesPart, title)]

theorem documentCitations_sidePartsPackage (endnotes title : String) :
    ((sidePartsPackage endnotes title).root? documentPart).map documentCitations =
      some [(.footnote, "1")] := by
  have hroot : (sidePartsPackage endnotes title).root? documentPart =
      (sidePartsPackage "" "").root? documentPart := rfl
  rw [hroot]
  decide +kernel

/-- The endnote with the id of the footnote, and the title, are in the first package only. -/
theorem latex_of_sidePartsPackages :
    ∃ d₁ log₁ d₂ log₂,
      (ofSource (sidePartsPackage "<n><a w:id=\"1\"/></n>" "<c><title>a</title></c>")).run.run [] =
        (.ok d₁, log₁) ∧ (d₁.title?, d₁.endnotes.length) = (some "a", 1) ∧
      (ofSource (sidePartsPackage "<n/>" "<c/>")).run.run [] = (.ok d₂, log₂) ∧
      (d₂.title?, d₂.endnotes.length) = (none, 0) ∧
      Dictionary.get? "1" (d₁.notes .footnote) = Dictionary.get? "1" (d₂.notes .footnote) ∧
      latexOfSource (sidePartsPackage "<n><a w:id=\"1\"/></n>" "<c><title>a</title></c>") =
        latexOfSource (sidePartsPackage "<n/>" "<c/>") := by
  obtain ⟨d₁, log₁, h₁, hparts₁⟩ : ∃ d log, (ofSource (sidePartsPackage "<n><a w:id=\"1\"/></n>"
      "<c><title>a</title></c>")).run.run [] = (.ok d, log) ∧
      (d.title?, d.endnotes.length) = (some "a", 1) := exists_document_of_map (by decide +kernel)
  obtain ⟨d₂, log₂, h₂, hparts₂⟩ : ∃ d log, (ofSource (sidePartsPackage "<n/>" "<c/>")).run.run [] =
      (.ok d, log) ∧ (d.title?, d.endnotes.length) = (none, 0) :=
    exists_document_of_map (by decide +kernel)
  have hnotes : Dictionary.get? "1" (d₁.notes .footnote) = Dictionary.get? "1" (d₂.notes .footnote) := by
    obtain ⟨root₁, parts₁, -, hfrom₁, rfl⟩ := runs_ofSource h₁
    obtain ⟨root₂, parts₂, -, hfrom₂, rfl⟩ := runs_ofSource h₂
    rw [get?_notes_documentOf, get?_notes_documentOf, hfrom₁, hfrom₂]
    rfl
  obtain ⟨-, tex, htex₁, htex₂⟩ := latex_of_same_citations h₁ h₂ rfl fun root hroot c hc => by
    have hcited := documentCitations_sidePartsPackage "<n><a w:id=\"1\"/></n>" "<c><title>a</title></c>"
    rw [hroot, Option.map_some, Option.some_inj] at hcited
    rw [hcited, List.mem_singleton] at hc
    exact hc ▸ hnotes
  exact ⟨d₁, log₁, d₂, log₂, h₁, hparts₁, h₂, hparts₂, hnotes, htex₁.trans htex₂.symm⟩

end WordTex
