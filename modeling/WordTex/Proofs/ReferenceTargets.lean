import WordTex.Proofs.DanglingReferences
import WordTex.Proofs.ReadLabels
import WordTex.Proofs.WrittenArguments

/-! # The targets of cross-references

A cross-reference of a document that was read has its label in the LaTeX, or is reported, or is to a
bookmark in a note that is not written. -/
namespace WordTex

open DocumentReading

namespace Document

variable {d : Document}

theorem mem_references_of_mem_walk {code : String} {children : List Node}
    (h : .reference code children ∈ d.walk) : code ∈ d.references.map Prod.fst :=
  List.mem_map.mpr ⟨(code, children), List.mem_filterMap.mpr ⟨_, h, rfl⟩, rfl⟩

/-- A cross-reference that is not reported has the key of a label. -/
theorem exists_label_of_not_reported {code : String} (hcode : code ∈ d.references.map Prod.fst)
    (h : code ∉ d.danglingReferences) : ∃ l ∈ d.allLabels, labelKey l = labelKey code := by
  by_contra hnone
  rw [danglingReferences_eq_filter, List.mem_filter, decide_eq_true_eq] at h
  exact h ⟨hcode, fun l hl hkey => hnone ⟨l, hl, hkey⟩⟩

end Document

variable {source : PartSource} {log log' : List Notice} {d : Document}

/-- Each key that a cross-reference is written with is the key of a label that is written, or that of
a reported cross-reference, or that of a bookmark in a note that is not written. -/
theorem label_or_report_of_cref (h : (ofSource source).run.run log = (.ok d, log')) :
    ∀ key ∈ argumentsOf "Cref" (d.tex {}),
      key ∈ argumentsOf "label" (d.tex {}) ∨
      (∃ code ∈ d.danglingReferences, labelKey code = key) ∨
      ∃ kind id c, (id, c) ∈ d.notes kind ∧ key ∈ c.allLabels.map labelKey ∧
        .note kind (some id) c ∉ d.written := by
  intro key hkey
  have hother := fun name => isOther_of_ofSource name h
  rw [Document.argumentsOf_cref (hother "Cref")] at hkey
  obtain ⟨code, hcode, rfl⟩ := List.mem_map.mp hkey
  obtain ⟨m, hm, hreference⟩ := List.mem_filterMap.mp hcode
  obtain ⟨children, rfl⟩ : ∃ children, m = .reference code children := by
    cases m <;> simp_all [Node.referenceCode?]
  by_cases hreported : code ∈ d.danglingReferences
  · exact .inr (.inl ⟨code, hreported, rfl⟩)
  have hreferences := Document.mem_references_of_mem_walk (Document.mem_walk_of_mem_written hm)
  -- some label of the document has the key; if it is not written, it is in a note
  obtain ⟨l, hl, hsame⟩ := Document.exists_label_of_not_reported hreferences hreported
  rw [← hsame, Document.argumentsOf_label (hother "label")]
  by_cases hwritten : labelKey l ∈ (d.written.flatMap Node.labels ++ d.labels).map labelKey
  · exact .inl hwritten
  obtain ⟨root, parts, -, hparts, rfl⟩ := runs_ofSource h
  have hnotes : parts.notes.FromElements := hparts ▸ source.fromElements_notes
  have hnot : l ∉ (documentOf root parts).written.flatMap Node.labels := fun hl =>
    hwritten (List.mem_map_of_mem (List.mem_append_left _ hl))
  obtain hl | ⟨kind, id, c, hc, hl⟩ := mem_allLabels_documentOf hnotes hl
  · exact (hnot hl).elim
  · exact .inr (.inr ⟨kind, id, c, hc, List.mem_map_of_mem hl, fun hnote =>
      hnot (mem_written_labels_of_note hnotes hnote hl)⟩)

/-- A cross-reference to a bookmark in a footnote that is cited nowhere. -/
def uncitedNotePackage : PartSource :=
  .ofTexts
    [(documentPart, "<document><body><p><r><fldChar w:fldCharType=\"begin\"/>" ++
        "<instrText>REF a</instrText><fldChar w:fldCharType=\"end\"/></r></p></body></document>"),
      (footnotesPart, "<footnotes><footnote w:id=\"1\"><p><bookmarkStart w:name=\"a\"/></p>" ++
        "</footnote></footnotes>")]

theorem exists_document_uncitedNotePackage :
    ∃ d log, (ofSource uncitedNotePackage).run.run [] = (.ok d, log) ∧
      (argumentsOf "Cref" (d.tex {}), argumentsOf "label" (d.tex {}), d.danglingReferences) =
        (["a"], [], []) :=
  exists_document_of_map (by decide +kernel)

theorem label_or_report_of_uncitedNotePackage :
    ∃ d log, (ofSource uncitedNotePackage).run.run [] = (.ok d, log) ∧
      argumentsOf "Cref" (d.tex {}) = ["a"] ∧
      ∀ key ∈ argumentsOf "Cref" (d.tex {}),
        key ∈ argumentsOf "label" (d.tex {}) ∨
        (∃ code ∈ d.danglingReferences, labelKey code = key) ∨
        ∃ kind id c, (id, c) ∈ d.notes kind ∧ key ∈ c.allLabels.map labelKey ∧
          .note kind (some id) c ∉ d.written := by
  obtain ⟨d, log, hrun, htex⟩ := exists_document_uncitedNotePackage
  exact ⟨d, log, hrun, (Prod.mk.inj htex).1, label_or_report_of_cref hrun⟩

/-- A bookmark in a note that is not written is enough for a cross-reference not to be reported. -/
theorem cref_without_label_or_report :
    ¬ ∀ (source : PartSource) (log : List Notice) (d : Document) (log' : List Notice),
      (ofSource source).run.run log = (.ok d, log') →
      ∀ key ∈ argumentsOf "Cref" (d.tex {}),
        key ∈ argumentsOf "label" (d.tex {}) ∨ ∃ code ∈ d.danglingReferences, labelKey code = key := by
  intro hall
  obtain ⟨d, log, hrun, htex⟩ := exists_document_uncitedNotePackage
  obtain ⟨hcref, hrest⟩ := Prod.mk.inj htex
  obtain ⟨hlabel, hdangling⟩ := Prod.mk.inj hrest
  have hkey := hall _ _ d log hrun "a" (by simp [hcref])
  rw [hlabel, hdangling] at hkey
  exact absurd hkey (by decide)

end WordTex
