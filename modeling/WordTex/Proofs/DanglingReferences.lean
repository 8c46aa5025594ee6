import WordTex.Proofs.MarkedLatex

/-! # Cross-references without a bookmark

A cross-reference is reported when the key of its code is the key of no label of the document. The
labels of a rendering all belong to nodes that a walk over the document meets, so no report is a false
alarm. -/
namespace WordTex

namespace Document

variable (d : Document)

/-- The codes that are reported, in the order of the cross-references. -/
theorem danglingReferences_eq_filter :
    d.danglingReferences =
      (d.references.map Prod.fst).filter fun code =>
        ∀ l ∈ d.allLabels, labelKey l ≠ labelKey code := by
  refine List.filter_congr fun code _ => ?_
  rw [Bool.eq_iff_iff]
  simp

theorem mem_allLabels_of_mem_walk {n : Node} (hn : n ∈ d.walk) {l : String} (hl : l ∈ n.labels) :
    l ∈ d.allLabels := by
  have hbody : l ∈ d.walk.flatMap Node.labels := List.mem_flatMap.mpr ⟨n, hn, hl⟩
  simp only [allLabels, List.mem_append]
  exact .inl (.inl (.inr hbody))

/-- Every label that is written is a label of the document. -/
theorem mem_allLabels_of_mem_written {l : String}
    (hl : l ∈ d.written.flatMap Node.labels ++ d.labels) : l ∈ d.allLabels := by
  rcases List.mem_append.mp hl with hl | hl
  · obtain ⟨n, hn, hl⟩ := List.mem_flatMap.mp hl
    exact d.mem_allLabels_of_mem_walk (mem_walk_of_mem_written hn) hl
  · simp only [allLabels, List.mem_append]
    exact .inl (.inl (.inl hl))

theorem exists_label_of_mem_symbols (options : LatexOptions) {key : String}
    (hkey : key ∈ keysOfSymbols (d.symbols options)) : ∃ l ∈ d.allLabels, labelKey l = key := by
  rw [d.keysOfSymbols_symbols options, writtenKeys] at hkey
  split at hkey
  · obtain ⟨l, hl, rfl⟩ := List.mem_map.mp hkey
    exact ⟨l, d.mem_allLabels_of_mem_written hl, rfl⟩
  · cases hkey

/-- The rendering of a document, its labels marked, has the labels of the nodes that are written and
those of the document; the key of each is the key of a label that the walks over the document find, so
there is no label for a reported cross-reference; and the reported ones are those that no such label
has the key of. -/
theorem no_label_for_danglingReferences (options : LatexOptions) :
    texOfSymbols (d.symbols options) = d.tex options ∧
    keysOfSymbols (d.symbols options) =
      writtenKeys options (d.written.flatMap Node.labels ++ d.labels) ∧
    (∀ key ∈ keysOfSymbols (d.symbols options), ∃ l ∈ d.allLabels, labelKey l = key) ∧
    (∀ code ∈ d.danglingReferences, labelKey code ∉ keysOfSymbols (d.symbols options)) ∧
    d.danglingReferences =
      (d.references.map Prod.fst).filter fun code =>
        ∀ l ∈ d.allLabels, labelKey l ≠ labelKey code := by
  have hkeys : ∀ key ∈ keysOfSymbols (d.symbols options), ∃ l ∈ d.allLabels, labelKey l = key :=
    fun key hkey => d.exists_label_of_mem_symbols options hkey
  refine ⟨d.texOfSymbols_symbols options, d.keysOfSymbols_symbols options, hkeys, ?_,
    d.danglingReferences_eq_filter⟩
  intro code hcode hkey
  obtain ⟨l, hl, hsame⟩ := hkeys _ hkey
  rw [danglingReferences_eq_filter, List.mem_filter] at hcode
  exact of_decide_eq_true hcode.2 l hl hsame

end Document

end WordTex
