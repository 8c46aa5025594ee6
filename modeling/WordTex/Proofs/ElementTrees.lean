import WordTex.XmlTree

/-! # The elements inside of an element -/
namespace WordTex

mutual

/-- What is inside of an element, parents first. -/
def Element.descendants : Element → List Element
  | ⟨_, _, contents⟩ => descendantsIn contents

def descendantsIn : List XmlContent → List Element
  | [] => []
  | .text _ :: rest => descendantsIn rest
  | .element e :: rest => e :: e.descendants ++ descendantsIn rest

end

/-- What is inside of a content. -/
def XmlContent.contents : XmlContent → List XmlContent
  | .element e => e.contents
  | .text _ => []

/-- A property of lists of contents holds if it passes from what is inside of the first content and from
the other contents to the list. -/
@[elab_as_elim]
theorem XmlContent.list_induction {motive : List XmlContent → Prop} (nil : motive [])
    (cons : ∀ c rest, motive c.contents → motive rest → motive (c :: rest))
    (contents : List XmlContent) : motive contents :=
  descendantsIn.induct (fun e => motive e.contents) motive (fun _ _ _ => id) nil
    (fun t rest => cons (.text t) rest nil) (fun e rest => cons (.element e) rest) contents

theorem Element.descendants_eq (e : Element) :
    e.descendants = e.childElements.flatMap fun c => c :: c.descendants := by
  obtain ⟨name, attributes, contents⟩ := e
  rw [descendants, childElements]
  induction contents with
  | nil => rfl
  | cons c contents ih =>
    cases c with
    | text t => exact ih
    | element e =>
      rw [descendantsIn, ih]
      rfl

theorem mem_descendantsIn_iff {contents : List XmlContent} {d : Element} :
    d ∈ descendantsIn contents ↔ ∃ e, .element e ∈ contents ∧ d ∈ e :: e.descendants := by
  induction contents with
  | nil => simp [descendantsIn]
  | cons c contents ih =>
    cases c with
    | text t => simp [descendantsIn, ih]
    | element e => simp [descendantsIn, ih, or_assoc]

/-- No text is empty, and no two texts are neighbours. -/
structure HasSeparateTexts (contents : List XmlContent) : Prop where
  ne_empty : ∀ t, .text t ∈ contents → t ≠ ""
  not_adjacent : ∀ before t u after, contents ≠ before ++ .text t :: .text u :: after

namespace HasSeparateTexts

variable {contents : List XmlContent}

theorem nil : HasSeparateTexts [] := ⟨by simp, by simp⟩

/-- The first content is no text, or a text with something in it and no other text next to it. -/
theorem cons_iff {c : XmlContent} : HasSeparateTexts (c :: contents) ↔
    (∀ t, c = .text t → t ≠ "" ∧ ∀ u, contents.head? ≠ some (.text u)) ∧
      HasSeparateTexts contents := by
  constructor
  · rintro ⟨hne, hadjacent⟩
    refine ⟨fun t ht => ⟨hne t (by simp [ht]), fun u hu => ?_⟩, fun t ht => hne t (by simp [ht]), ?_⟩
    · obtain ⟨rest, rfl⟩ := List.head?_eq_some_iff.mp hu
      exact hadjacent [] t u rest (by simp [ht])
    · rintro before t u after rfl
      exact hadjacent (c :: before) t u after rfl
  · rintro ⟨hfirst, hrest⟩
    refine ⟨fun t ht => ?_, fun before t u after h => ?_⟩
    · rcases List.mem_cons.mp ht with ht | ht
      · exact (hfirst t ht.symm).1
      · exact hrest.ne_empty t ht
    · cases before with
      | nil =>
        obtain ⟨rfl, rfl⟩ := List.cons.inj h
        exact (hfirst t rfl).2 u rfl
      | cons b before => exact hrest.not_adjacent before t u after (List.cons.inj h).2

theorem reverse (h : HasSeparateTexts contents) : HasSeparateTexts contents.reverse := by
  refine ⟨fun t ht => h.ne_empty t (List.mem_reverse.mp ht), fun before t u after hcut => ?_⟩
  refine h.not_adjacent after.reverse u t before.reverse ?_
  simpa using congrArg List.reverse hcut

end HasSeparateTexts

end WordTex
