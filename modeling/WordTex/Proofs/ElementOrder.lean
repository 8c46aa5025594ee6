import WordTex.TextCuts
import WordTex.Proofs.ElementTrees
import WordTex.Proofs.OrderedPlaces
import Mathlib.Data.List.DropRight

/-! # Document order inside of an element

The search for a name tests an element before it looks inside of it, and stops at the first one. It finds
the element at the first place below the root whose element has this local name. The text of an element
is that of the texts at all places below it, in the order of the places. -/
namespace WordTex

/-- The name has no colon and is the whole qualified name or stands behind a colon at its end, so that
this colon is the last one. -/
def IsLocalPart (name qualified : String) : Prop :=
  ':' ∉ name.toList ∧ (qualified = name ∨ ∃ before, qualified = before ++ ":" ++ name)

theorem isLocalPart_localPart (qualified : String) : IsLocalPart (localPart qualified) qualified := by
  have hname : (localPart qualified).toList = qualified.toList.rtakeWhile (· ≠ ':') :=
    String.toList_ofList
  have hcut := List.rdropWhile_append_rtakeWhile (p := (· ≠ ':')) (l := qualified.toList)
  rw [← hname] at hcut
  refine ⟨fun hmem => ?_, ?_⟩
  · rw [hname] at hmem
    simpa using List.mem_rtakeWhile_imp hmem
  · rcases List.eq_nil_or_concat' (qualified.toList.rdropWhile (· ≠ ':')) with hnil | ⟨before, c, hlast⟩
    · rw [hnil, List.nil_append] at hcut
      exact .inl (String.toList_inj.mp hcut.symm)
    · -- what is dropped in front ends with the character that stopped the cut
      have hstop := List.rdropWhile_last_not (· ≠ ':') qualified.toList (by rw [hlast]; simp)
      simp only [hlast, List.getLast_concat, decide_eq_true_eq, not_not] at hstop
      refine .inr ⟨.ofList before, String.toList_inj.mp ?_⟩
      rw [← hcut, hlast, hstop]
      simp

theorem IsLocalPart.localPart_eq {name qualified : String} (h : IsLocalPart name qualified) :
    localPart qualified = name := by
  obtain ⟨hname, hwhole⟩ := h
  have hletters : ∀ c ∈ name.toList.reverse, decide (c ≠ ':') = true := by
    intro c hc
    exact decide_eq_true fun heq => hname (heq ▸ List.mem_reverse.mp hc)
  have hcut : ∀ rest : List Char, (∀ c ∈ rest.head?, decide (c ≠ ':') = false) →
      (name.toList.reverse ++ rest).takeWhile (· ≠ ':') = name.toList.reverse :=
    fun rest => takeWhile_append_of_head? hletters
  rcases hwhole with rfl | ⟨before, rfl⟩
  · have hself := hcut [] (by simp)
    rw [List.append_nil] at hself
    rw [localPart, hself, List.reverse_reverse, String.ofList_toList]
  · have hfront : (before ++ ":" ++ name).toList.reverse =
        name.toList.reverse ++ ':' :: before.toList.reverse := by simp
    rw [localPart, hfront, hcut _ (by simp), List.reverse_reverse, String.ofList_toList]

theorem localPart_eq_iff {name qualified : String} :
    localPart qualified = name ↔ IsLocalPart name qualified :=
  ⟨fun h => h ▸ isLocalPart_localPart qualified, IsLocalPart.localPart_eq⟩

namespace XmlContent

def text? : XmlContent → Option String
  | element _ => none
  | text t => some t

/-- The content at a place below a content, whose own place is the empty one. -/
def descend (c : XmlContent) : List Nat → Option XmlContent
  | [] => some c
  | i :: p => c.contents[i]?.bind fun d => d.descend p

end XmlContent

/-- The content at a place in a list of contents. -/
def contentAt? (contents : List XmlContent) : List Nat → Option XmlContent
  | [] => none
  | i :: p => contents[i]?.bind fun c => c.descend p

mutual

/-- The contents of an element at any depth, parents first. -/
def Element.allContents : Element → List XmlContent
  | ⟨_, _, contents⟩ => allContentsOf contents

def allContentsOf : List XmlContent → List XmlContent
  | [] => []
  | .text t :: rest => .text t :: allContentsOf rest
  | .element e :: rest => .element e :: e.allContents ++ allContentsOf rest

end

theorem allContentsOf_cons (c : XmlContent) (rest : List XmlContent) :
    allContentsOf (c :: rest) = (c :: allContentsOf c.contents) ++ allContentsOf rest := by
  rcases c with ⟨name, attributes, contents⟩ | t <;> rfl

theorem inOrder_allContentsOf (contents : List XmlContent) :
    InOrder (contentAt? contents) (allContentsOf contents) := by
  induction contents using XmlContent.list_induction with
  | nil => exact .nil fun p => by cases p <;> rfl
  | cons c rest hinside hrest =>
    have hfirst : InOrder c.descend (c :: allContentsOf c.contents) :=
      hinside.node rfl rfl fun _ _ => rfl
    rw [allContentsOf_cons]
    exact hfirst.cons hrest rfl rfl (fun _ => rfl) fun _ _ => rfl

theorem descendantsIn_eq (contents : List XmlContent) :
    descendantsIn contents = (allContentsOf contents).filterMap XmlContent.element? := by
  induction contents using XmlContent.list_induction with
  | nil => rfl
  | cons c rest hinside hrest =>
    rw [allContentsOf_cons, List.filterMap_append, List.filterMap_cons, ← hinside, ← hrest]
    rcases c with ⟨name, attributes, contents⟩ | t <;> rfl

/-- An element is tested before the search looks inside of it, and then behind it. -/
theorem descendantIn?_eq (name : String) (contents : List XmlContent) :
    descendantIn? name contents = (descendantsIn contents).find? (·.localName == name) := by
  induction contents using XmlContent.list_induction with
  | nil => rfl
  | cons c rest hinside hrest =>
    rcases c with ⟨qualified, attributes, contents⟩ | t
    · rw [descendantIn?, descendantsIn, List.cons_append, List.find?_cons, List.find?_append, ← hrest]
      by_cases hname : (Element.mk qualified attributes contents).localName = name
      · simp [hname]
      · rw [if_neg (by simpa using hname), beq_false_of_ne hname]
        exact congrArg (Option.or · _) hinside
    · exact hrest

theorem textOfContents_eq (contents : List XmlContent) :
    textOfContents contents = String.join ((allContentsOf contents).filterMap XmlContent.text?) := by
  induction contents using XmlContent.list_induction with
  | nil => rfl
  | cons c rest hinside hrest =>
    rw [allContentsOf_cons, List.filterMap_append, List.filterMap_cons, String.join_append, ← hrest]
    rcases c with ⟨name, attributes, contents⟩ | t
    · exact congrArg (· ++ textOfContents rest) hinside
    · rw [textOfContents]
      simp [XmlContent.text?, XmlContent.contents, allContentsOf]

namespace Element

/-- The element at a place below the root, if there is one and it is no text. -/
def elementAt? (root : Element) (place : List Nat) : Option Element :=
  (contentAt? root.contents place).bind XmlContent.element?

/-- The text at a place below the root. -/
def textAt? (root : Element) (place : List Nat) : Option String :=
  (contentAt? root.contents place).bind XmlContent.text?

theorem inOrder_descendants (root : Element) : InOrder root.elementAt? root.descendants := by
  obtain ⟨name, attributes, contents⟩ := root
  rw [descendants, descendantsIn_eq]
  exact (inOrder_allContentsOf contents).filterMap XmlContent.element?

theorem descendant?_eq_find? (root : Element) (name : String) :
    root.descendant? name = root.descendants.find? (·.localName == name) := by
  obtain ⟨qualified, attributes, contents⟩ := root
  exact descendantIn?_eq name contents

theorem exists_inOrder_texts (root : Element) :
    ∃ texts, InOrder root.textAt? texts ∧ root.textContent = String.join texts := by
  obtain ⟨name, attributes, contents⟩ := root
  exact ⟨_, (inOrder_allContentsOf contents).filterMap XmlContent.text?, textOfContents_eq contents⟩

theorem localName_beq_iff {e : Element} {name : String} :
    (e.localName == name) = true ↔ IsLocalPart name e.name :=
  beq_iff_eq.trans localPart_eq_iff

/-- A search by name finds the element at the first place below the root whose element has this local
name, and nothing if there is none. The text of the root is that of the texts at all places below it, in
the order of the places. -/
theorem search_and_text_in_order (root : Element) (name : String) :
    (∀ d, root.descendant? name = some d ↔
      ∃ place, root.elementAt? place = some d ∧ IsLocalPart name d.name ∧
        ∀ earlier < place, ∀ e, root.elementAt? earlier = some e → ¬ IsLocalPart name e.name) ∧
    (root.descendant? name = none ↔
      ∀ place e, root.elementAt? place = some e → ¬ IsLocalPart name e.name) ∧
    ∃ texts, InOrder root.textAt? texts ∧ root.textContent = String.join texts := by
  have hfind := root.descendant?_eq_find? name
  refine ⟨fun d => ?_, ?_, root.exists_inOrder_texts⟩
  · rw [hfind, root.inOrder_descendants.find?_eq_some_iff]
    simp only [localName_beq_iff, ← Bool.not_eq_true]
  · rw [hfind, root.inOrder_descendants.find?_eq_none_iff]
    simp only [localName_beq_iff, ← Bool.not_eq_true]

/-- What is deep in the first child is found before the second child. -/
example :
    let inner : XmlContent := .element ⟨"w:a", [], [.text "x", .element ⟨"v:w:b", [], [.text "y"]⟩]⟩
    let root : Element := ⟨"w:b", [], [inner, .element ⟨"b", [], [.text "z"]⟩]⟩
    (root.descendant? "b").map Element.name = some "v:w:b" ∧ root.textContent = "xyz" := by
  decide

end Element

end WordTex
