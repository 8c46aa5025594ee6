import WordTex.Proofs.EventStyles
import WordTex.Proofs.ReadingSuccess

/-! # Runs and instructions that are cut in two

Word processors cut runs wherever they like. Two runs with the properties of one, and between them its
other children, are read as the one is, and so are two pieces of an instruction: an open field is known
by its whole instruction, not by the pieces. -/
namespace WordTex

open Reading

namespace OpenField

/-- The fields differ at most in how their instructions are cut. -/
structure Alike (f g : OpenField) : Prop where
  instruction : f.instruction = g.instruction
  separated : f.separated = g.separated
  children : f.children = g.children

theorem Alike.refl (f : OpenField) : f.Alike f := ⟨rfl, rfl, rfl⟩

variable {f g : OpenField}

theorem instruction_addInstruction (f : OpenField) (text : String) :
    (f.addInstruction text).instruction =
      if f.separated then f.instruction else f.instruction ++ text := by
  rw [addInstruction]
  split <;> simp [instruction]

theorem separated_addInstruction (f : OpenField) (text : String) :
    (f.addInstruction text).separated = f.separated := by
  rw [addInstruction]
  split <;> rfl

namespace Alike

theorem push (h : f.Alike g) (n : Node) : (f.push n).Alike (g.push n) :=
  ⟨h.instruction, h.separated, congrArg (· ++ [n]) h.children⟩

theorem separate (h : f.Alike g) : f.separate.Alike g.separate := ⟨h.instruction, rfl, h.children⟩

theorem addInstruction (h : f.Alike g) (text : String) :
    (f.addInstruction text).Alike (g.addInstruction text) := by
  refine ⟨?_, ?_, ?_⟩
  · rw [instruction_addInstruction, instruction_addInstruction, h.instruction, h.separated]
  · rw [separated_addInstruction, separated_addInstruction, h.separated]
  · rw [children_addInstruction, children_addInstruction, h.children]

/-- An instruction may come in two pieces. -/
theorem addInstruction_append (h : f.Alike g) (first second : String) :
    (f.addInstruction (first ++ second)).Alike ((g.addInstruction first).addInstruction second) := by
  refine ⟨?_, ?_, ?_⟩
  · simp only [instruction_addInstruction, separated_addInstruction, h.instruction, h.separated]
    split <;> simp [*, String.append_assoc]
  · simp only [separated_addInstruction, h.separated]
  · simp only [children_addInstruction, h.children]

theorem result (h : f.Alike g) : f.result = g.result := by
  rw [OpenField.result, h.children, ← OpenField.result]

theorem close (h : f.Alike g) : f.close = g.close := by
  rw [OpenField.close, OpenField.close, h.instruction, h.children, h.result]

end Alike

end OpenField

namespace FieldEvent

open OpenField

/-- The events do the same to fields that are alike. -/
def Alike (es es' : List FieldEvent) : Prop :=
  ∀ fs gs, List.Forall₂ OpenField.Alike fs gs →
    List.Forall₂ OpenField.Alike (feed fs es).1 (feed gs es').1 ∧ (feed fs es).2 = (feed gs es').2

theorem place_of_alike {fs gs : List OpenField} (h : List.Forall₂ OpenField.Alike fs gs) (n : Node) :
    List.Forall₂ OpenField.Alike (place n fs).1 (place n gs).1 ∧ (place n fs).2 = (place n gs).2 := by
  cases h with
  | nil => exact ⟨.nil, rfl⟩
  | cons hf hrest => exact ⟨.cons (hf.push n) hrest, rfl⟩

theorem apply_of_alike {fs gs : List OpenField} (h : List.Forall₂ OpenField.Alike fs gs)
    (e : FieldEvent) :
    List.Forall₂ OpenField.Alike (e.apply fs).1 (e.apply gs).1 ∧ (e.apply fs).2 = (e.apply gs).2 := by
  cases e with
  | node n => exact place_of_alike h n
  | instruction text =>
    cases h with
    | nil => exact ⟨.nil, rfl⟩
    | cons hf hrest => exact ⟨.cons (hf.addInstruction text) hrest, rfl⟩
  | mark m =>
    cases m with
    | opening => exact ⟨.cons (.refl .start) h, rfl⟩
    | separator =>
      cases h with
      | nil => exact ⟨.nil, rfl⟩
      | cons hf hrest => exact ⟨.cons hf.separate hrest, rfl⟩
    | closing =>
      cases h with
      | nil => exact ⟨.nil, rfl⟩
      | cons hf hrest =>
        simp only [apply, hf.close]
        exact place_of_alike hrest _

namespace Alike

variable {es es' ds ds' : List FieldEvent}

theorem refl (es : List FieldEvent) : Alike es es := by
  -- each event leaves fields that are alike
  induction es with
  | nil => exact fun fs gs h => ⟨h, rfl⟩
  | cons e es ih =>
    intro fs gs h
    obtain ⟨hfields, hnodes⟩ := apply_of_alike h e
    obtain ⟨hrest, hrest'⟩ := ih _ _ hfields
    exact ⟨hrest, by rw [feed, feed, hnodes, hrest']⟩

theorem append (h : Alike es es') (h' : Alike ds ds') : Alike (es ++ ds) (es' ++ ds') := by
  intro fs gs hfs
  obtain ⟨hfields, hnodes⟩ := h fs gs hfs
  obtain ⟨hrest, hrest'⟩ := h' _ _ hfields
  rw [feed_append, feed_append]
  exact ⟨hrest, by rw [hnodes, hrest']⟩

theorem instruction_append (first second : String) :
    Alike [instruction (first ++ second)] [instruction first, instruction second] := by
  intro fs gs h
  cases h with
  | nil => exact ⟨.nil, rfl⟩
  | cons hf hrest => exact ⟨.cons (hf.addInstruction_append first second) hrest, rfl⟩

theorem closeAll {fs gs : List OpenField} (h : List.Forall₂ OpenField.Alike fs gs) :
    OpenField.closeAll fs = OpenField.closeAll gs := by
  induction fs using OpenField.closeAll.induct generalizing gs with
  | case1 =>
    cases h
    rfl
  | case2 f =>
    obtain _ | ⟨hf, ⟨⟩⟩ := h
    rw [OpenField.closeAll, OpenField.closeAll, hf.result]
  | case3 f f' rest ih =>
    obtain _ | ⟨hf, _ | ⟨hf', hrest⟩⟩ := h
    rw [OpenField.closeAll, OpenField.closeAll, ← hf.result]
    exact ih (.cons (hf'.push _) hrest)

theorem deliver (h : Alike es es') (fields : List OpenField) :
    FieldEvent.deliver fields es = FieldEvent.deliver fields es' := by
  obtain ⟨hfields, hnodes⟩ := h fields fields (List.forall₂_same.mpr fun f _ => .refl f)
  rw [FieldEvent.deliver, FieldEvent.deliver, hnodes, closeAll hfields]

end Alike

end FieldEvent

/-- What may stand in the place of a run. -/
inductive RunDivision : Element → List Element → Prop
  /-- Two runs, each with all properties of the one, which stand in front, and with a part of its other
  children. -/
  | cut {run first second : Element} {properties front back : List Element}
      (hrun : run.localName = "r") (hfirst : first.localName = "r") (hsecond : second.localName = "r")
      (hproperties : ∀ e ∈ properties, e.localName = "rPr")
      (hothers : ∀ e ∈ front ++ back, e.localName ≠ "rPr")
      (hchildren : run.childElements = properties ++ (front ++ back))
      (hchildren₁ : first.childElements = properties ++ front)
      (hchildren₂ : second.childElements = properties ++ back) : RunDivision run [first, second]
  /-- The run with two pieces of an instruction in the place of one. -/
  | instruction {run run' whole first second : Element} {front back : List Element}
      (hrun : run.localName = "r") (hrun' : run'.localName = "r")
      (hwhole : whole.localName = "instrText") (hfirst : first.localName = "instrText")
      (hsecond : second.localName = "instrText")
      (htext : whole.textContent = first.textContent ++ second.textContent)
      (hchildren : run.childElements = front ++ whole :: back)
      (hchildren' : run'.childElements = front ++ first :: second :: back) : RunDivision run [run']

/-- What may stand in the place of a child of a paragraph: of a run, or of a hyperlink with one of its
runs divided. -/
inductive ChildDivision : Element → List Element → Prop
  | run {run : Element} {runs : List Element} (h : RunDivision run runs) : ChildDivision run runs
  | hyperlink {link link' run : Element} {front runs back : List Element}
      (hlink : link.localName = "hyperlink") (hlink' : link'.localName = "hyperlink")
      (h : RunDivision run runs) (hchildren : link.childElements = front ++ run :: back)
      (hchildren' : link'.childElements = front ++ runs ++ back) : ChildDivision link [link']

/-- The second paragraph is the first with one of its runs divided. -/
def Element.IsDividedAs (paragraph paragraph' : Element) : Prop :=
  ∃ front child children back, ChildDivision child children ∧
    paragraph.childElements = front ++ child :: back ∧
    paragraph'.childElements = front ++ children ++ back

variable {notes : Notes} {run child : Element} {runs children : List Element}

theorem runEvents_of_properties {properties : List Element}
    (h : ∀ e ∈ properties, e.localName = "rPr") (style : Style) :
    runEvents notes style properties = [] := by
  induction properties generalizing style with
  | nil => rfl
  | cons e es ih =>
    obtain ⟨he, hes⟩ := List.forall_mem_cons.mp h
    rw [runEvents, ih hes, runChildEvents, Element.runItem_eq_properties.mpr he]
    rfl

theorem runStyle_of_others {others : List Element} (h : ∀ e ∈ others, e.localName ≠ "rPr") :
    runStyle others = .empty := by
  rw [runStyle, Style.unionAll_map_of_filter runChildStyle_eq, List.filter_eq_nil_iff.mpr]
  · rfl
  · simpa using h

/-- Two runs with the same properties do what one does: the second starts over with the style that the
first reached in front of its other children. -/
theorem runEvents_cut {properties front back : List Element}
    (hproperties : ∀ e ∈ properties, e.localName = "rPr") (hfront : ∀ e ∈ front, e.localName ≠ "rPr")
    (style : Style) : runEvents notes style (properties ++ (front ++ back)) =
      runEvents notes style (properties ++ front) ++ runEvents notes style (properties ++ back) := by
  simp only [runEvents_append, runEvents_of_properties hproperties, List.nil_append]
  rw [runStyle_of_others hfront, Style.union_empty]

theorem Element.runItem_of_instruction {e : Element} (h : e.localName = "instrText") :
    e.runItem = .instruction e.textContent := by
  rw [runItem]
  split <;> simp_all

/-- A piece of an instruction sets no style. -/
theorem runEvents_instruction {e : Element} (h : e.localName = "instrText") (style : Style)
    (back : List Element) : runEvents notes style (e :: back) =
      .instruction e.textContent :: runEvents notes style back := by
  rw [runEvents, runChildEvents, runChildStyle, e.runItem_of_instruction h]
  simp only [Style.union_empty]
  rfl

namespace RunDivision

variable (h : RunDivision run runs)

include h

theorem localName_eq : run.localName = "r" ∧ ∀ r ∈ runs, r.localName = "r" := by
  cases h with
  | cut hrun hfirst hsecond => exact ⟨hrun, by simp [hfirst, hsecond]⟩
  | instruction hrun hrun' => exact ⟨hrun, by simp [hrun']⟩

theorem alike (style : Style) : FieldEvent.Alike (runEvents notes style run.childElements)
    (runs.flatMap fun r => runEvents notes style r.childElements) := by
  cases h with
  | cut _ _ _ hproperties hothers hchildren hchildren₁ hchildren₂ =>
    have hfront := (List.forall_mem_append.mp hothers).1
    rw [hchildren, runEvents_cut hproperties hfront, List.flatMap_cons, List.flatMap_singleton,
      hchildren₁, hchildren₂]
    exact .refl _
  | instruction _ _ hwhole hfirst hsecond htext hchildren hchildren' =>
    rw [List.flatMap_singleton, hchildren, hchildren', runEvents_append, runEvents_append,
      runEvents_instruction hwhole, runEvents_instruction hfirst, runEvents_instruction hsecond, htext]
    exact .append (.refl _) (.append (.instruction_append _ _) (.refl _))

theorem hasKnownMark_iff : (∀ c ∈ run.childElements, c.HasKnownMark) ↔
    ∀ c ∈ runs.flatMap Element.childElements, c.HasKnownMark := by
  have hinstruction : ∀ e : Element, e.localName = "instrText" → e.HasKnownMark := by
    intro e he
    simp [Element.HasKnownMark, he]
  cases h with
  | cut _ _ _ hproperties _ hchildren hchildren₁ hchildren₂ =>
    simp only [List.flatMap_cons, List.flatMap_nil, hchildren, hchildren₁, hchildren₂,
      List.forall_mem_append, List.append_nil]
    tauto
  | instruction _ _ hwhole hfirst hsecond _ hchildren hchildren' =>
    simp only [List.flatMap_singleton, hchildren, hchildren', List.forall_mem_append,
      List.forall_mem_cons, hinstruction _ hwhole, hinstruction _ hfirst, hinstruction _ hsecond,
      true_and]

end RunDivision

/-- The child is a run or has some. -/
def Element.HoldsRuns (child : Element) : Prop := child.localName = "r" ∨ child.localName = "hyperlink"

theorem Element.HoldsRuns.item {child : Element} (h : child.HoldsRuns) :
    child.paragraphItem = .run ∨ child.paragraphItem = .hyperlink := by
  rw [HoldsRuns] at h
  rw [paragraphItem]
  split <;> simp_all

theorem Element.HoldsRuns.localName_ne {child : Element} (h : child.HoldsRuns) :
    child.localName ≠ "pPr" := by
  rcases h with hname | hname <;> simp [hname]

theorem Element.runsOfChild_of_run {child : Element} (h : child.localName = "r") :
    child.runsOfChild = [child] := by
  rw [runsOfChild]
  split <;> simp_all

theorem Element.runsOfChild_of_hyperlink {child : Element} (h : child.localName = "hyperlink") :
    child.runsOfChild = child.childElements.filter (·.localName == "r") := by
  rw [runsOfChild]
  split <;> simp_all

namespace ChildDivision

variable (h : ChildDivision child children)

include h

theorem holdsRuns : child.HoldsRuns ∧ ∀ c ∈ children, c.HoldsRuns := by
  cases h with
  | run h =>
    obtain ⟨hrun, hruns⟩ := h.localName_eq
    exact ⟨.inl hrun, fun c hc => .inl (hruns c hc)⟩
  | hyperlink hlink hlink' => exact ⟨.inr hlink, by simp [Element.HoldsRuns, hlink']⟩

/-- One run of the child is divided, and the others are what they were. -/
theorem exists_runDivision : ∃ front run runs back, RunDivision run runs ∧
    child.runsOfChild = front ++ run :: back ∧
    children.flatMap Element.runsOfChild = front ++ runs ++ back := by
  cases h with
  | run h =>
    obtain ⟨hrun, hruns⟩ := h.localName_eq
    refine ⟨[], child, children, [], h, Element.runsOfChild_of_run hrun, ?_⟩
    rw [List.flatMap_congr fun r hr => Element.runsOfChild_of_run (hruns r hr)]
    simp
  | hyperlink hlink hlink' h hchildren hchildren' =>
    rename_i link' run front runs back
    obtain ⟨hrun, hruns⟩ := h.localName_eq
    have hkept : runs.filter (·.localName == "r") = runs := List.filter_eq_self.mpr (by simpa using hruns)
    refine ⟨front.filter (·.localName == "r"), run, runs, back.filter (·.localName == "r"), h, ?_, ?_⟩
    · rw [Element.runsOfChild_of_hyperlink hlink, hchildren, List.filter_append,
        List.filter_cons_of_pos (by simpa using hrun)]
    · rw [List.flatMap_singleton, Element.runsOfChild_of_hyperlink hlink', hchildren',
        List.filter_append, List.filter_append, hkept]

theorem alike (style : Style) : FieldEvent.Alike (paragraphChildEvents notes style child)
    (children.flatMap (paragraphChildEvents notes style)) := by
  obtain ⟨front, run, runs, back, hdivision, hchild, hchildren⟩ := h.exists_runDivision
  simp only [funext (paragraphChildEvents_eq_flatMap notes style)]
  rw [← List.flatMap_assoc, hchild, hchildren, List.flatMap_append, List.flatMap_append,
    List.flatMap_append, List.flatMap_cons, List.append_assoc]
  exact .append (.refl _) (.append (hdivision.alike style) (.refl _))

theorem hasKnownMark_iff :
    (∀ c ∈ child.runsOfChild.flatMap Element.childElements, c.HasKnownMark) ↔
      ∀ c ∈ (children.flatMap Element.runsOfChild).flatMap Element.childElements, c.HasKnownMark := by
  obtain ⟨front, run, runs, back, hdivision, hchild, hchildren⟩ := h.exists_runDivision
  rw [hchild, hchildren]
  simp only [List.flatMap_append, List.flatMap_cons, List.forall_mem_append,
    hdivision.hasKnownMark_iff, and_assoc]

end ChildDivision

section

variable (h : ∀ c ∈ children, c.HoldsRuns)

include h

theorem paragraphStyle_of_holdsRuns : paragraphStyle children = .empty := by
  rw [paragraphStyle, Style.unionAll_map_of_filter paragraphChildStyle_eq, List.filter_eq_nil_iff.mpr]
  · rfl
  · exact fun c hc => by simpa using (h c hc).localName_ne

theorem paragraphEvents_of_holdsRuns (style : Style) : paragraphEvents notes style children =
    children.flatMap (paragraphChildEvents notes style) := by
  induction children generalizing style with
  | nil => rfl
  | cons c cs ih =>
    obtain ⟨hc, hcs⟩ := List.forall_mem_cons.mp h
    have hstyle : paragraphChildStyle c = .empty := by
      rw [paragraphChildStyle_eq, if_neg (by simpa using hc.localName_ne)]
    rw [paragraphEvents, ih hcs, hstyle, Style.union_empty, List.flatMap_cons]

/-- What stands behind children with runs is read with the same style as if they were not there. -/
theorem paragraphEvents_around_holdsRuns (style : Style) (front back : List Element) :
    paragraphEvents notes style (front ++ children ++ back) = paragraphEvents notes style front ++
      children.flatMap (paragraphChildEvents notes (style.union (paragraphStyle front))) ++
        paragraphEvents notes (style.union (paragraphStyle front)) back := by
  rw [List.append_assoc, paragraphEvents_append, paragraphEvents_append, paragraphStyle_of_holdsRuns h,
    Style.union_empty, paragraphEvents_of_holdsRuns h, List.append_assoc]

theorem foldl_roleAfter_of_holdsRuns (role : Role) : children.foldl roleAfter role = role := by
  induction children with
  | nil => rfl
  | cons c cs ih =>
    obtain ⟨hc, hcs⟩ := List.forall_mem_cons.mp h
    have hrole : roleAfter role c = role := by
      rw [roleAfter]
      rcases hc.item with hitem | hitem <;> rw [hitem]
    rw [List.foldl_cons, hrole, ih hcs]

theorem filterMap_label?_of_holdsRuns : children.filterMap label? = [] := by
  refine List.filterMap_eq_nil_iff.mpr fun c hc => ?_
  rw [label?]
  rcases (h c hc).item with hitem | hitem <;> rw [hitem]

end

namespace Element.IsDividedAs

variable {paragraph paragraph' : Element} (h : paragraph.IsDividedAs paragraph')

include h

theorem hasKnownMark_iff : (∀ c ∈ paragraph.runChildren, c.HasKnownMark) ↔
    ∀ c ∈ paragraph'.runChildren, c.HasKnownMark := by
  obtain ⟨front, child, children, back, hdivision, hchildren, hchildren'⟩ := h
  simp only [runChildren, hchildren, hchildren', List.flatMap_append, List.flatMap_cons,
    List.forall_mem_append, hdivision.hasKnownMark_iff, and_assoc]

/-- The node is the same, with whatever fields open and styles around. -/
theorem paragraphNode_eq (fields : List OpenField) (style : Style) :
    paragraphNode notes fields style paragraph = paragraphNode notes fields style paragraph' := by
  obtain ⟨front, child, children, back, hdivision, hchildren, hchildren'⟩ := h
  obtain ⟨hchild, hruns⟩ := hdivision.holdsRuns
  have hone : ∀ c ∈ [child], c.HoldsRuns := by simpa using hchild
  -- what stands behind is read with the same style, as runs add none
  have hevents : FieldEvent.Alike (paragraphEvents notes style (front ++ [child] ++ back))
      (paragraphEvents notes style (front ++ children ++ back)) := by
    rw [paragraphEvents_around_holdsRuns hone, paragraphEvents_around_holdsRuns hruns,
      List.flatMap_singleton]
    exact .append (.append (.refl _) (hdivision.alike _)) (.refl _)
  rw [paragraphNode, paragraphNode, hchildren, hchildren', List.append_cons, hevents.deliver fields]
  simp only [List.foldl_append, List.filterMap_append, foldl_roleAfter_of_holdsRuns hone,
    foldl_roleAfter_of_holdsRuns hruns, filterMap_label?_of_holdsRuns hone,
    filterMap_label?_of_holdsRuns hruns]

end Element.IsDividedAs

/-- A paragraph is read as one node at most, which is known without reading it. -/
theorem exists_runs_readParagraph_iff (notes : Notes) (paragraph : Element) (n : Node)
    (s : ReadingState) : (∃ s', Runs (readParagraph notes paragraph) s n s') ↔
      (∀ c ∈ paragraph.runChildren, c.HasKnownMark) ∧
        n = paragraphNode notes s.fields s.currentStyle paragraph := by
  rw [← succeedsIff_readParagraph notes paragraph s]
  constructor
  · rintro ⟨s', hread⟩
    exact ⟨⟨n, s', hread⟩, (runs_readParagraph hread).1⟩
  · rintro ⟨⟨m, s', hread⟩, rfl⟩
    obtain ⟨rfl, -⟩ := runs_readParagraph hread
    exact ⟨s', hread⟩

/-- A paragraph with one of its runs divided, also with one of a hyperlink or with an instruction in it,
is read as the same node, and it cannot be read if and only if the paragraph cannot. -/
theorem readParagraph_of_isDividedAs {paragraph paragraph' : Element}
    (h : paragraph.IsDividedAs paragraph') (notes : Notes) (s : ReadingState) :
    (∀ n, (∃ s', (readParagraph notes paragraph).run.run s = (.ok n, s')) ↔
      ∃ s', (readParagraph notes paragraph').run.run s = (.ok n, s')) ∧
    ((∃ e s', (readParagraph notes paragraph).run.run s = (.error e, s')) ↔
      ∃ e s', (readParagraph notes paragraph').run.run s = (.error e, s')) := by
  constructor
  · intro n
    have hread := exists_runs_readParagraph_iff notes paragraph n s
    have hread' := exists_runs_readParagraph_iff notes paragraph' n s
    rw [← h.hasKnownMark_iff, ← h.paragraphNode_eq] at hread'
    exact hread.trans hread'.symm
  · rw [exists_error_iff (succeedsIff_readParagraph notes paragraph),
      exists_error_iff (succeedsIff_readParagraph notes paragraph'), h.hasKnownMark_iff]

/-- A run in italics. -/
def italicRun (children : List Element) : Element :=
  ⟨"w:r", [], (⟨"w:rPr", [], [.element ⟨"w:i", [], []⟩]⟩ :: children).map .element⟩

theorem localName_italicRun (children : List Element) : (italicRun children).localName = "r" := by
  change localPart "w:r" = "r"
  decide +kernel

/-- A paragraph with these runs in a hyperlink. -/
def linkedParagraph (runs : List Element) : Element :=
  ⟨"w:p", [], [.element ⟨"w:hyperlink", [], runs.map .element⟩]⟩

theorem isDividedAs_linkedParagraph (h : RunDivision run runs) (front back : List Element) :
    (linkedParagraph (front ++ run :: back)).IsDividedAs (linkedParagraph (front ++ runs ++ back)) := by
  have hlink : ∀ cs, Element.localName ⟨"w:hyperlink", [], cs⟩ = "hyperlink" := by
    have hname : localPart "w:hyperlink" = "hyperlink" := by decide +kernel
    exact fun _ => hname
  have hchildren : ∀ es : List Element,
      Element.childElements ⟨"w:hyperlink", [], es.map .element⟩ = es := fun es => by
    simp [Element.childElements, List.filterMap_map, Function.comp_def, XmlContent.element?]
  exact ⟨[], _, [_], [], .hyperlink (hlink _) (hlink _) h (hchildren _) (hchildren _), rfl, rfl⟩

/-- The run is cut within a cross-reference, and then its instruction is. -/
theorem readParagraph_of_linkedParagraph :
    let mark (type : String) : Element := ⟨"w:fldChar", [("w:fldCharType", type)], []⟩
    let instruction (text : String) : Element := ⟨"w:instrText", [], [.text text]⟩
    let behind : List Element := [mark "separate", ⟨"w:t", [], [.text "b"]⟩, mark "end"]
    ∃ n s₁ s₂, n.plainText = "b" ∧
      (readParagraph .empty (linkedParagraph
        [italicRun (mark "begin" :: instruction " REF a " :: behind)])).run.run (.start "a" []) =
          (.ok n, s₁) ∧
      (readParagraph .empty (linkedParagraph
        [italicRun [mark "begin", instruction " RE", instruction "F a "], italicRun behind])).run.run
          (.start "a" []) = (.ok n, s₂) := by
  intro mark instruction behind
  have hcut : RunDivision (italicRun (mark "begin" :: instruction " REF a " :: behind))
      [italicRun [mark "begin", instruction " REF a "], italicRun behind] := by
    have hproperties : ∀ e ∈ [(⟨"w:rPr", [], [.element ⟨"w:i", [], []⟩]⟩ : Element)],
        e.localName = "rPr" := by decide +kernel
    have hothers : ∀ e ∈ [mark "begin", instruction " REF a "] ++ behind, e.localName ≠ "rPr" := by
      decide +kernel
    exact .cut (localName_italicRun _) (localName_italicRun _) (localName_italicRun _) hproperties
      hothers rfl rfl rfl
  have hinstruction : RunDivision (italicRun [mark "begin", instruction " REF a "])
      [italicRun [mark "begin", instruction " RE", instruction "F a "]] := by
    have hchildren : (italicRun [mark "begin", instruction " REF a "]).childElements =
        [_, mark "begin"] ++ instruction " REF a " :: [] := rfl
    have hname : ∀ text, (instruction text).localName = "instrText" := by
      have hname : localPart "w:instrText" = "instrText" := by decide +kernel
      exact fun _ => hname
    exact .instruction (localName_italicRun _) (localName_italicRun _) (hname _) (hname _) (hname _)
      (by decide +kernel) hchildren rfl
  have hcutRead := readParagraph_of_isDividedAs (isDividedAs_linkedParagraph hcut [] []) .empty
    (.start "a" [])
  have hdividedRead := readParagraph_of_isDividedAs
    (isDividedAs_linkedParagraph hinstruction [] [italicRun behind]) .empty (.start "a" [])
  obtain ⟨n, s₁, hread⟩ := (succeedsIff_readParagraph .empty (linkedParagraph
    [italicRun (mark "begin" :: instruction " REF a " :: behind)]) (.start "a" [])).mpr
      (by decide +kernel)
  obtain ⟨s₂, hdivided⟩ := (hdividedRead.1 n).mp ((hcutRead.1 n).mp ⟨s₁, hread⟩)
  refine ⟨n, s₁, s₂, ?_, hread, hdivided⟩
  rw [(runs_readParagraph hread).1]
  decide +kernel

end WordTex
