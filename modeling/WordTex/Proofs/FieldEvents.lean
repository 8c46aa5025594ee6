import WordTex.PartReading
import WordTex.Proofs.StyleFlags

/-! # What a paragraph does to its fields

For the fields a paragraph is a list of events. An event changes the open fields, of which the
innermost comes first, and may hand nodes on to the paragraph. -/
namespace WordTex

/-- A piece of an instruction is no part of the result. -/
theorem OpenField.children_addInstruction (f : OpenField) (text : String) :
    (f.addInstruction text).children = f.children := by
  rw [addInstruction]
  split <;> rfl

inductive FieldEvent where
  | node (n : Node)
  | instruction (text : String)
  | mark (m : FieldMark)

namespace FieldEvent

/-- A node goes to the innermost open field, and to the paragraph if there is none. -/
def place (n : Node) : List OpenField → List OpenField × List Node
  | [] => ([], [n])
  | f :: rest => (f.push n :: rest, [])

/-- The open fields after an event, and the nodes that are in none of them. -/
def apply : FieldEvent → List OpenField → List OpenField × List Node
  | node n, fields => place n fields
  | instruction _, [] => ([], [])
  | instruction text, f :: rest => (f.addInstruction text :: rest, [])
  | mark .opening, fields => (.start :: fields, [])
  | mark .separator, [] => ([], [])
  | mark .separator, f :: rest => (f.separate :: rest, [])
  | mark .closing, [] => ([], [])
  | mark .closing, f :: rest => place f.close rest

/-- The open fields after a list of events, and the nodes that are in none of them. -/
def feed (fields : List OpenField) : List FieldEvent → List OpenField × List Node
  | [] => (fields, [])
  | e :: es =>
    ((feed (e.apply fields).1 es).1, (e.apply fields).2 ++ (feed (e.apply fields).1 es).2)

/-- The nodes of a paragraph with these events, of which the last fields may stay open. -/
def deliver (fields : List OpenField) (events : List FieldEvent) : List Node :=
  (feed fields events).2 ++ OpenField.closeAll (feed fields events).1

theorem feed_append (fields : List OpenField) (es es' : List FieldEvent) :
    feed fields (es ++ es') = ((feed (feed fields es).1 es').1,
      (feed fields es).2 ++ (feed (feed fields es).1 es').2) := by
  induction es generalizing fields with
  | nil => rfl
  | cons e es ih => simp [feed, ih]

theorem feed_singleton (fields : List OpenField) (e : FieldEvent) :
    feed fields [e] = e.apply fields := by
  simp [feed]

end FieldEvent

namespace ReadingState

variable (s : ReadingState)

/-- The reader goes from one state to another by these events, which hand on these nodes, and it
merges this style into the innermost scope. -/
structure Delivers (s s' : ReadingState) (merged : Style) (events : List FieldEvent)
    (nodes : List Node) : Prop where
  fields : FieldEvent.feed s.fields events = (s'.fields, nodes)
  styles : s'.styles = s.styles.modifyHead (·.union merged)
  part : s'.part = s.part
  path : s'.path = s.path

/-- A step that leaves the styles alone. -/
theorem Delivers.of_styles_eq {s s' : ReadingState} {events : List FieldEvent} {nodes : List Node}
    (hfields : FieldEvent.feed s.fields events = (s'.fields, nodes)) (hstyles : s'.styles = s.styles)
    (hpart : s'.part = s.part) (hpath : s'.path = s.path) : s.Delivers s' .empty events nodes := by
  refine ⟨hfields, ?_, hpart, hpath⟩
  rw [hstyles]
  cases s.styles <;> simp

theorem Delivers.refl : s.Delivers s .empty [] [] :=
  .of_styles_eq rfl rfl rfl rfl

theorem delivers_note (n : Notice) : s.Delivers (s.note n) .empty [] [] :=
  .of_styles_eq rfl rfl rfl rfl

theorem Delivers.trans {s t u : ReadingState} {f g : Style} {es es' : List FieldEvent}
    {ns ns' : List Node} (h : s.Delivers t f es ns) (h' : t.Delivers u g es' ns') :
    s.Delivers u (f.union g) (es ++ es') (ns ++ ns') := by
  refine ⟨?_, ?_, h'.part.trans h.part, h'.path.trans h.path⟩
  · rw [FieldEvent.feed_append, h.fields]
    dsimp only
    rw [h'.fields]
  · rw [h'.styles, h.styles]
    cases s.styles with
    | nil => rfl
    | cons top outer => simp [Style.union_assoc]

theorem Delivers.styles_eq {s t : ReadingState} {es : List FieldEvent} {ns : List Node}
    (h : s.Delivers t .empty es ns) : t.styles = s.styles := by
  rw [h.styles]
  cases s.styles <;> simp

theorem currentStyle_of_styles_eq {s t : ReadingState} (h : t.styles = s.styles) :
    t.currentStyle = s.currentStyle := by
  rw [currentStyle, currentStyle, h]

/-- A new scope has no style of its own. -/
theorem currentStyle_newScope :
    ({ s with styles := .empty :: s.styles } : ReadingState).currentStyle = s.currentStyle := by
  rw [currentStyle, currentStyle, Style.unionAll_cons, Style.empty_union]

/-- A step without events in front of another one. -/
theorem Delivers.before {s t u : ReadingState} {g : Style} {es : List FieldEvent} {ns : List Node}
    (h : s.Delivers t .empty [] []) (h' : t.Delivers u g es ns) : s.Delivers u g es ns := by
  have := h.trans h'
  rwa [Style.empty_union, List.nil_append, List.nil_append] at this

/-- The style of text after a step that was made inside of a scope. -/
theorem Delivers.currentStyle {s s' : ReadingState} {merged : Style} {es : List FieldEvent}
    {ns : List Node} (h : s.Delivers s' merged es ns) (hs : s.styles ≠ []) :
    s'.currentStyle = s.currentStyle.union merged ∧ s'.styles ≠ [] := by
  rcases hstyles : s.styles with _ | ⟨top, outer⟩
  · exact (hs hstyles).elim
  · have hs' := h.styles
    rw [hstyles, List.modifyHead_cons] at hs'
    refine ⟨?_, by simp [hs']⟩
    rw [ReadingState.currentStyle, ReadingState.currentStyle, hs', hstyles, Style.unionAll_cons,
      Style.unionAll_cons, Style.union_assoc, Style.union_assoc, Style.union_comm merged]

theorem emit_eq (n : Node) : s.emit n =
    ((FieldEvent.place n s.fields).2, { s with fields := (FieldEvent.place n s.fields).1 }) := by
  simp only [emit, FieldEvent.place]
  rcases hf : s.fields with _ | ⟨f, rest⟩
  · simp [← hf]
  · rfl

theorem delivers_emit (n : Node) : s.Delivers (s.emit n).2 .empty [.node n] (s.emit n).1 := by
  rw [emit_eq]
  exact .of_styles_eq (FieldEvent.feed_singleton s.fields (.node n)) rfl rfl rfl

theorem delivers_addInstruction (text : String) :
    s.Delivers (s.addInstruction text) .empty [.instruction text] [] := by
  rw [addInstruction]
  rcases hf : s.fields with _ | ⟨f, rest⟩
  · refine .of_styles_eq ?_ rfl rfl rfl
    simp [note, hf, FieldEvent.feed_singleton, FieldEvent.apply]
  · refine .of_styles_eq ?_ rfl rfl rfl
    simp [noteAll, hf, FieldEvent.feed_singleton, FieldEvent.apply]

theorem delivers_applyMark (m : FieldMark) :
    s.Delivers (s.applyMark m).2 .empty [.mark m] (s.applyMark m).1 := by
  cases m with
  | opening => exact .of_styles_eq (FieldEvent.feed_singleton s.fields (.mark .opening)) rfl rfl rfl
  | separator =>
    rcases hf : s.fields with _ | ⟨f, rest⟩
    · refine .of_styles_eq ?_ ?_ ?_ ?_ <;>
        simp [applyMark, note, hf, FieldEvent.feed_singleton, FieldEvent.apply]
    · refine .of_styles_eq ?_ ?_ ?_ ?_ <;>
        simp [applyMark, hf, FieldEvent.feed_singleton, FieldEvent.apply]
  | closing =>
    rcases hf : s.fields with _ | ⟨f, rest⟩
    · refine .of_styles_eq ?_ ?_ ?_ ?_ <;>
        simp [applyMark, note, hf, FieldEvent.feed_singleton, FieldEvent.apply]
    · refine .of_styles_eq ?_ ?_ ?_ ?_ <;>
        simp [applyMark, emit_eq, noteAll, hf, FieldEvent.feed_singleton, FieldEvent.apply]

end ReadingState

end WordTex
