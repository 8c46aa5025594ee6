import WordTex.Proofs.ReadingSuccess

/-! # What readers leave as it was

While a part is read, scopes and steps of the path are pushed and popped again. A reader is left on
many ways, since a mark of an unknown type ends the reading at any depth. On each of them the stacks
are as they were before, so an error leaves the state fit for what is read next. -/
namespace WordTex

section

variable {ε σ α β γ δ : Type}

/-- Reading leaves this part of the state as it was, also when it fails. -/
def Keeps (view : σ → γ) (x : ExceptT ε (StateM σ) α) : Prop := ∀ s, view (x.run.run s).2 = view s

namespace Keeps

variable {view : σ → γ}

theorem pure (a : α) : Keeps view (Pure.pure a : ExceptT ε (StateM σ) α) := fun _ => rfl

theorem throw (e : ε) : Keeps view (throw e : ExceptT ε (StateM σ) α) := fun _ => rfl

theorem modifyGet {f : σ → α × σ} (h : ∀ s, view (f s).2 = view s) :
    Keeps view (modifyGet f : ExceptT ε (StateM σ) α) := h

theorem bind {x : ExceptT ε (StateM σ) α} {f : α → ExceptT ε (StateM σ) β} (hx : Keeps view x)
    (hf : ∀ a, Keeps view (f a)) : Keeps view (x >>= f) := by
  intro s
  have hfirst := hx s
  rw [run_bind]
  rcases hrun : x.run.run s with ⟨r, t⟩
  rw [hrun] at hfirst
  cases r with
  | ok a => exact (hf a t).trans hfirst
  | error e => exact hfirst

theorem mapM {f : α → ExceptT ε (StateM σ) β} (as : List α) (hf : ∀ a, Keeps view (f a)) :
    Keeps view (as.mapM f) := by
  induction as with
  | nil => exact pure []
  | cons a as ih =>
    rw [List.mapM_cons]
    exact (hf a).bind fun b => ih.bind fun bs => pure (b :: bs)

theorem foldlM {f : β → α → ExceptT ε (StateM σ) β} (as : List α) (b : β)
    (hf : ∀ b a, Keeps view (f b a)) : Keeps view (as.foldlM f b) := by
  induction as generalizing b with
  | nil => exact pure b
  | cons a as ih =>
    rw [List.foldlM_cons]
    exact (hf b a).bind fun c => ih c

/-- What is kept is kept in each of its parts. -/
theorem comp {x : ExceptT ε (StateM σ) α} (h : Keeps view x) (f : γ → δ) :
    Keeps (fun s => f (view s)) x :=
  fun s => congrArg f (h s)

end Keeps

end

namespace ReadingState

/-- The styles of the open scopes and the path. -/
def surroundings (s : ReadingState) : List Style × List String := (s.styles, s.path)

/-- The same without the innermost scope, which properties change. -/
def outerSurroundings (s : ReadingState) : List Style × List String := (s.styles.tail, s.path)

theorem Delivers.surroundings_eq {s t : ReadingState} {es : List FieldEvent} {ns : List Node}
    (h : s.Delivers t .empty es ns) : t.surroundings = s.surroundings :=
  Prod.ext h.styles_eq h.path

theorem tail_styles_mergeStyle (style : Style) (s : ReadingState) :
    (s.mergeStyle style).styles.tail = s.styles.tail := by
  rw [mergeStyle]
  cases s.styles <;> rfl

end ReadingState

namespace Reading

open ReadingState

variable {α : Type} {x : Reading α} (notes : Notes)

/-- What is done inside of a scope may change the scope, but no other one. -/
theorem keeps_inScope (h : Keeps outerSurroundings x) : Keeps surroundings (inScope x) := by
  intro s
  rw [run_inScope]
  exact h { s with styles := .empty :: s.styles }

theorem keeps_within (e : Element) (index : Nat) (h : Keeps surroundings x) :
    Keeps surroundings (within e index x) := by
  intro s
  have hinner := h { s with path := step e index :: s.path }
  obtain ⟨hstyles, hpath⟩ := Prod.mk.inj hinner
  rw [run_within]
  exact Prod.ext hstyles (congrArg List.tail hpath)

theorem keeps_outerSurroundings (h : Keeps surroundings x) : Keeps outerSurroundings x :=
  h.comp fun p => (p.1.tail, p.2)

theorem keeps_note (n : Notice) : Keeps surroundings (modify (ReadingState.note n) : Reading Unit) :=
  .modifyGet fun _ => rfl

theorem keeps_emit (n : Node) : Keeps surroundings (emit n) :=
  .modifyGet fun s => (s.delivers_emit n).surroundings_eq

theorem keeps_emitText (data : String) : Keeps surroundings (emitText data) :=
  .modifyGet fun s => (s.delivers_emit _).surroundings_eq

theorem keeps_emitSymbol (font : Option String) (code : String) :
    Keeps surroundings (emitSymbol font code) := by
  rw [emitSymbol]
  split
  · exact (keeps_note _).bind fun _ => keeps_emitText _
  · exact keeps_emitText _

theorem keeps_emitNote (kind : NoteKind) (id : String) : Keeps surroundings (emitNote notes kind id) := by
  rw [emitNote]
  split
  · exact keeps_emit _
  · exact .modifyGet fun s => ((s.delivers_note _).before (delivers_emit _ _)).surroundings_eq

theorem keeps_readFieldMark (type : String) : Keeps surroundings (readFieldMark type) := by
  rw [readFieldMark]
  split
  · rename_i mark _
    exact .modifyGet fun s => (s.delivers_applyMark mark).surroundings_eq
  · have hget : Keeps surroundings (get : Reading ReadingState) := fun _ => rfl
    exact hget.bind fun s => .throw _

/-- Properties go to the innermost scope. -/
theorem keeps_readProperties (block : Element) : Keeps outerSurroundings (readProperties block) :=
  .modifyGet fun s => Prod.ext (tail_styles_mergeStyle _ (s.noteAll _)) rfl

theorem keeps_readRunChild (child : Element) (index : Nat) :
    Keeps outerSurroundings (readRunChild notes child index) := by
  rw [readRunChild]
  cases child.runItem with
  | properties => exact (keeps_readProperties child).bind fun _ => .pure []
  | text data => exact keeps_outerSurroundings (keeps_emitText data)
  | symbol font code => exact keeps_outerSurroundings (keeps_emitSymbol font code)
  | note kind id => exact keeps_outerSurroundings (keeps_emitNote notes kind id)
  | instruction text =>
    have hadd : Keeps surroundings (modify (ReadingState.addInstruction text) : Reading Unit) :=
      .modifyGet fun s => (s.delivers_addInstruction text).surroundings_eq
    exact keeps_outerSurroundings (hadd.bind fun _ => .pure [])
  | fieldMark type => exact keeps_outerSurroundings (keeps_within child index (keeps_readFieldMark type))
  | silent => exact .pure []
  | other => exact keeps_outerSurroundings ((keeps_note _).bind fun _ => .pure [])

theorem keeps_readRun (run : Element) : Keeps surroundings (readRun notes run) := by
  have hchildren := Keeps.mapM run.childElements.zipIdx fun c => keeps_readRunChild notes c.1 c.2
  exact keeps_inScope (hchildren.bind fun nodes => .pure nodes.flatten)

theorem keeps_readHyperlinkChild (child : Element) (index : Nat) :
    Keeps surroundings (readHyperlinkChild notes child index) := by
  rw [readHyperlinkChild]
  split
  · exact keeps_within child index (keeps_readRun notes child)
  · exact (keeps_note _).bind fun _ => .pure []

theorem keeps_readHyperlink (link : Element) : Keeps surroundings (readHyperlink notes link) := by
  have hchildren := Keeps.mapM link.childElements.zipIdx
    fun c => keeps_readHyperlinkChild notes c.1 c.2
  exact hchildren.bind fun nodes => .pure nodes.flatten

theorem keeps_readRole (block : Element) (draft : Draft) : Keeps surroundings (readRole block draft) := by
  rw [readRole]
  split
  · exact .pure draft
  · split
    · exact .pure _
    · exact (keeps_note _).bind fun _ => .pure draft

theorem keeps_readParagraphChild (draft : Draft) (child : Element) (index : Nat) :
    Keeps outerSurroundings (readParagraphChild notes draft child index) := by
  rw [readParagraphChild]
  cases child.paragraphItem with
  | properties =>
    exact (keeps_readProperties child).bind fun _ => keeps_outerSurroundings (keeps_readRole child draft)
  | run =>
    have hrun := keeps_outerSurroundings (keeps_within child index (keeps_readRun notes child))
    exact hrun.bind fun nodes => .pure (draft.append nodes)
  | hyperlink =>
    have hlink := keeps_outerSurroundings (keeps_within child index (keeps_readHyperlink notes child))
    exact hlink.bind fun nodes => .pure (draft.append nodes)
  | bookmark b =>
    cases b with
    | none => exact .pure draft
    | some b => exact .pure (draft.addLabel b.name)
  | silent => exact .pure draft
  | other => exact keeps_outerSurroundings ((keeps_note _).bind fun _ => .pure draft)

theorem keeps_readParagraph (paragraph : Element) : Keeps surroundings (readParagraph notes paragraph) := by
  have hchildren := Keeps.foldlM paragraph.childElements.zipIdx Draft.start
    fun d c => keeps_readParagraphChild notes d c.1 c.2
  have hclose : Keeps outerSurroundings (modifyGet ReadingState.closeFields : Reading (List Node)) :=
    .modifyGet fun _ => rfl
  exact keeps_inScope (hchildren.bind fun draft => hclose.bind fun rest =>
    .pure (Node.group (draft.append rest).role (draft.append rest).body))

theorem keeps_readBlock (body child : Element) (index : Nat) :
    Keeps surroundings (readBlock notes body child index) := by
  rw [readBlock]
  split
  · exact (keeps_within child index (keeps_readParagraph notes child)).bind fun n => .pure [n]
  · split
    · exact .pure []
    · have hnote : Keeps surroundings (modify fun s : ReadingState =>
          s.note (.blockSkipped s.part body.name child.localName) : Reading Unit) :=
        .modifyGet fun _ => rfl
      exact hnote.bind fun _ => .pure []

theorem keeps_readBody (body : Element) : Keeps surroundings (readBody notes body) := by
  have hblocks := Keeps.mapM body.childElements.zipIdx fun c => keeps_readBlock notes body c.1 c.2
  exact hblocks.bind fun nodes => .pure nodes.flatten

/-- Whether or not a body, a paragraph or a run can be read, the styles and the path are afterwards as
they were before. A paragraph that can be read leaves no field open, whatever was open before it. -/
theorem surroundings_of_readers (e : Element) :
    Keeps surroundings (readBody notes e) ∧ Keeps surroundings (readParagraph notes e) ∧
      Keeps surroundings (readRun notes e) ∧
      ∀ s n s', (readParagraph notes e).run.run s = (.ok n, s') → s'.fields = [] := by
  refine ⟨keeps_readBody notes e, keeps_readParagraph notes e, keeps_readRun notes e, ?_⟩
  intro s n s' hread
  obtain ⟨-, hfields, -⟩ := runs_readParagraph hread
  exact hfields

/-- A state in the middle of a paragraph: two fields are open, one inside of the other. -/
def midParagraph : ReadingState := ⟨"a", [.bold, .italic, .empty], [.start, .start], ["b[2]", "c[1]"], []⟩

theorem surroundings_of_nestedFieldsParagraph :
    ∃ n s', (readParagraph .empty nestedFieldsParagraph).run.run midParagraph = (.ok n, s') ∧
      s'.fields = [] ∧ s'.surroundings = midParagraph.surroundings := by
  obtain ⟨n, s', hread⟩ := (succeedsIff_readParagraph .empty nestedFieldsParagraph midParagraph).mpr
    (by decide +kernel)
  obtain ⟨-, hkeeps, -, hfields⟩ := surroundings_of_readers .empty nestedFieldsParagraph
  have hkept := hkeeps midParagraph
  rw [show (readParagraph .empty nestedFieldsParagraph).run.run midParagraph = (.ok n, s') from hread]
    at hkept
  exact ⟨n, s', hread, hfields midParagraph n s' hread, hkept⟩

end Reading

end WordTex
