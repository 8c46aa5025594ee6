import WordTex.Proofs.FieldEvents
import WordTex.Proofs.ReadingRuns
import WordTex.Proofs.StyleFlags

/-! # The events of runs and paragraphs

A paragraph that can be read has a list of events, which depends on its elements, on the notes and on
the styles around it, and which says all about its nodes. -/
namespace WordTex

open Reading ReadingState

/-- The node of a citation. -/
def Notes.citation (notes : Notes) (kind : NoteKind) (id : String) : Node :=
  match notes.get? kind id with
  | some body => .note kind (some id) body
  | none => .unresolved kind id

section Events

variable (notes : Notes)

/-- What a child of a run does, with this style around it. -/
def runChildEvents (style : Style) (child : Element) : List FieldEvent :=
  match child.runItem with
  | .text data => [.node (.text ⟨data, style⟩)]
  | .symbol font code => [.node (.text ⟨symbolText font code, style⟩)]
  | .note kind id => [.node (notes.citation kind id)]
  | .instruction text => [.instruction text]
  | .fieldMark type => (FieldMark.ofType? type).toList.map .mark
  | .properties => []
  | .silent => []
  | .other => []

/-- The style that a child of a run adds for those after it. -/
def runChildStyle (child : Element) : Style :=
  match child.runItem with
  | .properties => child.propertyStyles
  | _ => .empty

def runEvents : Style → List Element → List FieldEvent
  | _, [] => []
  | style, c :: cs => runChildEvents notes style c ++ runEvents (style.union (runChildStyle c)) cs

/-- Only the runs of a hyperlink are read. -/
def hyperlinkEvents (style : Style) (children : List Element) : List FieldEvent :=
  children.flatMap fun c => if c.localName = "r" then runEvents notes style c.childElements else []

def paragraphChildEvents (style : Style) (child : Element) : List FieldEvent :=
  match child.paragraphItem with
  | .run => runEvents notes style child.childElements
  | .hyperlink => hyperlinkEvents notes style child.childElements
  | _ => []

/-- The style that a child of a paragraph adds for those after it. -/
def paragraphChildStyle (child : Element) : Style :=
  match child.paragraphItem with
  | .properties => child.propertyStyles
  | _ => .empty

def paragraphEvents : Style → List Element → List FieldEvent
  | _, [] => []
  | style, c :: cs =>
    paragraphChildEvents notes style c ++ paragraphEvents (style.union (paragraphChildStyle c)) cs

end Events

/-- The role after a child of a paragraph. -/
def roleAfter (role : Role) (child : Element) : Role :=
  match child.paragraphItem with
  | .properties => (child.styleId?.bind Role.ofStyleId?).getD role
  | _ => role

theorem Role.isParagraph_of_ofStyleId? {id : String} {role : Role} (h : Role.ofStyleId? id = some role) :
    role.isParagraph = true := by
  simp only [Role.ofStyleId?] at h
  split at h <;> cases h <;> rfl

theorem isParagraph_roleAfter {role : Role} (hrole : role.isParagraph = true) (child : Element) :
    (roleAfter role child).isParagraph = true := by
  rw [roleAfter]
  split
  · cases h : child.styleId?.bind Role.ofStyleId? with
    | none => exact hrole
    | some found =>
      obtain ⟨id, -, hid⟩ := Option.bind_eq_some_iff.mp h
      exact Role.isParagraph_of_ofStyleId? hid
  · exact hrole

/-- A paragraph is never taken for a field. -/
theorem isParagraph_foldl_roleAfter {role : Role} (hrole : role.isParagraph = true)
    (children : List Element) : (children.foldl roleAfter role).isParagraph = true := by
  induction children generalizing role with
  | nil => exact hrole
  | cons c cs ih => exact ih (isParagraph_roleAfter hrole c)

/-- The label that a child of a paragraph is. -/
def label? (child : Element) : Option String :=
  match child.paragraphItem with
  | .bookmark b => b.map Bookmark.name
  | _ => none

namespace Element

/-- The runs that a child of a paragraph is or has. -/
def runsOfChild (child : Element) : List Element :=
  match child.localName with
  | "r" => [child]
  | "hyperlink" => child.childElements.filter (·.localName == "r")
  | _ => []

/-- The children of the runs of a paragraph and of its hyperlinks. -/
def runChildren (paragraph : Element) : List Element :=
  (paragraph.childElements.flatMap runsOfChild).flatMap childElements

end Element

/-- The runs that a child of a paragraph is or has, by what it is read as. -/
def ParagraphItem.runs (child : Element) : ParagraphItem → List Element
  | run => [child]
  | hyperlink => child.childElements.filter (·.localName == "r")
  | _ => []

theorem Element.runs_paragraphItem (child : Element) :
    child.paragraphItem.runs child = child.runsOfChild := by
  rw [Element.paragraphItem, Element.runsOfChild]
  split <;> simp_all [ParagraphItem.runs]

theorem hyperlinkEvents_eq_flatMap (notes : Notes) (style : Style) (children : List Element) :
    hyperlinkEvents notes style children =
      (children.filter (·.localName == "r")).flatMap fun run =>
        runEvents notes style run.childElements := by
  induction children with
  | nil => rfl
  | cons c cs ih =>
    rw [hyperlinkEvents, List.flatMap_cons, ← hyperlinkEvents, ih]
    by_cases hname : c.localName = "r"
    · rw [if_pos hname, List.filter_cons_of_pos (by simpa using hname), List.flatMap_cons]
    · rw [if_neg hname, List.filter_cons_of_neg (by simpa using hname), List.nil_append]

/-- The events of a child of a paragraph are those of its runs, each with the same style around it. -/
theorem paragraphChildEvents_eq_flatMap (notes : Notes) (style : Style) (child : Element) :
    paragraphChildEvents notes style child =
      child.runsOfChild.flatMap fun run => runEvents notes style run.childElements := by
  rw [← Element.runs_paragraphItem, paragraphChildEvents]
  cases child.paragraphItem with
  | run => simp [ParagraphItem.runs]
  | hyperlink => exact hyperlinkEvents_eq_flatMap notes style child.childElements
  | _ => rfl

section

variable {α : Type} {notes : Notes} {g : FieldEvent → List α} {h : Element → List α}
  (hg : ∀ style child, (runChildEvents notes style child).flatMap g = h child)

include hg

theorem flatMap_runEvents (style : Style) (children : List Element) :
    (runEvents notes style children).flatMap g = children.flatMap h := by
  induction children generalizing style with
  | nil => rfl
  | cons c cs ih => rw [runEvents, List.flatMap_append, hg, ih, List.flatMap_cons]

theorem flatMap_paragraphChildEvents (style : Style) (child : Element) :
    (paragraphChildEvents notes style child).flatMap g =
      (child.runsOfChild.flatMap Element.childElements).flatMap h := by
  rw [paragraphChildEvents_eq_flatMap, List.flatMap_assoc, List.flatMap_assoc]
  exact List.flatMap_congr fun run _ => flatMap_runEvents hg style run.childElements

/-- What all events of a paragraph carry is what the children of its runs carry, in order. -/
theorem flatMap_paragraphEvents (style : Style) (paragraph : Element) :
    (paragraphEvents notes style paragraph.childElements).flatMap g =
      paragraph.runChildren.flatMap h := by
  rw [Element.runChildren]
  induction paragraph.childElements generalizing style with
  | nil => rfl
  | cons c cs ih =>
    rw [paragraphEvents, List.flatMap_append, flatMap_paragraphChildEvents hg, ih,
      List.flatMap_cons, List.flatMap_append, List.flatMap_append]

end

/-- What holds of the events of all children of runs holds of the events of a paragraph. -/
theorem forall_mem_paragraphEvents {notes : Notes} {P : FieldEvent → Prop}
    (hP : ∀ style child, ∀ e ∈ runChildEvents notes style child, P e) (style : Style)
    (paragraph : Element) : ∀ e ∈ paragraphEvents notes style paragraph.childElements, P e := by
  classical
  -- the events without the property are none for each child, and so for all
  have hchild : ∀ style child,
      (runChildEvents notes style child).flatMap (fun e => if P e then [] else [e]) = [] := by
    intro style child
    rw [List.flatMap_eq_nil_iff]
    exact fun e he => if_pos (hP style child e he)
  have hall := flatMap_paragraphEvents (h := fun _ => []) hchild style paragraph
  intro e he
  by_contra hnot
  have hnone := List.flatMap_eq_nil_iff.mp (hall.trans (by simp)) e he
  rw [if_neg hnot] at hnone
  exact List.cons_ne_nil e [] hnone

variable {notes : Notes} {s s' : ReadingState} {ns : List Node}

theorem delivers_of_emit {n : Node} (h : Runs (Reading.emit n) s ns s') :
    s.Delivers s' .empty [.node n] ns := by
  have hemit := runs_modifyGet.mp h
  have hdelivers := s.delivers_emit n
  rwa [← hemit] at hdelivers

theorem delivers_readProperties {block : Element} {u : Unit}
    (h : Runs (readProperties block) s u s') : s.Delivers s' block.propertyStyles [] [] := by
  obtain rfl := runs_modify.mp h
  exact ⟨rfl, rfl, rfl, rfl⟩

theorem delivers_emitText {data : String} (h : Runs (emitText data) s ns s') :
    s.Delivers s' .empty [.node (.text ⟨data, s.currentStyle⟩)] ns := by
  have hemit := runs_modifyGet.mp h
  have hdelivers := s.delivers_emit (.text ⟨data, s.currentStyle⟩)
  rwa [← hemit] at hdelivers

theorem delivers_emitSymbol {font : Option String} {code : String}
    (h : Runs (emitSymbol font code) s ns s') :
    s.Delivers s' .empty [.node (.text ⟨symbolText font code, s.currentStyle⟩)] ns := by
  rw [emitSymbol] at h
  split at h
  · obtain ⟨u, t, hnote, htext⟩ := runs_bind.mp h
    obtain rfl := runs_modify.mp hnote
    exact (s.delivers_note _).before (delivers_emitText htext)
  · simpa using delivers_emitText h

theorem delivers_emitNote {kind : NoteKind} {id : String} (h : Runs (emitNote notes kind id) s ns s') :
    s.Delivers s' .empty [.node (notes.citation kind id)] ns := by
  rw [emitNote] at h
  rw [Notes.citation]
  cases hbody : notes.get? kind id with
  | some body =>
    simp only [hbody] at h
    exact delivers_of_emit h
  | none =>
    simp only [hbody] at h
    have hemit := runs_modifyGet.mp h
    have hdelivers := (s.delivers_note (.unknownNote kind id s.place)).before
      (delivers_emit _ (.unresolved kind id))
    rwa [← hemit] at hdelivers

theorem delivers_readFieldMark {type : String} (h : Runs (readFieldMark type) s ns s') :
    s.Delivers s' .empty ((FieldMark.ofType? type).toList.map .mark) ns := by
  rw [readFieldMark] at h
  split at h
  · rename_i mark hmark
    have hmarked := runs_modifyGet.mp h
    have hdelivers := s.delivers_applyMark mark
    rw [← hmarked] at hdelivers
    simpa [hmark] using hdelivers
  · obtain ⟨t, t', -, hthrow⟩ := runs_bind.mp h
    exact (not_runs_throw hthrow).elim

/-- What happens at an element's path happens to the state. -/
theorem delivers_within {e : Element} {index : Nat} {x : Reading (List Node)} {style : Style}
    {es : List FieldEvent} (h : Runs (within e index x) s ns s')
    (hx : ∀ t t', t.currentStyle = s.currentStyle → t.styles = s.styles → Runs x t ns t' →
      t.Delivers t' style es ns) : s.Delivers s' style es ns := by
  obtain ⟨t, ht, rfl⟩ := runs_within.mp h
  have hdelivers := hx { s with path := step e index :: s.path } t rfl rfl ht
  refine ⟨hdelivers.fields, hdelivers.styles, hdelivers.part, ?_⟩
  change t.path.tail = s.path
  rw [hdelivers.path]
  rfl

theorem delivers_readRunChild {child : Element} {index : Nat}
    (h : Runs (readRunChild notes child index) s ns s') :
    s.Delivers s' (runChildStyle child) (runChildEvents notes s.currentStyle child) ns := by
  rw [readRunChild] at h
  rw [runChildStyle, runChildEvents]
  cases hitem : child.runItem with
  | properties =>
    rw [hitem] at h
    obtain ⟨u, t, hread, hpure⟩ := runs_bind.mp h
    obtain ⟨rfl, rfl⟩ := runs_pure.mp hpure
    exact delivers_readProperties hread
  | text data =>
    rw [hitem] at h
    exact delivers_emitText h
  | symbol font code =>
    rw [hitem] at h
    exact delivers_emitSymbol h
  | note kind id =>
    rw [hitem] at h
    exact delivers_emitNote h
  | instruction text =>
    rw [hitem] at h
    obtain ⟨u, t, hadd, hpure⟩ := runs_bind.mp h
    obtain rfl := runs_modify.mp hadd
    obtain ⟨rfl, rfl⟩ := runs_pure.mp hpure
    exact s.delivers_addInstruction text
  | fieldMark type =>
    rw [hitem] at h
    exact delivers_within h fun t t' _ _ hread => delivers_readFieldMark hread
  | silent =>
    rw [hitem] at h
    obtain ⟨rfl, rfl⟩ := runs_pure.mp h
    exact .refl s'
  | other =>
    rw [hitem] at h
    obtain ⟨u, t, hnote, hpure⟩ := runs_bind.mp h
    obtain rfl := runs_modify.mp hnote
    obtain ⟨rfl, rfl⟩ := runs_pure.mp hpure
    exact s.delivers_note _

/-- The style of a run: what its properties add up to. -/
def runStyle (children : List Element) : Style := Style.unionAll (children.map runChildStyle)

theorem delivers_runChildren {children : List Element} {index : Nat} {nss : List (List Node)}
    (hs : s.styles ≠ [])
    (h : Runs ((children.zipIdx index).mapM fun (child, i) => readRunChild notes child i) s nss s') :
    s.Delivers s' (runStyle children) (runEvents notes s.currentStyle children) nss.flatten := by
  induction children generalizing s index nss with
  | nil =>
    obtain ⟨rfl, rfl⟩ := runs_mapM_nil.mp h
    exact .refl s'
  | cons c cs ih =>
    rw [List.zipIdx_cons] at h
    obtain ⟨ns, t, nss', hchild, hrest, rfl⟩ := runs_mapM_cons.mp h
    have hfirst := delivers_readRunChild hchild
    obtain ⟨hcurrent, ht⟩ := hfirst.currentStyle hs
    have := hfirst.trans (ih ht hrest)
    rw [hcurrent, runStyle, ← Style.unionAll_cons] at this
    exact this

/-- A run adds nothing to the styles around it. -/
theorem delivers_readRun {run : Element} (h : Runs (readRun notes run) s ns s') :
    s.Delivers s' .empty (runEvents notes s.currentStyle run.childElements) ns := by
  obtain ⟨t, hinner, rfl⟩ := runs_inScope.mp h
  obtain ⟨nss, t', hchildren, hpure⟩ := runs_bind.mp hinner
  obtain ⟨rfl, rfl⟩ := runs_pure.mp hpure
  have hdelivers := delivers_runChildren (List.cons_ne_nil _ _) hchildren
  rw [currentStyle_newScope] at hdelivers
  refine .of_styles_eq hdelivers.fields ?_ hdelivers.part hdelivers.path
  change t.styles.tail = s.styles
  rw [hdelivers.styles]
  rfl

theorem delivers_readHyperlinkChild {child : Element} {index : Nat}
    (h : Runs (readHyperlinkChild notes child index) s ns s') :
    s.Delivers s' .empty
      (if child.localName = "r" then runEvents notes s.currentStyle child.childElements else []) ns := by
  rw [readHyperlinkChild] at h
  split at h <;> rename_i hname
  · rw [if_pos hname]
    refine delivers_within h fun t t' hcurrent _ hrun => ?_
    rw [← hcurrent]
    exact delivers_readRun hrun
  · obtain ⟨u, t, hnote, hpure⟩ := runs_bind.mp h
    obtain rfl := runs_modify.mp hnote
    obtain ⟨rfl, rfl⟩ := runs_pure.mp hpure
    rw [if_neg hname]
    exact s.delivers_note _

theorem delivers_hyperlinkChildren {children : List Element} {index : Nat} {nss : List (List Node)}
    (h : Runs ((children.zipIdx index).mapM fun (child, i) => readHyperlinkChild notes child i)
      s nss s') :
    s.Delivers s' .empty (hyperlinkEvents notes s.currentStyle children) nss.flatten := by
  induction children generalizing s index nss with
  | nil =>
    obtain ⟨rfl, rfl⟩ := runs_mapM_nil.mp h
    exact .refl s'
  | cons c cs ih =>
    rw [List.zipIdx_cons] at h
    obtain ⟨ns, t, nss', hchild, hrest, rfl⟩ := runs_mapM_cons.mp h
    have hfirst := delivers_readHyperlinkChild hchild
    have := hfirst.trans (ih hrest)
    rwa [currentStyle_of_styles_eq hfirst.styles_eq, Style.empty_union] at this

theorem delivers_readHyperlink {link : Element} (h : Runs (readHyperlink notes link) s ns s') :
    s.Delivers s' .empty (hyperlinkEvents notes s.currentStyle link.childElements) ns := by
  obtain ⟨nss, t, hchildren, hpure⟩ := runs_bind.mp h
  obtain ⟨rfl, rfl⟩ := runs_pure.mp hpure
  exact delivers_hyperlinkChildren hchildren

/-- A draft after a child with these nodes. -/
def Reading.Draft.after (d : Draft) (child : Element) (nodes : List Node) : Draft :=
  ⟨roleAfter d.role child, ⟨d.body.children ++ nodes, d.body.labels ++ (label? child).toList⟩⟩

theorem runs_readRole {block : Element} {d d' : Draft} (h : Runs (readRole block d) s d' s') :
    d' = { d with role := (block.styleId?.bind Role.ofStyleId?).getD d.role } ∧
      s.Delivers s' .empty [] [] := by
  rw [readRole] at h
  cases hstyle : block.styleId? with
  | none =>
    simp only [hstyle] at h
    obtain ⟨rfl, rfl⟩ := runs_pure.mp h
    exact ⟨rfl, .refl s'⟩
  | some style =>
    simp only [hstyle] at h
    cases hrole : Role.ofStyleId? style with
    | some role =>
      simp only [hrole] at h
      obtain ⟨rfl, rfl⟩ := runs_pure.mp h
      exact ⟨by simp [hrole], .refl s'⟩
    | none =>
      simp only [hrole] at h
      obtain ⟨u, t, hnote, hpure⟩ := runs_bind.mp h
      obtain rfl := runs_modify.mp hnote
      obtain ⟨rfl, rfl⟩ := runs_pure.mp hpure
      exact ⟨by simp [hrole], s.delivers_note _⟩

theorem runs_readParagraphChild {d d' : Draft} {child : Element} {index : Nat}
    (h : Runs (readParagraphChild notes d child index) s d' s') :
    ∃ ns, d' = d.after child ns ∧
      s.Delivers s' (paragraphChildStyle child) (paragraphChildEvents notes s.currentStyle child) ns := by
  obtain ⟨role, children, labels⟩ := d
  rw [readParagraphChild] at h
  simp only [Draft.after, roleAfter, label?, paragraphChildStyle, paragraphChildEvents]
  cases hitem : child.paragraphItem with
  | properties =>
    rw [hitem] at h
    obtain ⟨u, t, hread, hrole⟩ := runs_bind.mp h
    obtain ⟨rfl, hdelivers⟩ := runs_readRole hrole
    refine ⟨[], by simp, ?_⟩
    have := (delivers_readProperties hread).trans hdelivers
    rwa [Style.union_empty] at this
  | run =>
    rw [hitem] at h
    obtain ⟨ns, t, hread, hpure⟩ := runs_bind.mp h
    obtain ⟨rfl, rfl⟩ := runs_pure.mp hpure
    refine ⟨ns, by simp [Draft.append], delivers_within hread fun t t' hcurrent _ hrun => ?_⟩
    rw [← hcurrent]
    exact delivers_readRun hrun
  | hyperlink =>
    rw [hitem] at h
    obtain ⟨ns, t, hread, hpure⟩ := runs_bind.mp h
    obtain ⟨rfl, rfl⟩ := runs_pure.mp hpure
    refine ⟨ns, by simp [Draft.append], delivers_within hread fun t t' hcurrent _ hlink => ?_⟩
    rw [← hcurrent]
    exact delivers_readHyperlink hlink
  | bookmark b =>
    rw [hitem] at h
    cases b with
    | none =>
      obtain ⟨rfl, rfl⟩ := runs_pure.mp h
      exact ⟨[], by simp, .refl s'⟩
    | some b =>
      obtain ⟨rfl, rfl⟩ := runs_pure.mp h
      exact ⟨[], by simp [Draft.addLabel, Container.addLabel], .refl s'⟩
  | silent =>
    rw [hitem] at h
    obtain ⟨rfl, rfl⟩ := runs_pure.mp h
    exact ⟨[], by simp, .refl s'⟩
  | other =>
    rw [hitem] at h
    obtain ⟨u, t, hnote, hpure⟩ := runs_bind.mp h
    obtain rfl := runs_modify.mp hnote
    obtain ⟨rfl, rfl⟩ := runs_pure.mp hpure
    exact ⟨[], by simp, s.delivers_note _⟩

/-- The style of a paragraph: what its properties add up to. -/
def paragraphStyle (children : List Element) : Style :=
  Style.unionAll (children.map paragraphChildStyle)

theorem runs_paragraphChildren {children : List Element} {index : Nat} {d d' : Draft}
    (hs : s.styles ≠ [])
    (h : Runs ((children.zipIdx index).foldlM
      (fun d (child, i) => readParagraphChild notes d child i) d) s d' s') :
    ∃ ns, d' = ⟨children.foldl roleAfter d.role,
        ⟨d.body.children ++ ns, d.body.labels ++ children.filterMap label?⟩⟩ ∧
      s.Delivers s' (paragraphStyle children) (paragraphEvents notes s.currentStyle children) ns := by
  induction children generalizing s index d with
  | nil =>
    obtain ⟨rfl, rfl⟩ := runs_pure.mp h
    obtain ⟨role, children, labels⟩ := d'
    exact ⟨[], by simp, .refl s'⟩
  | cons c cs ih =>
    rw [List.zipIdx_cons] at h
    obtain ⟨e, t, hchild, hrest⟩ := runs_foldlM_cons.mp h
    obtain ⟨ns, rfl, hfirst⟩ := runs_readParagraphChild hchild
    obtain ⟨hcurrent, ht⟩ := hfirst.currentStyle hs
    obtain ⟨ns', rfl, hothers⟩ := ih ht hrest
    refine ⟨ns ++ ns', ?_, ?_⟩
    · cases hlabel : label? c <;> simp [Draft.after, hlabel]
    · have := hfirst.trans hothers
      rw [hcurrent, paragraphStyle, ← Style.unionAll_cons] at this
      exact this

/-- The node that a paragraph is read as, with these fields open and this style around it. -/
def paragraphNode (notes : Notes) (fields : List OpenField) (style : Style) (paragraph : Element) :
    Node :=
  .group (paragraph.childElements.foldl roleAfter .plain)
    ⟨FieldEvent.deliver fields (paragraphEvents notes style paragraph.childElements),
      paragraph.childElements.filterMap label?⟩

/-- A paragraph that can be read is read as the node of its events. It leaves no field open, and
styles and path are as they were. -/
theorem runs_readParagraph {paragraph : Element} {n : Node}
    (h : Runs (readParagraph notes paragraph) s n s') :
    n = paragraphNode notes s.fields s.currentStyle paragraph ∧ s'.fields = [] ∧
      s'.styles = s.styles ∧ s'.part = s.part ∧ s'.path = s.path := by
  obtain ⟨t, hinner, rfl⟩ := runs_inScope.mp h
  obtain ⟨d, u, hchildren, hclose⟩ := runs_bind.mp hinner
  obtain ⟨rest, v, hrest, hpure⟩ := runs_bind.mp hclose
  obtain ⟨rfl, rfl⟩ := runs_pure.mp hpure
  obtain ⟨ns, rfl, hdelivers⟩ := runs_paragraphChildren (List.cons_ne_nil _ _) hchildren
  rw [currentStyle_newScope] at hdelivers
  obtain ⟨rfl, rfl⟩ := Prod.mk.inj (runs_modifyGet.mp hrest)
  refine ⟨?_, rfl, ?_, hdelivers.part, hdelivers.path⟩
  · have hfeed := hdelivers.fields
    dsimp only at hfeed
    simp [paragraphNode, FieldEvent.deliver, hfeed, Draft.append, Draft.start, Container.empty]
  · change u.styles.tail = s.styles
    rw [hdelivers.styles]
    rfl

/-- A paragraph with a run, a hyperlink and another run. A cross-reference begins in the first run and
ends in the last; another field begins in the hyperlink and ends in the last run as well. -/
def nestedFieldsParagraph : Element :=
  let element (name : String) (contents : List XmlContent) : XmlContent := .element ⟨name, [], contents⟩
  let mark (type : String) : XmlContent := .element ⟨"w:fldChar", [("w:fldCharType", type)], []⟩
  ⟨"w:p", [],
    [element "w:r" [mark "begin", element "w:instrText" [.text " REF a "], mark "separate"],
      element "w:hyperlink" [element "w:r" [element "w:t" [.text "(3"], mark "begin"]],
      element "w:r" [element "w:t" [.text ")"], mark "end", mark "end", element "w:tab" []]]⟩

theorem exists_readParagraph_nestedFieldsParagraph :
    ∃ n s', (readParagraph .empty nestedFieldsParagraph).run.run (.start "a" []) = (.ok n, s') := by
  have hok : ((readParagraph .empty nestedFieldsParagraph).run.run (.start "a" [])).1.toBool = true := by
    decide +kernel
  rcases hrun : (readParagraph .empty nestedFieldsParagraph).run.run (.start "a" []) with ⟨r, s'⟩
  rw [hrun] at hok
  cases r with
  | error e => simp [Except.toBool] at hok
  | ok n => exact ⟨n, s', rfl⟩

end WordTex
