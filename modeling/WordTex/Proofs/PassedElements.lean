import WordTex.Proofs.EventStyles

/-! # What is reported of the elements in runs

The reader reports a citation without a note, and a mark or an instruction without a field around it.
What is reported of an element depends on how many fields the elements before it leave open, and on
nothing else that the reader has in its state. -/
namespace WordTex

open Reading ReadingState

/-- The notice is a warning or an error. -/
def Notice.isSerious (n : Notice) : Bool := n.level = .warn ∨ n.level = .error

/-- What does not depend on positions may be done without them. -/
theorem flatMap_zipIdx {α β : Type} (g : α → List β) (as : List α) :
    (as.zipIdx.flatMap fun (a, _) => g a) = as.flatMap g := by
  rw [← List.flatMap_map Prod.fst g, List.zipIdx_map_fst]

/-- An element and the path that it is read at, the innermost step first. -/
structure PlacedElement where
  element : Element
  path : List String

namespace Element

/-- Field marks have paths of their own; all else is read at the path of the run. -/
def placedInRun (path : List String) (e : Element) (index : Nat) : PlacedElement :=
  ⟨e, match e.runItem with
    | .fieldMark _ => step e index :: path
    | _ => path⟩

def placedRun (path : List String) (run : Element) (index : Nat) : List PlacedElement :=
  run.childElements.zipIdx.map fun (e, i) => e.placedInRun (step run index :: path) i

def placedLink (path : List String) (link : Element) (index : Nat) : List PlacedElement :=
  link.childElements.zipIdx.flatMap fun (run, i) =>
    if run.localName = "r" then run.placedRun (step link index :: path) i else []

def placedChild (path : List String) (child : Element) (index : Nat) : List PlacedElement :=
  match child.paragraphItem with
  | .run => child.placedRun path index
  | .hyperlink => child.placedLink path index
  | _ => []

/-- The children of the runs of a paragraph and of its hyperlinks, with their paths. -/
def placedRunChildren (path : List String) (paragraph : Element) : List PlacedElement :=
  paragraph.childElements.zipIdx.flatMap fun (child, i) => child.placedChild path i

theorem map_element_placedRun (path : List String) (run : Element) (index : Nat) :
    (run.placedRun path index).map PlacedElement.element = run.childElements := by
  rw [placedRun, List.map_map]
  exact List.zipIdx_map_fst 0 run.childElements

theorem map_element_placedLink (path : List String) (link : Element) (index : Nat) :
    (link.placedLink path index).map PlacedElement.element =
      (link.childElements.filter (·.localName == "r")).flatMap childElements := by
  have hrun : ∀ (run : Element) (i : Nat),
      (if run.localName = "r" then run.placedRun (step link index :: path) i else []).map
          PlacedElement.element = if run.localName = "r" then run.childElements else [] := by
    intro run i
    rw [apply_ite (List.map PlacedElement.element), map_element_placedRun]
    rfl
  rw [placedLink, List.map_flatMap]
  simp only [hrun]
  rw [flatMap_zipIdx fun run : Element => if run.localName = "r" then run.childElements else []]
  induction link.childElements with
  | nil => rw [List.flatMap_nil, List.filter_nil, List.flatMap_nil]
  | cons c cs ih =>
    rw [List.flatMap_cons, ih]
    by_cases hname : c.localName = "r" <;> simp [hname]

theorem map_element_placedRunChildren (path : List String) (paragraph : Element) :
    (paragraph.placedRunChildren path).map PlacedElement.element = paragraph.runChildren := by
  have hchild : ∀ (child : Element) (i : Nat), (child.placedChild path i).map PlacedElement.element =
      child.runsOfChild.flatMap childElements := by
    intro child i
    rw [← runs_paragraphItem, placedChild]
    cases child.paragraphItem with
    | run => simp [ParagraphItem.runs, map_element_placedRun]
    | hyperlink => exact map_element_placedLink path child i
    | _ => rfl
  rw [placedRunChildren, List.map_flatMap]
  simp only [hchild]
  rw [flatMap_zipIdx fun child : Element => child.runsOfChild.flatMap childElements, runChildren,
    List.flatMap_assoc]

end Element

namespace FieldMark

/-- How many fields are open after a mark, of so many before it. -/
def openAfter (opened : Nat) : FieldMark → Nat
  | opening => opened + 1
  | separator => opened
  | closing => opened - 1

/-- What is reported of a mark with so many open fields around it. -/
def report? (place : Place) (opened : Nat) : FieldMark → Option Notice
  | opening => none
  | separator => if opened = 0 then some (.separatorOutsideField place) else none
  | closing => if opened = 0 then some (.endOutsideField place) else none

end FieldMark

/-- How many fields are open after an element in a run, of so many before it. -/
def openFieldsAfter (opened : Nat) (e : Element) : Nat :=
  match e.runItem with
  | .fieldMark type => ((FieldMark.ofType? type).map (·.openAfter opened)).getD opened
  | _ => opened

/-- How many fields are open after these elements. -/
def openFields (es : List Element) : Nat := es.foldl openFieldsAfter 0

namespace PlacedElement

def place (part : String) (e : PlacedElement) : Place := ⟨part, "/".intercalate e.path.reverse⟩

/-- What is reported of an element in a run, with so many open fields around it: a citation without a
note, and where there is no field around it, an instruction, a separator or an end. -/
def report? (notes : Notes) (part : String) (opened : Nat) (e : PlacedElement) : Option Notice :=
  match e.element.runItem with
  | .note kind id =>
    if (notes.get? kind id).isNone then some (.unknownNote kind id (e.place part)) else none
  | .instruction text => if opened = 0 then some (.instructionOutsideField text (e.place part)) else none
  | .fieldMark type => (FieldMark.ofType? type).bind (·.report? (e.place part) opened)
  | _ => none

end PlacedElement

/-- The item is no citation, no instruction and no mark. -/
def RunItem.IsQuiet : RunItem → Prop
  | note _ _ => False
  | instruction _ => False
  | fieldMark _ => False
  | _ => True

section

variable (notes : Notes) (part : String)

/-- What is reported of elements that are read one after the other. -/
def reportsFrom : Nat → List PlacedElement → List Notice
  | _, [] => []
  | opened, e :: es =>
    (e.report? notes part opened).toList ++ reportsFrom (openFieldsAfter opened e.element) es

theorem reportsFrom_cons (opened : Nat) (e : PlacedElement) (es : List PlacedElement) :
    reportsFrom notes part opened (e :: es) = (e.report? notes part opened).toList ++
      reportsFrom notes part (openFieldsAfter opened e.element) es :=
  rfl

theorem reportsFrom_append (opened : Nat) (es es' : List PlacedElement) :
    reportsFrom notes part opened (es ++ es') = reportsFrom notes part opened es ++
      reportsFrom notes part (es.foldl (fun n e => openFieldsAfter n e.element) opened) es' :=
  scan_append (fun _ => rfl) (reportsFrom_cons notes part) opened es es'

theorem reportsFrom_eq_flatMap (opened : Nat) (es : List PlacedElement) :
    reportsFrom notes part opened es = es.zipIdx.flatMap fun (e, i) =>
      (e.report? notes part
        ((es.take i).foldl (fun n e => openFieldsAfter n e.element) opened)).toList :=
  scan_eq_flatMap (fun _ => rfl) (reportsFrom_cons notes part) opened es

/-- What is reported of the elements in the runs of a paragraph, each with the fields open that the
elements before it leave open. -/
def Element.runReports (path : List String) (paragraph : Element) : List Notice :=
  (paragraph.placedRunChildren path).zipIdx.flatMap fun (e, i) =>
    (e.report? notes part (openFields (paragraph.runChildren.take i))).toList

theorem Element.runReports_eq (path : List String) (paragraph : Element) :
    paragraph.runReports notes part path =
      reportsFrom notes part 0 (paragraph.placedRunChildren path) := by
  rw [reportsFrom_eq_flatMap, runReports]
  refine List.flatMap_congr fun (e, i) _ => ?_
  dsimp only
  rw [openFields, ← map_element_placedRunChildren path, ← List.map_take, List.foldl_map]

end

namespace ReadingState

/-- From one state to another the reader passes these elements: it reports of them what is to be
reported, and the fields are open that are open after them. -/
structure Passes (notes : Notes) (s s' : ReadingState) (es : List PlacedElement) : Prop where
  notices : ∃ new : List Notice, s'.notices = new.reverse ++ s.notices ∧
    new.filter Notice.isSerious = reportsFrom notes s.part s.fields.length es
  opened : s'.fields.length = es.foldl (fun n e => openFieldsAfter n e.element) s.fields.length
  part : s'.part = s.part
  path : s'.path = s.path

variable {notes : Notes} {s t u s' : ReadingState} {es es' : List PlacedElement} {e : PlacedElement}

theorem Passes.refl (notes : Notes) (s : ReadingState) : s.Passes notes s [] :=
  ⟨⟨[], rfl, rfl⟩, rfl, rfl, rfl⟩

theorem Passes.trans (h : s.Passes notes t es) (h' : t.Passes notes u es') :
    s.Passes notes u (es ++ es') := by
  obtain ⟨new, hnew, hreports⟩ := h.notices
  obtain ⟨new', hnew', hreports'⟩ := h'.notices
  refine ⟨⟨new ++ new', ?_, ?_⟩, ?_, h'.part.trans h.part, h'.path.trans h.path⟩
  · rw [hnew', hnew, List.reverse_append, List.append_assoc]
  · rw [List.filter_append, hreports, hreports', reportsFrom_append, h.part, h.opened]
  · rw [h'.opened, h.opened, List.foldl_append]

/-- A step without elements behind another one. -/
theorem Passes.after (h : s.Passes notes t es) (h' : t.Passes notes u []) : s.Passes notes u es := by
  have htrans := h.trans h'
  rwa [List.append_nil] at htrans

theorem passes_noteAll {ns : List Notice} (h : ∀ n ∈ ns, n.isSerious = false) :
    s.Passes notes (s.noteAll ns) [] := by
  refine ⟨⟨ns, rfl, ?_⟩, rfl, rfl, rfl⟩
  exact List.filter_eq_nil_iff.mpr fun n hn => by simp [h n hn]

theorem passes_note {n : Notice} (h : n.isSerious = false) : s.Passes notes (s.note n) [] := by
  have hall : ∀ m ∈ [n], m.isSerious = false := by simpa using h
  exact passes_noteAll hall

/-- What fields have in them makes no difference. -/
theorem passes_setFields {fields : List OpenField} (h : fields.length = s.fields.length) :
    s.Passes notes { s with fields := fields } [] :=
  ⟨⟨[], rfl, rfl⟩, h, rfl, rfl⟩

theorem passes_emit (n : Node) : s.Passes notes (s.emit n).2 [] := by
  rw [emit_eq]
  refine passes_setFields ?_
  cases s.fields <;> rfl

theorem Passes.one (new : List Notice) (hnotices : s'.notices = new.reverse ++ s.notices)
    (hreport : new.filter Notice.isSerious = (e.report? notes s.part s.fields.length).toList)
    (hopened : s'.fields.length = openFieldsAfter s.fields.length e.element)
    (hpart : s'.part = s.part) (hpath : s'.path = s.path) : s.Passes notes s' [e] := by
  have hafter : [e].foldl (fun n e => openFieldsAfter n e.element) s.fields.length =
      openFieldsAfter s.fields.length e.element := by rw [List.foldl_cons, List.foldl_nil]
  refine ⟨⟨new, hnotices, ?_⟩, hopened.trans hafter.symm, hpart, hpath⟩
  rw [hreport, reportsFrom_cons]
  exact (List.append_nil _).symm

/-- An element of which nothing is reported and that opens and closes no field. -/
theorem Passes.silent (h : s.Passes notes s' [])
    (hreport : e.report? notes s.part s.fields.length = none)
    (hopened : openFieldsAfter s.fields.length e.element = s.fields.length) :
    s.Passes notes s' [e] := by
  obtain ⟨new, hnew, hnone⟩ := h.notices
  exact .one new hnew (by rw [hnone, hreport]; rfl) (h.opened.trans hopened.symm) h.part h.path

theorem Passes.quiet (h : s.Passes notes s' []) (hitem : e.element.runItem.IsQuiet) :
    s.Passes notes s' [e] := by
  refine h.silent ?_ ?_
  · rw [PlacedElement.report?]
    cases hcase : e.element.runItem <;> simp_all [RunItem.IsQuiet]
  · rw [openFieldsAfter]
    cases hcase : e.element.runItem <;> simp_all [RunItem.IsQuiet]

/-- An element that is reported. -/
theorem passes_report {n : Notice} (hreport : e.report? notes s.part s.fields.length = some n)
    (hserious : n.isSerious = true)
    (hopened : openFieldsAfter s.fields.length e.element = s.fields.length) :
    s.Passes notes (s.note n) [e] :=
  .one [n] rfl (by rw [hreport, List.filter_singleton, hserious]; rfl) hopened.symm rfl rfl

theorem place_eq (hpath : e.path = s.path) : e.place s.part = s.place := by
  rw [PlacedElement.place, hpath]
  rfl

theorem passes_addInstruction {text : String} (hitem : e.element.runItem = .instruction text)
    (hpath : e.path = s.path) : s.Passes notes (s.addInstruction text) [e] := by
  have hopened : openFieldsAfter s.fields.length e.element = s.fields.length := by
    rw [openFieldsAfter, hitem]
  have hreport : e.report? notes s.part s.fields.length =
      if s.fields.length = 0 then some (.instructionOutsideField text s.place) else none := by
    rw [PlacedElement.report?, hitem, place_eq hpath]
  rw [addInstruction]
  rcases hf : s.fields with _ | ⟨f, rest⟩
  · rw [hf] at hreport
    exact passes_report (hf ▸ hreport) rfl hopened
  · have hlate : ∀ n ∈ f.instructionNotices text, n.isSerious = false := by
      intro n hn
      rw [OpenField.instructionNotices] at hn
      split at hn <;> simp_all [Notice.isSerious, Notice.level]
    have hlength : (f.addInstruction text :: rest).length = s.fields.length := by rw [hf]; rfl
    have hnone : e.report? notes s.part s.fields.length = none := by
      rw [hreport, if_neg (by simp [hf])]
    exact ((passes_setFields hlength).after (passes_noteAll hlate)).silent hnone hopened

theorem isSerious_of_mem_closeNotices {f : OpenField} {n : Notice} (h : n ∈ f.closeNotices) :
    n.isSerious = false := by
  rw [OpenField.closeNotices] at h
  split at h <;> simp_all [Notice.isSerious, Notice.level]

theorem passes_applyMark {mark : FieldMark}
    (hreport : e.report? notes s.part s.fields.length = mark.report? s.place s.fields.length)
    (hopened : openFieldsAfter s.fields.length e.element = mark.openAfter s.fields.length) :
    s.Passes notes (s.applyMark mark).2 [e] := by
  cases mark with
  | opening =>
    have hlength : (s.applyMark .opening).2.fields.length =
        FieldMark.opening.openAfter s.fields.length := rfl
    exact .one [] rfl (by rw [hreport]; rfl) (hlength.trans hopened.symm) rfl rfl
  | separator =>
    rw [FieldMark.report?] at hreport
    rcases hf : s.fields with _ | ⟨f, rest⟩
    · simp only [applyMark, hf]
      exact passes_report (hreport.trans (by simp [hf])) rfl hopened
    · simp only [applyMark, hf]
      have hlength : (f.separate :: rest).length = s.fields.length := by rw [hf]; rfl
      exact (passes_setFields hlength).silent (hreport.trans (by simp [hf])) hopened
  | closing =>
    rw [FieldMark.report?] at hreport
    rcases hf : s.fields with _ | ⟨f, rest⟩
    · simp only [applyMark, hf]
      have hsame : FieldMark.closing.openAfter s.fields.length = s.fields.length := by rw [hf]; rfl
      exact passes_report (hreport.trans (by simp [hf])) rfl (hopened.trans hsame)
    · have hnone : f.closeNotices.filter Notice.isSerious = [] :=
        List.filter_eq_nil_iff.mpr fun n hn => by simp [isSerious_of_mem_closeNotices hn]
      have hlength : rest.length = FieldMark.closing.openAfter s.fields.length := by rw [hf]; rfl
      have hclosed : s.Passes notes ({ s with fields := rest }.noteAll f.closeNotices) [e] := by
        refine .one f.closeNotices rfl ?_ (hlength.trans hopened.symm) rfl rfl
        rw [hnone, hreport, if_neg (by simp [hf])]
        rfl
      simp only [applyMark, hf]
      exact hclosed.after (passes_emit f.close)

end ReadingState

section

variable {notes : Notes} {s s' : ReadingState} {ns : List Node} {e : PlacedElement}

theorem passes_readProperties {block : Element} {u : Unit} (h : Runs (readProperties block) s u s') :
    s.Passes notes s' [] := by
  obtain rfl := runs_modify.mp h
  have hignored : ∀ n ∈ block.propertyNotices, n.isSerious = false := by
    intro n hn
    obtain ⟨p, -, rfl⟩ := List.mem_map.mp hn
    rfl
  have hpasses : s.Passes notes (s.noteAll block.propertyNotices) [] := passes_noteAll hignored
  exact ⟨hpasses.notices, hpasses.opened, hpasses.part, hpasses.path⟩

theorem passes_emitText {data : String} (h : Runs (emitText data) s ns s') : s.Passes notes s' [] := by
  have hemit := runs_modifyGet.mp h
  have hpasses : s.Passes notes (s.emit (.text ⟨data, s.currentStyle⟩)).2 [] := passes_emit _
  rwa [← hemit] at hpasses

theorem passes_emitSymbol {font : Option String} {code : String}
    (h : Runs (emitSymbol font code) s ns s') : s.Passes notes s' [] := by
  rw [emitSymbol] at h
  split at h
  · obtain ⟨u, t, hnote, htext⟩ := runs_bind.mp h
    obtain rfl := runs_modify.mp hnote
    exact (passes_note rfl).after (passes_emitText htext)
  · simpa using passes_emitText h

theorem passes_emitNote {kind : NoteKind} {id : String} (hitem : e.element.runItem = .note kind id)
    (hpath : e.path = s.path) (h : Runs (emitNote notes kind id) s ns s') :
    s.Passes notes s' [e] := by
  have hopened : openFieldsAfter s.fields.length e.element = s.fields.length := by
    rw [openFieldsAfter, hitem]
  have hreport : e.report? notes s.part s.fields.length =
      if (notes.get? kind id).isNone then some (.unknownNote kind id s.place) else none := by
    rw [PlacedElement.report?, hitem, place_eq hpath]
  rw [emitNote] at h
  cases hbody : notes.get? kind id with
  | some body =>
    simp only [hbody] at h
    have hemit := runs_modifyGet.mp h
    have hpasses : s.Passes notes (s.emit (.note kind (some id) body)).2 [] := passes_emit _
    rw [← hemit] at hpasses
    exact hpasses.silent (hreport.trans (by simp [hbody])) hopened
  | none =>
    simp only [hbody] at h
    have hemit := runs_modifyGet.mp h
    have hmissing : e.report? notes s.part s.fields.length = some (.unknownNote kind id s.place) := by
      rw [hreport, hbody]
      rfl
    have hpasses := (passes_report hmissing rfl hopened).after (passes_emit (.unresolved kind id))
    rwa [← hemit] at hpasses

theorem passes_readFieldMark {type : String} (hitem : e.element.runItem = .fieldMark type)
    (hpath : e.path = s.path) (h : Runs (readFieldMark type) s ns s') : s.Passes notes s' [e] := by
  rw [readFieldMark] at h
  split at h
  · rename_i mark hmark
    have hmarked := runs_modifyGet.mp h
    have hpasses : s.Passes notes (s.applyMark mark).2 [e] := by
      refine passes_applyMark ?_ ?_
      · rw [PlacedElement.report?, hitem, place_eq hpath]
        simp only [hmark, Option.bind_some]
      · rw [openFieldsAfter, hitem]
        simp only [hmark, Option.map_some, Option.getD_some]
    rwa [← hmarked] at hpasses
  · obtain ⟨t, t', -, hthrow⟩ := runs_bind.mp h
    exact (not_runs_throw hthrow).elim

theorem passes_within {α : Type} {child : Element} {index : Nat} {x : Reading α} {a : α}
    {es : List PlacedElement} (h : Runs (within child index x) s a s')
    (hx : ∀ t t', t.path = step child index :: s.path → Runs x t a t' → t.Passes notes t' es) :
    s.Passes notes s' es := by
  obtain ⟨t, ht, rfl⟩ := runs_within.mp h
  have hpasses := hx { s with path := step child index :: s.path } t rfl ht
  refine ⟨hpasses.notices, hpasses.opened, hpasses.part, ?_⟩
  change t.path.tail = s.path
  rw [hpasses.path]
  rfl

theorem passes_inScope {α : Type} {x : Reading α} {a : α} {es : List PlacedElement}
    (h : Runs (inScope x) s a s')
    (hx : ∀ t t', t.path = s.path → Runs x t a t' → t.Passes notes t' es) : s.Passes notes s' es := by
  obtain ⟨t, ht, rfl⟩ := runs_inScope.mp h
  have hpasses := hx { s with styles := .empty :: s.styles } t rfl ht
  exact ⟨hpasses.notices, hpasses.opened, hpasses.part, hpasses.path⟩

theorem passes_readRunChild {child : Element} {index : Nat}
    (h : Runs (readRunChild notes child index) s ns s') :
    s.Passes notes s' [child.placedInRun s.path index] := by
  rw [readRunChild] at h
  rw [Element.placedInRun]
  cases hitem : child.runItem with
  | properties =>
    rw [hitem] at h
    obtain ⟨u, t, hread, hpure⟩ := runs_bind.mp h
    obtain ⟨rfl, rfl⟩ := runs_pure.mp hpure
    exact (passes_readProperties hread).quiet (by rw [hitem]; trivial)
  | text data =>
    rw [hitem] at h
    exact (passes_emitText h).quiet (by rw [hitem]; trivial)
  | symbol font code =>
    rw [hitem] at h
    exact (passes_emitSymbol h).quiet (by rw [hitem]; trivial)
  | note kind id =>
    rw [hitem] at h
    exact passes_emitNote hitem rfl h
  | instruction text =>
    rw [hitem] at h
    obtain ⟨u, t, hadd, hpure⟩ := runs_bind.mp h
    obtain rfl := runs_modify.mp hadd
    obtain ⟨rfl, rfl⟩ := runs_pure.mp hpure
    exact passes_addInstruction hitem rfl
  | fieldMark type =>
    rw [hitem] at h
    exact passes_within h fun t t' hpath hread => passes_readFieldMark hitem hpath.symm hread
  | silent =>
    rw [hitem] at h
    obtain ⟨rfl, rfl⟩ := runs_pure.mp h
    exact (Passes.refl notes s').quiet (by rw [hitem]; trivial)
  | other =>
    rw [hitem] at h
    obtain ⟨u, t, hnote, hpure⟩ := runs_bind.mp h
    obtain rfl := runs_modify.mp hnote
    obtain ⟨rfl, rfl⟩ := runs_pure.mp hpure
    exact (passes_note rfl).quiet (by rw [hitem]; trivial)

/-- The children of an element are read one after the other, each from where those before it led. -/
theorem passes_mapM {f : Element → Nat → Reading (List Node)}
    (placed : List String → Element → Nat → List PlacedElement)
    (hf : ∀ {s ns s' child index}, Runs (f child index) s ns s' →
      s.Passes notes s' (placed s.path child index))
    {children : List Element} {index : Nat} {nss : List (List Node)}
    (h : Runs ((children.zipIdx index).mapM fun (child, i) => f child i) s nss s') :
    s.Passes notes s' ((children.zipIdx index).flatMap fun (child, i) => placed s.path child i) := by
  induction children generalizing s index nss with
  | nil =>
    obtain ⟨-, rfl⟩ := runs_mapM_nil.mp h
    exact .refl notes s'
  | cons c cs ih =>
    rw [List.zipIdx_cons] at h
    obtain ⟨ns, t, nss', hchild, hrest, -⟩ := runs_mapM_cons.mp h
    have hfirst := hf hchild
    have hothers := ih hrest
    rw [hfirst.path] at hothers
    exact hfirst.trans hothers

theorem passes_readRun {run : Element} {index : Nat} {path : List String}
    (hpath : s.path = step run index :: path) (h : Runs (readRun notes run) s ns s') :
    s.Passes notes s' (run.placedRun path index) := by
  refine passes_inScope h fun t t' ht hinner => ?_
  obtain ⟨nss, u, hchildren, hpure⟩ := runs_bind.mp hinner
  obtain ⟨-, rfl⟩ := runs_pure.mp hpure
  have hpasses := passes_mapM (fun path c i => [c.placedInRun path i]) passes_readRunChild hchildren
  rw [ht, hpath] at hpasses
  rw [Element.placedRun, List.map_eq_flatMap]
  exact hpasses

theorem passes_readHyperlinkChild {child : Element} {index : Nat}
    (h : Runs (readHyperlinkChild notes child index) s ns s') :
    s.Passes notes s' (if child.localName = "r" then child.placedRun s.path index else []) := by
  rw [readHyperlinkChild] at h
  split at h <;> rename_i hname
  · rw [if_pos hname]
    exact passes_within h fun t t' hpath hrun => passes_readRun hpath hrun
  · obtain ⟨u, t, hnote, hpure⟩ := runs_bind.mp h
    obtain rfl := runs_modify.mp hnote
    obtain ⟨rfl, rfl⟩ := runs_pure.mp hpure
    rw [if_neg hname]
    exact passes_note rfl

theorem passes_readHyperlink {link : Element} {index : Nat} {path : List String}
    (hpath : s.path = step link index :: path) (h : Runs (readHyperlink notes link) s ns s') :
    s.Passes notes s' (link.placedLink path index) := by
  obtain ⟨nss, t, hchildren, hpure⟩ := runs_bind.mp h
  obtain ⟨-, rfl⟩ := runs_pure.mp hpure
  have hpasses := passes_mapM
    (fun path c i => if c.localName = "r" then c.placedRun path i else []) passes_readHyperlinkChild
    hchildren
  rw [hpath] at hpasses
  exact hpasses

theorem passes_readRole {block : Element} {d d' : Draft} (h : Runs (readRole block d) s d' s') :
    s.Passes notes s' [] := by
  rw [readRole] at h
  split at h
  · obtain ⟨-, rfl⟩ := runs_pure.mp h
    exact .refl notes s'
  · split at h
    · obtain ⟨-, rfl⟩ := runs_pure.mp h
      exact .refl notes s'
    · obtain ⟨u, t, hnote, hpure⟩ := runs_bind.mp h
      obtain rfl := runs_modify.mp hnote
      obtain ⟨-, rfl⟩ := runs_pure.mp hpure
      exact passes_note rfl

theorem passes_readParagraphChild {d d' : Draft} {child : Element} {index : Nat}
    (h : Runs (readParagraphChild notes d child index) s d' s') :
    s.Passes notes s' (child.placedChild s.path index) := by
  rw [readParagraphChild] at h
  rw [Element.placedChild]
  cases hitem : child.paragraphItem with
  | properties =>
    rw [hitem] at h
    obtain ⟨u, t, hread, hrole⟩ := runs_bind.mp h
    exact (passes_readProperties hread).after (passes_readRole hrole)
  | run =>
    rw [hitem] at h
    obtain ⟨ns, t, hread, hpure⟩ := runs_bind.mp h
    obtain ⟨-, rfl⟩ := runs_pure.mp hpure
    exact passes_within hread fun t t' hpath hrun => passes_readRun hpath hrun
  | hyperlink =>
    rw [hitem] at h
    obtain ⟨ns, t, hread, hpure⟩ := runs_bind.mp h
    obtain ⟨-, rfl⟩ := runs_pure.mp hpure
    exact passes_within hread fun t t' hpath hlink => passes_readHyperlink hpath hlink
  | bookmark b =>
    rw [hitem] at h
    cases b <;>
    · obtain ⟨-, rfl⟩ := runs_pure.mp h
      exact .refl notes s'
  | silent =>
    rw [hitem] at h
    obtain ⟨-, rfl⟩ := runs_pure.mp h
    exact .refl notes s'
  | other =>
    rw [hitem] at h
    obtain ⟨u, t, hnote, hpure⟩ := runs_bind.mp h
    obtain rfl := runs_modify.mp hnote
    obtain ⟨-, rfl⟩ := runs_pure.mp hpure
    exact passes_note rfl

theorem passes_paragraphChildren {children : List Element} {index : Nat} {d d' : Draft}
    (h : Runs ((children.zipIdx index).foldlM
      (fun d (child, i) => readParagraphChild notes d child i) d) s d' s') :
    s.Passes notes s'
      ((children.zipIdx index).flatMap fun (child, i) => child.placedChild s.path i) := by
  induction children generalizing s index d with
  | nil =>
    obtain ⟨-, rfl⟩ := runs_pure.mp h
    exact .refl notes s'
  | cons c cs ih =>
    rw [List.zipIdx_cons] at h
    obtain ⟨e, t, hchild, hrest⟩ := runs_foldlM_cons.mp h
    have hfirst := passes_readParagraphChild hchild
    have hothers := ih hrest
    rw [hfirst.path] at hothers
    exact hfirst.trans hothers

end

end WordTex
