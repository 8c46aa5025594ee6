import WordTex.DocumentReading
import WordTex.Proofs.DocumentRuns

/-! # What can be read

Whether reading succeeds is a matter of the elements alone: neither the state that it starts from nor
the notes change it. The one thing that cannot be read is a field mark of an unknown type in a run. -/
namespace WordTex

section

variable {ε σ α β : Type} {p q : Prop}

/-- Reading succeeds from each state if the condition holds, and fails from each if it does not. -/
def SucceedsIff (x : ExceptT ε (StateM σ) α) (p : Prop) : Prop := ∀ s, (∃ a s', Runs x s a s') ↔ p

theorem exists_error_iff {x : ExceptT ε (StateM σ) α} (h : SucceedsIff x p) (s : σ) :
    (∃ e s', x.run.run s = (.error e, s')) ↔ ¬ p := by
  rw [← h s]
  simp only [Runs]
  rcases x.run.run s with ⟨r, t⟩
  cases r with
  | ok a =>
    refine iff_of_false ?_ (not_not_intro ⟨a, t, rfl⟩)
    rintro ⟨e, s', he⟩
    cases he
  | error e =>
    refine iff_of_true ⟨e, t, rfl⟩ ?_
    rintro ⟨a, s', ha⟩
    cases ha

namespace SucceedsIff

theorem congr {x : ExceptT ε (StateM σ) α} (h : SucceedsIff x p) (hpq : p ↔ q) : SucceedsIff x q :=
  fun s => (h s).trans hpq

theorem pure (a : α) : SucceedsIff (Pure.pure a : ExceptT ε (StateM σ) α) True :=
  fun s => iff_true_intro ⟨a, s, runs_pure.mpr ⟨rfl, rfl⟩⟩

theorem modifyGet (f : σ → α × σ) : SucceedsIff (modifyGet f : ExceptT ε (StateM σ) α) True :=
  fun s => iff_true_intro ⟨(f s).1, (f s).2, runs_modifyGet.mpr rfl⟩

theorem modify (f : σ → σ) : SucceedsIff (modify f : ExceptT ε (StateM σ) Unit) True :=
  fun s => iff_true_intro ⟨(), f s, runs_modify.mpr rfl⟩

theorem throw (e : ε) : SucceedsIff (throw e : ExceptT ε (StateM σ) α) False := by
  intro s
  rw [iff_false]
  rintro ⟨a, s', hrun⟩
  exact not_runs_throw hrun

theorem bind {x : ExceptT ε (StateM σ) α} {f : α → ExceptT ε (StateM σ) β} (hx : SucceedsIff x p)
    (hf : ∀ a, SucceedsIff (f a) q) : SucceedsIff (x >>= f) (p ∧ q) := by
  intro s
  constructor
  · rintro ⟨b, s', hrun⟩
    obtain ⟨a, t, ha, hb⟩ := runs_bind.mp hrun
    exact ⟨(hx s).mp ⟨a, t, ha⟩, (hf a t).mp ⟨b, s', hb⟩⟩
  · rintro ⟨hp, hq⟩
    obtain ⟨a, t, ha⟩ := (hx s).mpr hp
    obtain ⟨b, s', hb⟩ := (hf a t).mpr hq
    exact ⟨b, s', runs_bind.mpr ⟨a, t, ha, hb⟩⟩

/-- A second step that is known from the one result that the first can have. -/
theorem bind_eq {x : ExceptT ε (StateM σ) α} {f : α → ExceptT ε (StateM σ) β} {a : α}
    (hx : SucceedsIff x p) (ha : ∀ s b s', Runs x s b s' → b = a) (hf : SucceedsIff (f a) q) :
    SucceedsIff (x >>= f) (p ∧ q) := by
  intro s
  constructor
  · rintro ⟨c, s', hrun⟩
    obtain ⟨b, t, hb, hc⟩ := runs_bind.mp hrun
    obtain rfl := ha s b t hb
    exact ⟨(hx s).mp ⟨b, t, hb⟩, (hf t).mp ⟨c, s', hc⟩⟩
  · rintro ⟨hp, hq⟩
    obtain ⟨b, t, hb⟩ := (hx s).mpr hp
    obtain rfl := ha s b t hb
    obtain ⟨c, s', hc⟩ := (hf t).mpr hq
    exact ⟨c, s', runs_bind.mpr ⟨b, t, hb, hc⟩⟩

/-- A last step that always succeeds. -/
theorem bind_pure {x : ExceptT ε (StateM σ) α} {f : α → ExceptT ε (StateM σ) β}
    (hx : SucceedsIff x p) (hf : ∀ a, SucceedsIff (f a) True) : SucceedsIff (x >>= f) p :=
  (hx.bind hf).congr (by simp)

theorem mapM {P : α → Prop} {f : α → ExceptT ε (StateM σ) β} (as : List α)
    (hf : ∀ a, SucceedsIff (f a) (P a)) : SucceedsIff (as.mapM f) (∀ a ∈ as, P a) := by
  induction as with
  | nil => exact (pure []).congr (by simp)
  | cons a as ih =>
    rw [List.mapM_cons]
    exact ((hf a).bind fun b => ih.bind_pure fun bs => pure (b :: bs)).congr
      List.forall_mem_cons.symm

theorem foldlM {P : α → Prop} {f : β → α → ExceptT ε (StateM σ) β} (as : List α) (b : β)
    (hf : ∀ b a, SucceedsIff (f b a) (P a)) : SucceedsIff (as.foldlM f b) (∀ a ∈ as, P a) := by
  induction as generalizing b with
  | nil => exact (pure b).congr (by simp)
  | cons a as ih =>
    rw [List.foldlM_cons]
    exact ((hf b a).bind fun c => ih c).congr List.forall_mem_cons.symm

/-- Steps for the items of a list that all succeed. -/
theorem forM {f : α → ExceptT ε (StateM σ) Unit} (as : List α) (hf : ∀ a, SucceedsIff (f a) True) :
    SucceedsIff (as.forM f) True := by
  induction as with
  | nil => exact pure ()
  | cons a as ih => exact (hf a).bind_pure fun _ => ih

/-- A condition on the items of a list need not look at their places. -/
theorem of_zipIdx {P : α → Prop} {x : ExceptT ε (StateM σ) β} {as : List α}
    (h : SucceedsIff x (∀ c ∈ as.zipIdx, P c.1)) : SucceedsIff x (∀ a ∈ as, P a) := by
  refine h.congr ?_
  rw [← List.forall_mem_map (f := Prod.fst), List.zipIdx_map_fst]

theorem mapM_zipIdx {P : α → Prop} {f : α → Nat → ExceptT ε (StateM σ) β} (as : List α)
    (hf : ∀ a i, SucceedsIff (f a i) (P a)) :
    SucceedsIff (as.zipIdx.mapM fun (a, i) => f a i) (∀ a ∈ as, P a) :=
  of_zipIdx (SucceedsIff.mapM as.zipIdx fun c => hf c.1 c.2)

theorem foldlM_zipIdx {P : α → Prop} {f : β → α → Nat → ExceptT ε (StateM σ) β} (as : List α)
    (b : β) (hf : ∀ b a i, SucceedsIff (f b a i) (P a)) :
    SucceedsIff (as.zipIdx.foldlM (fun b (a, i) => f b a i) b) (∀ a ∈ as, P a) :=
  of_zipIdx (SucceedsIff.foldlM as.zipIdx b fun b c => hf b c.1 c.2)

end SucceedsIff

end

namespace Element

/-- An element that marks fields says how: it begins, separates or ends one. -/
def HasKnownMark (e : Element) : Prop :=
  e.localName = "fldChar" → (e.attribute? "w:fldCharType").getD "" ∈ ["begin", "separate", "end"]

instance (e : Element) : Decidable e.HasKnownMark := inferInstanceAs (Decidable (_ → _))

/-- All marks in the runs of the paragraphs of a body are known. -/
def HasKnownMarks (body : Element) : Prop :=
  ∀ paragraph ∈ body.childElements, paragraph.localName = "p" →
    ∀ child ∈ paragraph.runChildren, child.HasKnownMark

instance (body : Element) : Decidable body.HasKnownMarks :=
  inferInstanceAs (Decidable (∀ paragraph ∈ body.childElements, _ → _))

end Element

/-- The item of a run is no mark of an unknown type. -/
def RunItem.HasKnownMark : RunItem → Prop
  | fieldMark type => type ∈ ["begin", "separate", "end"]
  | _ => True

theorem Element.hasKnownMark_runItem (child : Element) :
    child.runItem.HasKnownMark ↔ child.HasKnownMark := by
  rw [Element.runItem, Element.HasKnownMark]
  split <;> simp_all [RunItem.HasKnownMark]

theorem FieldMark.isSome_ofType? {type : String} :
    (FieldMark.ofType? type).isSome ↔ type ∈ ["begin", "separate", "end"] := by
  simp only [FieldMark.ofType?]
  split <;> simp_all

namespace Reading

variable {α : Type} {p : Prop} {x : Reading α} (notes : Notes)

theorem succeedsIff_inScope (h : SucceedsIff x p) : SucceedsIff (inScope x) p := by
  intro s
  rw [← h { s with styles := .empty :: s.styles }]
  constructor
  · rintro ⟨a, s', hrun⟩
    obtain ⟨t, ht, -⟩ := runs_inScope.mp hrun
    exact ⟨a, t, ht⟩
  · rintro ⟨a, t, ht⟩
    exact ⟨a, _, runs_inScope.mpr ⟨t, ht, rfl⟩⟩

theorem succeedsIff_within (e : Element) (index : Nat) (h : SucceedsIff x p) :
    SucceedsIff (within e index x) p := by
  intro s
  rw [← h { s with path := step e index :: s.path }]
  constructor
  · rintro ⟨a, s', hrun⟩
    obtain ⟨t, ht, -⟩ := runs_within.mp hrun
    exact ⟨a, t, ht⟩
  · rintro ⟨a, t, ht⟩
    exact ⟨a, _, runs_within.mpr ⟨t, ht, rfl⟩⟩

theorem succeedsIff_readFieldMark (type : String) :
    SucceedsIff (readFieldMark type) (type ∈ ["begin", "separate", "end"]) := by
  rw [← FieldMark.isSome_ofType?, readFieldMark]
  cases FieldMark.ofType? type with
  | some mark => exact (SucceedsIff.modifyGet _).congr (by simp)
  | none =>
    intro s
    simp only [Option.isSome_none, Bool.false_eq_true, iff_false]
    rintro ⟨a, s', hrun⟩
    obtain ⟨t, t', -, hthrow⟩ := runs_bind.mp hrun
    exact not_runs_throw hthrow

theorem succeedsIff_emitSymbol (font : Option String) (code : String) :
    SucceedsIff (emitSymbol font code) True := by
  rw [emitSymbol]
  split
  · exact (SucceedsIff.modify _).bind_pure fun _ => .modifyGet _
  · exact .modifyGet _

theorem succeedsIff_emitNote (kind : NoteKind) (id : String) :
    SucceedsIff (emitNote notes kind id) True := by
  rw [emitNote]
  split
  · exact .modifyGet _
  · exact .modifyGet _

theorem succeedsIff_readRunChild (child : Element) (index : Nat) :
    SucceedsIff (readRunChild notes child index) child.HasKnownMark := by
  rw [← child.hasKnownMark_runItem, readRunChild]
  cases child.runItem with
  | properties => exact (SucceedsIff.modify _).bind_pure fun _ => .pure []
  | text data => exact .modifyGet _
  | symbol font code => exact succeedsIff_emitSymbol font code
  | note kind id => exact succeedsIff_emitNote notes kind id
  | instruction text => exact (SucceedsIff.modify _).bind_pure fun _ => .pure []
  | fieldMark type => exact succeedsIff_within child index (succeedsIff_readFieldMark type)
  | silent => exact .pure []
  | other => exact (SucceedsIff.modify _).bind_pure fun _ => .pure []

theorem succeedsIff_readRun (run : Element) :
    SucceedsIff (readRun notes run) (∀ child ∈ run.childElements, child.HasKnownMark) := by
  have hchildren := SucceedsIff.mapM_zipIdx run.childElements
    (succeedsIff_readRunChild notes)
  exact succeedsIff_inScope (hchildren.bind_pure fun nodes => .pure nodes.flatten)

theorem succeedsIff_readHyperlinkChild (child : Element) (index : Nat) :
    SucceedsIff (readHyperlinkChild notes child index)
      (child.localName = "r" → ∀ c ∈ child.childElements, c.HasKnownMark) := by
  rw [readHyperlinkChild]
  split <;> rename_i hname
  · exact (succeedsIff_within child index (succeedsIff_readRun notes child)).congr (by simp [hname])
  · exact ((SucceedsIff.modify _).bind_pure fun _ => .pure []).congr (by simp [hname])

theorem succeedsIff_readHyperlink (link : Element) :
    SucceedsIff (readHyperlink notes link) (∀ run ∈ link.childElements, run.localName = "r" →
      ∀ child ∈ run.childElements, child.HasKnownMark) := by
  have hchildren := SucceedsIff.mapM_zipIdx link.childElements
    (succeedsIff_readHyperlinkChild notes)
  exact hchildren.bind_pure fun nodes => .pure nodes.flatten

theorem succeedsIff_readRole (block : Element) (draft : Draft) :
    SucceedsIff (readRole block draft) True := by
  rw [readRole]
  split
  · exact .pure draft
  · split
    · exact .pure _
    · exact (SucceedsIff.modify _).bind_pure fun _ => .pure draft

theorem succeedsIff_readParagraphChild (draft : Draft) (child : Element) (index : Nat) :
    SucceedsIff (readParagraphChild notes draft child index)
      (∀ run ∈ child.runsOfChild, ∀ c ∈ run.childElements, c.HasKnownMark) := by
  rw [← child.runs_paragraphItem, readParagraphChild]
  cases child.paragraphItem with
  | properties =>
    exact ((SucceedsIff.modify _).bind fun _ => succeedsIff_readRole child draft).congr
      (by simp [ParagraphItem.runs])
  | run =>
    have hrun := succeedsIff_within child index (succeedsIff_readRun notes child)
    exact (hrun.bind_pure fun nodes => .pure (draft.append nodes)).congr
      (by simp [ParagraphItem.runs])
  | hyperlink =>
    have hlink := succeedsIff_within child index (succeedsIff_readHyperlink notes child)
    exact (hlink.bind_pure fun nodes => .pure (draft.append nodes)).congr
      (by simp [ParagraphItem.runs])
  | bookmark b =>
    cases b with
    | none => exact (SucceedsIff.pure draft).congr (by simp [ParagraphItem.runs])
    | some b => exact (SucceedsIff.pure _).congr (by simp [ParagraphItem.runs])
  | silent => exact (SucceedsIff.pure draft).congr (by simp [ParagraphItem.runs])
  | other =>
    exact ((SucceedsIff.modify _).bind_pure fun _ => .pure draft).congr
      (by simp [ParagraphItem.runs])

theorem succeedsIff_readParagraph (paragraph : Element) :
    SucceedsIff (readParagraph notes paragraph)
      (∀ child ∈ paragraph.runChildren, child.HasKnownMark) := by
  have hchildren := SucceedsIff.foldlM_zipIdx paragraph.childElements Draft.start
    (succeedsIff_readParagraphChild notes)
  have hall : (∀ child ∈ paragraph.childElements, ∀ run ∈ child.runsOfChild,
      ∀ c ∈ run.childElements, c.HasKnownMark) ↔
        ∀ child ∈ paragraph.runChildren, child.HasKnownMark := by
    simp only [Element.runChildren, List.forall_mem_flatMap]
  exact succeedsIff_inScope ((hchildren.congr hall).bind_pure
    fun draft => (SucceedsIff.modifyGet _).bind_pure fun rest => .pure _)

theorem succeedsIff_readBlock (body child : Element) (index : Nat) :
    SucceedsIff (readBlock notes body child index)
      (child.localName = "p" → ∀ c ∈ child.runChildren, c.HasKnownMark) := by
  rw [readBlock]
  split <;> rename_i hname
  · have hparagraph := succeedsIff_within child index (succeedsIff_readParagraph notes child)
    exact (hparagraph.bind_pure fun n => .pure [n]).congr (by simp [hname])
  · split
    · exact (SucceedsIff.pure []).congr (by simp [hname])
    · exact ((SucceedsIff.modify _).bind_pure fun _ => .pure []).congr (by simp [hname])

/-- A body can be read if and only if the marks in its paragraphs are known. -/
theorem succeedsIff_readBody (body : Element) : SucceedsIff (readBody notes body) body.HasKnownMarks := by
  have hblocks := SucceedsIff.mapM_zipIdx body.childElements
    (succeedsIff_readBlock notes body)
  exact hblocks.bind_pure fun nodes => .pure nodes.flatten

end Reading

namespace DocumentReading

theorem succeedsIff_ofPart {α : Type} {x : Reading α} {p : Prop} (part : String)
    (h : SucceedsIff x p) : SucceedsIff (ofPart part x) p := by
  intro log
  rw [← h (.start part log)]
  constructor
  · rintro ⟨a, log', hrun⟩
    obtain ⟨s', hs', -⟩ := runs_ofPart.mp hrun
    exact ⟨a, s', hs'⟩
  · rintro ⟨a, s', hs'⟩
    exact ⟨a, _, runs_ofPart.mpr ⟨s', hs', rfl⟩⟩

/-- A document without a body is read as an empty one. -/
theorem succeedsIff_readDocument (root : Element) (parts : DocumentParts) :
    SucceedsIff (readDocument root parts) (∀ b ∈ body? root, b.1.HasKnownMarks) := by
  rw [readDocument]
  cases body? root with
  | none =>
    have hnote : SucceedsIff (note (.missingBody documentPart root.name)) True := .modify _
    exact (hnote.bind_pure fun _ => (SucceedsIff.pure []).bind_pure fun _ => .pure _).congr (by simp)
  | some b =>
    have hbody := Reading.succeedsIff_within root 0
      (Reading.succeedsIff_within b.1 b.2 (Reading.succeedsIff_readBody parts.notes b.1))
    exact ((succeedsIff_ofPart documentPart hbody).bind_pure fun _ => .pure _).congr (by simp)

end DocumentReading

end WordTex
