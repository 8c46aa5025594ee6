import WordTex.Proofs.InsertedParts
import WordTex.Proofs.ReadingSuccess

/-! # Packages whose document can be read

A package is read part by part. Each of its parts may be missing, except for the document itself, but
those that are there must be text and well-formed, and the field marks that are read in them known. -/
namespace WordTex

open DocumentReading

namespace Element

/-- All marks in the notes under a root are known. The elements without an id are no notes. -/
def HasKnownNoteMarks (root : Element) : Prop :=
  ∀ child ∈ root.childElements, (child.attribute? "w:id").isSome = true → child.HasKnownMarks

/-- All marks in the body of a document are known; a document without a body has none. -/
def HasKnownBodyMarks (root : Element) : Prop := ∀ b ∈ body? root, b.1.HasKnownMarks

end Element

namespace PartSource

/-- The part is missing, or it is text and well-formed. -/
def IsReadable (source : PartSource) (part : String) : Prop :=
  ∃ text?, source.readOptionalText part = .ok text? ∧
    ∀ text ∈ text?, ∃ root, Element.ofXml text = .ok root

end PartSource

namespace DocumentReading

variable (source : PartSource) (part : String)

theorem succeedsIff_readRoot? : SucceedsIff (readRoot? source part) (source.IsReadable part) := by
  rw [readRoot?, PartSource.IsReadable]
  cases source.readOptionalText part with
  | error e => exact (SucceedsIff.throw _).congr (by simp)
  | ok text? =>
    cases text? with
    | none => exact (SucceedsIff.pure none).congr (by simp)
    | some text =>
      dsimp only
      cases hroot : Element.ofXml text with
      | ok root => exact (SucceedsIff.pure (some root)).congr (by simp [hroot])
      | error e => exact (SucceedsIff.throw _).congr (by simp [hroot])

theorem succeedsIff_readNote (root child : Element) (index : Nat) :
    SucceedsIff (readNote part root child index) child.HasKnownMarks := by
  have hbody := Reading.succeedsIff_within root 0
    (Reading.succeedsIff_within child index (Reading.succeedsIff_readBody .empty child))
  exact (succeedsIff_ofPart part hbody).bind_pure fun _ => .pure _

theorem succeedsIff_readNotes (root : Element) :
    SucceedsIff (readNotes part root) root.HasKnownNoteMarks := by
  refine SucceedsIff.of_zipIdx (SucceedsIff.foldlM root.childElements.zipIdx [] fun notes c => ?_)
  dsimp only
  cases c.1.attribute? "w:id" with
  | none =>
    have hnote : SucceedsIff (note (.noteWithoutId part c.1.name)) True := .modify _
    exact (hnote.bind_pure fun _ => .pure notes).congr (by simp)
  | some id =>
    have hread := succeedsIff_readNote part root c.1 c.2
    exact (hread.bind_pure fun body => .pure (Dictionary.insert id body notes)).congr (by simp)

theorem succeedsIff_readNotesPart : SucceedsIff (readNotesPart source part)
    (source.IsReadable part ∧ ∀ root ∈ source.root? part, root.HasKnownNoteMarks) := by
  refine (succeedsIff_readRoot? source part).bind_eq (fun _ _ _ => runs_readRoot?) ?_
  cases source.root? part with
  | none => exact (SucceedsIff.pure []).congr (by simp)
  | some root => exact (succeedsIff_readNotes part root).congr (by simp)

theorem succeedsIff_readParts : SucceedsIff (readParts source)
    ((source.IsReadable footnotesPart ∧
        ∀ root ∈ source.root? footnotesPart, root.HasKnownNoteMarks) ∧
      (source.IsReadable endnotesPart ∧
        ∀ root ∈ source.root? endnotesPart, root.HasKnownNoteMarks) ∧
      source.IsReadable corePropertiesPart ∧ source.IsReadable relationshipsPart) :=
  (succeedsIff_readNotesPart source footnotesPart).bind fun _ =>
    (succeedsIff_readNotesPart source endnotesPart).bind fun _ =>
      (succeedsIff_readRoot? source corePropertiesPart).bind fun _ =>
        (succeedsIff_readRoot? source relationshipsPart).bind_pure fun _ => .pure _

/-- The document must be there. Its parts are read before its body, whose citations may then be of
any notes. -/
theorem succeedsIff_ofSource : SucceedsIff (ofSource source)
    (source.IsReadable documentPart ∧ ∃ root, source.root? documentPart = some root ∧
      ((source.IsReadable footnotesPart ∧
          ∀ root ∈ source.root? footnotesPart, root.HasKnownNoteMarks) ∧
        (source.IsReadable endnotesPart ∧
          ∀ root ∈ source.root? endnotesPart, root.HasKnownNoteMarks) ∧
        source.IsReadable corePropertiesPart ∧ source.IsReadable relationshipsPart) ∧
      root.HasKnownBodyMarks) := by
  refine (succeedsIff_readRoot? source documentPart).bind_eq (fun _ _ _ => runs_readRoot?) ?_
  cases source.root? documentPart with
  | none => exact (SucceedsIff.throw _).congr (by simp)
  | some root =>
    have hrest : SucceedsIff (do
        let parts ← readParts source
        let document ← readDocument root parts
        document.danglingReferences.forM fun code => note (.danglingReference code)
        return document) _ :=
      (succeedsIff_readParts source).bind fun parts =>
        (succeedsIff_readDocument root parts).bind_pure fun document =>
          (SucceedsIff.forM document.danglingReferences fun _ => .modify _).bind_pure
            fun _ => .pure document
    refine hrest.congr ?_
    simp [Element.HasKnownBodyMarks]

end DocumentReading

namespace MemoryPackage

/-- The part is there, its bytes are text, and the text is the XML of this root. -/
def HasRoot (package : MemoryPackage) (part : String) (root : Element) : Prop :=
  ∃ bytes text, Dictionary.get? part package.parts = some bytes ∧
    String.fromUTF8? bytes = some text ∧ Element.ofXml text = .ok root

variable {package : MemoryPackage} {part : String} {root : Element}

theorem root?_source_iff (hname : partName part = part) :
    package.source.root? part = some root ↔ package.HasRoot part root := by
  rw [PartSource.root?, readOptionalText_eq, hname, HasRoot]
  cases Dictionary.get? part package.parts with
  | none => simp
  | some bytes =>
    cases htext : String.fromUTF8? bytes with
    | none => simp [textOfPart, htext, Except.map]
    | some text =>
      cases hroot : Element.ofXml text <;>
        simp [textOfPart, htext, hroot, Except.map, Except.toOption]

theorem isReadable_source_iff (hname : partName part = part) :
    package.source.IsReadable part ↔
      (part ∈ package.partNames → ∃ root, package.HasRoot part root) := by
  rw [PartSource.IsReadable, readOptionalText_eq, hname, partNames, Dictionary.mem_keys_iff]
  simp only [HasRoot]
  cases Dictionary.get? part package.parts with
  | none => simp
  | some bytes =>
    cases htext : String.fromUTF8? bytes with
    | none => simp [textOfPart, htext, Except.map]
    | some text =>
      cases hroot : Element.ofXml text <;> simp [textOfPart, htext, hroot, Except.map]

theorem HasRoot.mem_partNames (h : package.HasRoot part root) : part ∈ package.partNames := by
  obtain ⟨bytes, -, hbytes, -⟩ := h
  exact Dictionary.mem_keys_iff.mpr ⟨bytes, hbytes⟩

/-- The document of a package can be read if and only if it is there, its parts are well-formed as far
as they are there, and the marks that are read in its body and its notes are known. -/
theorem ofSource_ok_iff (package : MemoryPackage) (log : List Notice) :
    (∃ d log', (ofSource package.source).run.run log = (.ok d, log')) ↔
      documentPart ∈ package.partNames ∧
      (∀ part ∈ [documentPart, footnotesPart, endnotesPart, corePropertiesPart, relationshipsPart],
        part ∈ package.partNames → ∃ root, package.HasRoot part root) ∧
      (∀ root, package.HasRoot documentPart root → root.HasKnownBodyMarks) ∧
      ∀ part ∈ [footnotesPart, endnotesPart], ∀ root, package.HasRoot part root →
        root.HasKnownNoteMarks := by
  have hdocument : partName documentPart = documentPart := by decide +kernel
  have hfootnotes : partName footnotesPart = footnotesPart := by decide +kernel
  have hendnotes : partName endnotesPart = endnotesPart := by decide +kernel
  have hcore : partName corePropertiesPart = corePropertiesPart := by decide +kernel
  have hrelationships : partName relationshipsPart = relationshipsPart := by decide +kernel
  refine (succeedsIff_ofSource package.source log).trans ?_
  simp only [isReadable_source_iff hdocument, isReadable_source_iff hfootnotes,
    isReadable_source_iff hendnotes, isReadable_source_iff hcore,
    isReadable_source_iff hrelationships, Option.mem_def, root?_source_iff hdocument,
    root?_source_iff hfootnotes, root?_source_iff hendnotes, List.forall_mem_cons,
    List.not_mem_nil, false_implies, implies_true, and_true]
  constructor
  · rintro ⟨hread, root, hroot, ⟨⟨hreadF, hmarksF⟩, ⟨hreadE, hmarksE⟩, hreadC, hreadR⟩, hmarks⟩
    refine ⟨hroot.mem_partNames, ⟨hread, hreadF, hreadE, hreadC, hreadR⟩, fun root' hroot' => ?_,
      hmarksF, hmarksE⟩
    have hsame := (root?_source_iff hdocument).mpr hroot'
    rw [(root?_source_iff hdocument).mpr hroot] at hsame
    exact Option.some.inj hsame ▸ hmarks
  · rintro ⟨hpart, ⟨hread, hreadF, hreadE, hreadC, hreadR⟩, hmarks, hmarksF, hmarksE⟩
    obtain ⟨root, hroot⟩ := hread hpart
    exact ⟨hread, root, hroot, ⟨⟨hreadF, hmarksF⟩, ⟨hreadE, hmarksE⟩, hreadC, hreadR⟩,
      hmarks root hroot⟩

end MemoryPackage

end WordTex
