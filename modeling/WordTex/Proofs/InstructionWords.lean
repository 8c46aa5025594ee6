import Mathlib.Data.List.TakeWhile
import WordTex.OpenField

/-! # The words of an instruction

A text is cut into its words in one way only. An instruction refers to a bookmark if its first word is
that of a cross-reference and there is a second one, which is the code. -/
namespace WordTex

/-- The text is these words, with white space in front, behind, and between any two of them. -/
inductive HasWords : List (List Char) → List Char → Prop where
  | nil {gap : List Char} (hgap : IsBlankText gap) : HasWords [] gap
  | cons {gap w rest : List Char} {ws : List (List Char)} (hgap : IsBlankText gap) (hne : w ≠ [])
      (hword : ∀ c ∈ w, isBlank c = false) (hrest : ∀ c ∈ rest.head?, isBlank c = true)
      (h : HasWords ws rest) : HasWords (w :: ws) (gap ++ w ++ rest)

section

variable {s gap w rest : List Char}

theorem words_of_isBlankText (h : IsBlankText s) : words s = [] := by
  have htrim : trimLeft s = [] := List.dropWhile_eq_nil_iff.mpr (List.all_eq_true.mp h)
  rw [words]
  split
  · rfl
  · simp_all

theorem words_append (hgap : IsBlankText gap) (hne : w ≠ []) (hword : ∀ c ∈ w, isBlank c = false)
    (hrest : ∀ c ∈ rest.head?, isBlank c = true) : words (gap ++ w ++ rest) = w :: words rest := by
  obtain ⟨c, w, rfl⟩ := List.exists_cons_of_ne_nil hne
  have hw := (List.forall_mem_cons.mp hword).2
  have hinside : ∀ d ∈ w, (!isBlank d) = true := fun d hd => by rw [hw d hd]; rfl
  have hstop : ∀ d ∈ rest.head?, (!isBlank d) = false := fun d hd => by rw [hrest d hd]; rfl
  have htrim : trimLeft (gap ++ (c :: w) ++ rest) = c :: (w ++ rest) := by
    rw [List.append_assoc]
    exact dropWhile_isBlank_append hgap hne hword rest
  rw [words]
  split
  case h_1 hnil => rw [htrim] at hnil; cases hnil
  case h_2 d r hcons =>
    rw [htrim] at hcons
    obtain ⟨rfl, rfl⟩ := List.cons.inj hcons
    rw [takeWhile_append_of_head? hinside hstop, dropWhile_append_of_head? hinside hstop]

theorem hasWords_words (s : List Char) : HasWords (words s) s := by
  fun_induction words s with
  | case1 s hnil => exact .nil (List.all_eq_true.mpr (List.dropWhile_eq_nil_iff.mp hnil))
  | case2 s c r hcons ih =>
    have hs : s = s.takeWhile isBlank ++ (c :: r.takeWhile (!isBlank ·)) ++
        r.dropWhile (!isBlank ·) := by
      rw [List.append_assoc, List.cons_append, List.takeWhile_append_dropWhile, ← hcons, trimLeft,
        List.takeWhile_append_dropWhile]
    have hgap : IsBlankText (s.takeWhile isBlank) :=
      List.all_eq_true.mpr fun _ hd => List.mem_takeWhile_imp hd
    have hc : isBlank c = false := of_mem_head?_dropWhile (s := s) (by rw [← trimLeft, hcons]; rfl)
    have hword : ∀ d ∈ c :: r.takeWhile (!isBlank ·), isBlank d = false :=
      List.forall_mem_cons.mpr ⟨hc, fun d hd => by simpa using List.mem_takeWhile_imp hd⟩
    have hrest : ∀ d ∈ (r.dropWhile (!isBlank ·)).head?, isBlank d = true :=
      fun d hd => by simpa using of_mem_head?_dropWhile hd
    have hall := HasWords.cons hgap (List.cons_ne_nil c _) hword hrest ih
    rwa [← hs] at hall

/-- A text has these words if and only if it is cut into them. -/
theorem hasWords_iff {ws : List (List Char)} : HasWords ws s ↔ words s = ws := by
  constructor
  · intro h
    induction h with
    | nil hgap => exact words_of_isBlankText hgap
    | cons hgap hne hword hrest _ ih => rw [words_append hgap hne hword hrest, ih]
  · rintro rfl
    exact hasWords_words s

end

/-- The text is cut into these words. -/
def SplitsInto (text : String) (ws : List String) : Prop := HasWords (ws.map String.toList) text.toList

theorem map_ofList_eq_iff {ws : List (List Char)} {ts : List String} :
    ws.map String.ofList = ts ↔ ws = ts.map String.toList := by
  constructor
  · rintro rfl
    simp
  · rintro rfl
    simp

theorem splitsInto_iff {text : String} {ws : List String} :
    SplitsInto text ws ↔ (words text.toList).map String.ofList = ws :=
  hasWords_iff.trans map_ofList_eq_iff.symm

/-- The word that an instruction of this kind begins with. -/
def ReferenceKind.word : ReferenceKind → String
  | text => "REF"
  | note => "NOTEREF"
  | page => "PAGEREF"

theorem ReferenceKind.ofWord?_eq_some_iff {w : List Char} {kind : ReferenceKind} :
    ofWord? w = some kind ↔ w = kind.word.toList := by
  constructor
  · intro h
    simp only [ofWord?] at h
    split at h <;> cases h <;> rfl
  · rintro rfl
    cases kind <;> rfl

/-- The words of the text are that of a cross-reference, then this code, and then these switches. -/
def HasReferenceWords (text : String) (kind : ReferenceKind) (code : String) (switches : List String) :
    Prop :=
  SplitsInto text (kind.word :: code :: switches)

namespace FieldInstruction

variable {text : String}

theorem ofName_ne_reference (name arguments : List Char) (kind : ReferenceKind) (code : String)
    (switches : List String) : ofName name arguments ≠ .reference kind code switches := by
  rw [ofName]
  split
  · exact nofun
  · split <;> exact nofun

theorem ofText_eq_reference_iff {kind : ReferenceKind} {code : String} {switches : List String} :
    ofText text = .reference kind code switches ↔ HasReferenceWords text kind code switches := by
  rw [HasReferenceWords, splitsInto_iff, ofText, ofChars]
  cases words text.toList with
  | nil => simp
  | cons name arguments =>
    have hname : String.ofList name = kind.word ↔ ReferenceKind.ofWord? name = some kind := by
      rw [ReferenceKind.ofWord?_eq_some_iff, ← String.toList_inj, String.toList_ofList]
    cases hkind : ReferenceKind.ofWord? name with
    | none => simp [ofName_ne_reference, hname, hkind]
    | some kind' => cases arguments <;> simp [hname, hkind]

/-- A word of a cross-reference that is alone is the name of another field. -/
theorem ofText_of_word {kind : ReferenceKind} (h : SplitsInto text [kind.word]) :
    ofText text = .other kind.word := by
  have hwords : words text.toList = [kind.word.toList] := hasWords_iff.mp h
  have hkind : ReferenceKind.ofWord? kind.word.toList = some kind :=
    ReferenceKind.ofWord?_eq_some_iff.mpr rfl
  simp [ofText, ofChars, hwords, hkind]

/-- A word that begins with a backslash is a switch. -/
def IsSwitch (w : String) : Prop := w.toList.head? = some '\\'

/-- The text names a target behind the word of a cross-reference. -/
def RefersTo (text : String) (kind : ReferenceKind) (target : String) (switches : List String) : Prop :=
  HasReferenceWords text kind target switches ∧ ¬ IsSwitch target

/-- References are those with a target if and only if no switch stands where a target should. -/
theorem eq_reference_iff_refersTo_iff :
    (∀ kind code switches,
      ofText text = .reference kind code switches ↔ RefersTo text kind code switches) ↔
    ∀ kind code switches, HasReferenceWords text kind code switches → ¬ IsSwitch code := by
  simp only [ofText_eq_reference_iff, RefersTo]
  constructor
  · intro h kind code switches hwords
    exact ((h kind code switches).mp hwords).2
  · intro h kind code switches
    exact (and_iff_left_of_imp (h kind code switches)).symm

end FieldInstruction

open FieldInstruction

/-- A field that is closed is a cross-reference if and only if its instruction is one. -/
theorem OpenField.close_eq_reference_iff {f : OpenField} {code : String} {children : List Node} :
    f.close = .reference code children ↔ children = f.children ∧
      ∃ kind switches, HasReferenceWords f.instruction kind code switches := by
  simp only [← ofText_eq_reference_iff, close]
  cases ofText f.instruction <;> simp [result, eq_comm, and_comm]

theorem OpenField.close_eq_result {f : OpenField}
    (h : ∀ kind code switches, ¬ HasReferenceWords f.instruction kind code switches) :
    f.close = f.result := by
  simp only [← ofText_eq_reference_iff] at h
  rw [close]
  split
  case h_1 kind code switches hreference => exact (h kind code switches hreference).elim
  case h_2 => rfl

/-- An instruction refers if its first word is that of a cross-reference and there is another word; this
one is the code, and the words behind it are the switches. So a switch in the place of the target is
taken for the code, and then only. The field is a cross-reference if and only if its instruction is. -/
theorem reference_of_words (text : String) :
    (∀ kind code switches, ofText text = .reference kind code switches ↔
      HasReferenceWords text kind code switches) ∧
    (∀ kind : ReferenceKind, SplitsInto text [kind.word] → ofText text = .other kind.word) ∧
    ((∀ kind code switches,
        ofText text = .reference kind code switches ↔ RefersTo text kind code switches) ↔
      ∀ kind code switches, HasReferenceWords text kind code switches → ¬ IsSwitch code) ∧
    ∀ f : OpenField, f.instruction = text →
      (∀ code children, f.close = .reference code children ↔ children = f.children ∧
        ∃ kind switches, HasReferenceWords text kind code switches) ∧
      ((∀ kind code switches, ¬ HasReferenceWords text kind code switches) →
        f.close = f.result) := by
  refine ⟨fun kind code switches => ofText_eq_reference_iff, fun kind => ofText_of_word,
    eq_reference_iff_refersTo_iff, ?_⟩
  rintro f rfl
  exact ⟨fun code children => OpenField.close_eq_reference_iff, OpenField.close_eq_result⟩

theorem switch_taken_for_code :
    ofText "REF \\h" = .reference .text "\\h" [] ∧
      (∀ kind code switches, ¬ RefersTo "REF \\h" kind code switches) ∧
      (⟨["REF \\h"], true, []⟩ : OpenField).close = .reference "\\h" [] := by
  have hwords : SplitsInto "REF \\h" ["REF", "\\h"] :=
    splitsInto_iff.mpr (by decide +kernel)
  have hreference : ofText "REF \\h" = .reference .text "\\h" [] :=
    ofText_eq_reference_iff.mpr hwords
  refine ⟨hreference, fun kind code switches hrefers => ?_,
    OpenField.close_eq_reference_iff.mpr ⟨rfl, .text, [], hwords⟩⟩
  have h := ofText_eq_reference_iff.mpr hrefers.1
  rw [hreference] at h
  obtain ⟨-, rfl, -⟩ := FieldInstruction.reference.inj h
  exact hrefers.2 rfl

end WordTex
