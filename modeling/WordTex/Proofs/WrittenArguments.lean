import WordTex.Proofs.CommandArguments
import WordTex.Proofs.DocumentRuns

/-! # Labels and cross-references in the LaTeX of trees

Neither text nor a paragraph or note is written with the command of labels or that of
cross-references. So their uses in the LaTeX of a tree, in order, are those of the nodes that are
written. -/
namespace WordTex

variable {name : String}

namespace Lacks

theorem commandTex {command : String} {body : List Char} (hcommand : Lacks name (opening command))
    (hbody : Lacks name body) : Lacks name (commandTex command body) := by
  have hend : Lacks name ['\x7d'] := of_not_mem (by decide)
  simpa [WordTex.commandTex, opening] using (hcommand.append hbody).append hend

end Lacks

/-- The commands of styled text, of paragraphs and of notes. -/
def textCommands : List String :=
  ["textbf", "textit", "underline", "hspace", "textsubscript", "textsuperscript", "section",
    "subsection", "subsubsection", "footnote", "endnote"]

/-- Neither text nor a paragraph or note is written with the command. -/
structure IsSeparateCommand (name : String) : Prop where
  isName : IsCommandName name
  characters : ∀ e ∈ CharacterTable.all, Lacks name e.value
  commands : ∀ c ∈ textCommands, Lacks name (opening c)
  example_begin : Lacks name "\\begin\x7bexe\x7d\n  \\ex ".toList
  example_end : Lacks name "\n\\end\x7bexe\x7d".toList

theorem isSeparateCommand_label : IsSeparateCommand "label" where
  isName := by decide
  characters := by decide +kernel
  commands := by decide +kernel
  example_begin := by decide +kernel
  example_end := by decide +kernel

theorem isSeparateCommand_cref : IsSeparateCommand "Cref" where
  isName := by decide
  characters := by decide +kernel
  commands := by decide +kernel
  example_begin := by decide +kernel
  example_end := by decide +kernel

namespace IsSeparateCommand

variable (h : IsSeparateCommand name)

include h

theorem lacks_replaceCharacters (text : List Char) : Lacks name (replaceCharacters text) := by
  refine Substitution.apply_induction .nil (fun ha hb => ha.append hb) h.characters (fun c hc => ?_) text
  refine .of_not_mem fun hback => ?_
  obtain rfl := List.mem_singleton.mp hback
  obtain ⟨e, he, hpattern⟩ := CharacterTable.exists_pattern (c := '\\') (.inl rfl)
  exact hc e he hpattern

theorem lacks_blankRule (points : Nat) : Lacks name (blankRule points) := by
  have hdigits : '\\' ∉ (toString points).toList := by
    intro hc
    rw [Nat.toString_eq_ofList_toDigits, String.toList_ofList] at hc
    exact absurd (Nat.isDigit_of_mem_toDigits (by decide) (by decide) hc) (by decide)
  have hwidth : Lacks name ((toString points).toList ++ "pt".toList) :=
    (Lacks.of_not_mem hdigits).append (.of_not_mem (by decide))
  have hspace : Lacks name (commandTex "hspace" ((toString points).toList ++ "pt".toList)) :=
    .commandTex (h.commands _ (by decide)) hwidth
  simpa [blankRule, commandTex] using Lacks.commandTex (h.commands "underline" (by decide)) hspace

theorem foldlM_of_ruleForm {missing after : List Char} {c : Char} {u : List Char}
    (hc : RuleForm c u) (hnext : missingAfter name missing c = some after) :
    u.foldlM (missingAfter name) missing = some after := by
  by_cases hr : c = '_'
  · -- an underscore is accepted only where no command has begun
    subst hr
    obtain ⟨rfl, rfl⟩ : missing = [] ∧ after = [] := by
      cases missing with
      | nil => exact ⟨rfl, (Option.some.inj hnext).symm⟩
      | cons d more => simp [missingAfter, isCommandChar] at hnext
    obtain rfl | ⟨points, rfl⟩ : u = [] ∨ ∃ points, u = blankRule points := by
      simpa [RuleForm] using hc
    · rfl
    · exact h.lacks_blankRule points
  · obtain rfl : u = [c] := by simpa [RuleForm, hr] using hc
    rw [List.foldlM_cons, hnext]
    rfl

omit h in
/-- A quote is no part of a command. -/
theorem missingAfter_quote {c : Char} (hc : c = '\x27' ∨ c = '\x22' ∨ c = '\x60')
    (missing : List Char) : missingAfter name missing c = some [] := by
  rcases hc with rfl | rfl | rfl <;> cases missing <;> simp [missingAfter, isCommandChar]

omit h in
theorem foldlM_quotes {u : List Char} (hu : u ≠ [])
    (hq : ∀ c ∈ u, c = '\x27' ∨ c = '\x22' ∨ c = '\x60') (missing : List Char) :
    u.foldlM (missingAfter name) missing = some [] := by
  induction u generalizing missing with
  | nil => exact (hu rfl).elim
  | cons c u ih =>
    rw [List.foldlM_cons, missingAfter_quote (hq c List.mem_cons_self)]
    cases u with
    | nil => rfl
    | cons d u => exact ih (by simp) (fun e he => hq e (List.mem_cons_of_mem c he)) []

omit h in
theorem lacks_convert {m : QuotePairs.Marks} (hm : m = QuotePairs.single ∨ m = QuotePairs.double) {text : List Char}
    (htext : Lacks name text) : Lacks name (QuotePairs.convert m text) := by
  have hform : ∀ {missing after c u}, QuotePairs.QuoteForm m c u →
      missingAfter name missing c = some after → u.foldlM (missingAfter name) missing = some after := by
    intro missing after c u hu hnext
    rcases hu with rfl | ⟨rfl, hu⟩
    · rw [List.foldlM_cons, hnext]
      rfl
    · have hstraight : m.straight = '\x27' ∨ m.straight = '\x22' ∨ m.straight = '\x60' := by
        rcases hm with rfl | rfl <;> simp [QuotePairs.single, QuotePairs.double]
      rw [missingAfter_quote hstraight] at hnext
      obtain rfl := Option.some.inj hnext
      refine foldlM_quotes ?_ ?_ missing <;>
        rcases hm with rfl | rfl <;> rcases hu with rfl | rfl <;>
          simp [QuotePairs.single, QuotePairs.double]
  exact (QuotePairs.rewrites_convertFrom m true text).foldlM (f := missingAfter name)
    (g := missingAfter name) hform htext

theorem lacks_escapeChars (options : LatexOptions) (text : List Char) :
    Lacks name (escapeChars options text) := by
  have hruled : Lacks name (fillInBlanks options.underscoreWidth (replaceCharacters text)) :=
    (rewrites_fillInBlanks _ _).foldlM (f := missingAfter name) (g := missingAfter name)
      h.foldlM_of_ruleForm (h.lacks_replaceCharacters text)
  rw [escapeChars]
  split
  · exact lacks_convert (.inr rfl) (lacks_convert (.inl rfl) hruled)
  · exact hruled

theorem lacks_texOfTexts (options : LatexOptions) (texts : List StyledText) :
    Lacks name (texOfTexts options texts) := by
  refine texOfCommand_induction .nil (fun ha hb => ha.append hb) (fun hf hbody => ?_)
    (h.lacks_escapeChars options) _ 0
  have hnames : ∀ {flag : Style} {command}, flag.command? = some command → command ∈ textCommands := by
    intro flag command hf
    rw [Style.command?] at hf
    split_ifs at hf <;> cases hf <;> decide
  exact .commandTex (h.commands _ (hnames hf)) hbody

end IsSeparateCommand

/-- If the node is a command, it is another one. -/
def Node.IsOther (name : String) : Node → Prop
  | .named command _ => Lacks name (opening command)
  | _ => True

theorem HasArguments.inCommand {command : String} {body : List Char} {ks : List String}
    (hname : IsCommandName name) (hcommand : Lacks name (opening command))
    (hbody : HasArguments name body ks) : HasArguments name (WordTex.commandTex command body) ks := by
  have hend : HasArguments name ['\x7d'] [] := of_not_mem (by decide)
  simpa [WordTex.commandTex, opening] using ((hcommand.hasArguments hname).append hbody).append hend

/-- The steps by which trees are written add no arguments of their own. -/
theorem IsSeparateCommand.texRelation (h : IsSeparateCommand name) {options : LatexOptions}
    {ofLabels : List String → List String} {ofReference : String → List String}
    (no_labels : ofLabels [] = [])
    (labels : ∀ ls, HasArguments name (labelsTex options ls) (ofLabels ls))
    (reference : ∀ code, HasArguments name
      (commandTex options.referenceCommand (labelKey code).toList) (ofReference code)) :
    TexRelation options (HasArguments name) ofLabels ofReference where
  nil := .nil
  append ha hb := ha.append hb
  trimLeft h := h.trimLeft
  added h := .of_not_mem fun hback => absurd (h _ hback) (by decide)
  texts ts := (h.lacks_texOfTexts options ts).hasArguments h.isName
  command hname hbody :=
    hbody.inCommand h.isName (h.commands _ ((by decide : treeCommands ⊆ textCommands) hname))
  numbered hbody := by
    have hwhole := ((h.example_begin.hasArguments h.isName).append hbody).append
      (h.example_end.hasArguments h.isName)
    rw [List.nil_append, List.append_nil] at hwhole
    exact hwhole
  no_labels := no_labels
  labels := labels
  reference := reference

/-- The code of a cross-reference. -/
def Node.referenceCode? : Node → Option String
  | .reference code _ => some code
  | _ => none

/-- With the default options every bookmark is written as a label. -/
theorem texRelation_label :
    TexRelation {} (HasArguments "label") (·.map labelKey) (fun _ => []) := by
  refine isSeparateCommand_label.texRelation rfl (fun ls => ?_) fun code =>
    (Lacks.commandTex (by decide) (.key code)).hasArguments isSeparateCommand_label.isName
  have hlabel : ∀ l ∈ ls, HasArguments "label" (commandTex "label" (labelKey l).toList) [labelKey l] :=
    fun l _ => .commandTex_labelKey (by decide) l
  rw [← List.flatMap_singleton' (ls.map labelKey), List.flatMap_map]
  exact .flatMap hlabel

/-- With the default options a cross-reference is written with the key of its code. -/
theorem texRelation_cref :
    TexRelation {} (HasArguments "Cref") (fun _ => []) (fun code => [labelKey code]) := by
  refine isSeparateCommand_cref.texRelation rfl (fun ls => ?_) fun code =>
    .commandTex_labelKey (by decide) code
  have hlabel : ∀ l ∈ ls, HasArguments "Cref" (commandTex "label" (labelKey l).toList) [] :=
    fun l _ => (Lacks.commandTex (by decide) (.key l)).hasArguments isSeparateCommand_cref.isName
  have hnone : ls.flatMap (fun _ => ([] : List String)) = [] := by simp
  rw [← hnone]
  exact .flatMap hlabel

namespace Document

variable {d : Document}

theorem argumentsOf_tex (hname : IsCommandName name) {ofLabels : List String → List String}
    {ofReference : String → List String}
    (h : TexRelation {} (HasArguments name) ofLabels ofReference) (hd : ∀ m ∈ d.walk, m.IsOther name) :
    argumentsOf name (d.tex {}) =
      d.written.flatMap (Node.contribution ofLabels ofReference) ++ ofLabels d.labels := by
  have hwalk : ∀ m ∈ (Node.document d).walk, m.IsOther name := by
    exact Node.forall_mem_walk trivial fun c hc m hm => hd m (mem_walk_iff.mpr ⟨c, hc, hm⟩)
  have hnode := h.nodeTex (.document d) fun command c hm _ _ hbody => hbody.inCommand hname (hwalk _ hm)
  rw [Node.tex_document, Node.written_document, List.flatMap_append, List.flatMap_singleton] at hnode
  exact hnode.eq_argumentsOf

/-- The labels in the LaTeX of a document are those of the nodes that are written and its own. -/
theorem argumentsOf_label (hd : ∀ m ∈ d.walk, m.IsOther "label") :
    argumentsOf "label" (d.tex {}) = (d.written.flatMap Node.labels ++ d.labels).map labelKey := by
  have hown : Node.contribution (·.map labelKey) (fun _ => []) = fun n => n.labels.map labelKey := by
    funext n
    cases n <;> rfl
  rw [argumentsOf_tex isSeparateCommand_label.isName texRelation_label hd, List.map_append,
    List.map_flatMap, hown]

/-- The cross-references in the LaTeX of a document are those that are written. -/
theorem argumentsOf_cref (hd : ∀ m ∈ d.walk, m.IsOther "Cref") :
    argumentsOf "Cref" (d.tex {}) = (d.written.filterMap Node.referenceCode?).map labelKey := by
  have hown : Node.contribution (fun _ => []) (fun code => [labelKey code]) =
      fun n => (n.referenceCode?.map labelKey).toList := by
    funext n
    cases n <;> rfl
  rw [argumentsOf_tex isSeparateCommand_cref.isName texRelation_cref hd, List.append_nil,
    List.map_filterMap, List.filterMap_eq_flatMap_toList, hown]

end Document

/-- Documents that were read have no commands of their own. -/
theorem isOther_of_ofSource (name : String) {source : PartSource} {log log' : List Notice}
    {d : Document} (h : Runs (DocumentReading.ofSource source) log d log') :
    ∀ m ∈ d.walk, m.IsOther name :=
  Inherited.forall_mem_walk
    (.walk (fun _ => trivial) (fun _ _ => trivial) (fun _ _ => trivial) fun _ _ => trivial)
    (fun _ _ _ => trivial) h

end WordTex
