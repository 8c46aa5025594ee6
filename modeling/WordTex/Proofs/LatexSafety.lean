import WordTex.Proofs.EscapedText
import WordTex.Proofs.RenderedTrees

/-! # LaTeX output is lexically safe -/
namespace WordTex

theorem plain_of_isAddedChar {c : Char} (h : isAddedChar c = true) :
    TexState.isDelimiter c = false ∧ isPlainChar c = true := by
  simp only [isAddedChar, Bool.or_eq_true, beq_iff_eq] at h
  rcases h with (((h | rfl) | rfl) | rfl) | rfl
  · exact plain_of_isKeyChar h
  all_goals decide

/-- A name that a backslash can be put in front of: one ASCII letter or more. -/
def IsCommandName (name : String) : Prop := name ≠ "" ∧ ∀ c ∈ name.toList, c.isAlpha = true

instance (name : String) : Decidable (IsCommandName name) :=
  decidable_of_iff (name ≠ "" ∧ name.toList.all Char.isAlpha = true)
    (and_congr_right' List.all_eq_true)

/-- A node that is written as a command of its own has a name for it. -/
def Node.HasCommandName : Node → Prop
  | .named name _ => IsCommandName name
  | _ => True

namespace SafeText

theorem of_letters {name : List Char} (h : ∀ c ∈ name, c.isAlpha = true) :
    SafeText isPlainChar name :=
  of_all fun c hc => plain_of_isKeyChar (by simp [isKeyChar, Char.isAlphanum, h c hc])

theorem commandTex (name : String) {body : List Char} (hname : IsCommandName name)
    (hbody : SafeText isPlainChar body) : SafeText isPlainChar (commandTex name body) := by
  obtain ⟨hne, hletters⟩ := hname
  have hword : SafeText isPlainChar ('\\' :: name.toList) := by
    cases hl : name.toList with
    | nil => exact (hne (by simpa using hl)).elim
    | cons c cs =>
      rw [hl] at hletters
      have hc : c ≠ '_' := by
        rintro rfl
        simpa using hletters '_' List.mem_cons_self
      exact .taken hc (of_letters fun e he => hletters e (List.mem_cons_of_mem c he))
  simpa [WordTex.commandTex] using hword.append hbody.braced

theorem key (bookmark : String) : SafeText isPlainChar (labelKey bookmark).toList := by
  refine of_all fun c hc => plain_of_isKeyChar ?_
  simp only [labelKey, String.toList_ofList, List.mem_filter] at hc
  exact hc.2

theorem labelsTex (options : LatexOptions) (labels : List String) :
    SafeText isPlainChar (labelsTex options labels) := by
  rw [WordTex.labelsTex]
  split
  · refine flatMap fun l _ => ?_
    simpa [WordTex.commandTex] using commandTex "label" (by decide) (key l)
  · exact nil

theorem tail_of_blank {c : Char} {tex : List Char} (hc : isBlank c = true)
    (h : SafeText isPlainChar (c :: tex)) : SafeText isPlainChar tex := by
  intro depth
  have hd := h depth
  rw [TexState.read_cons] at hd
  obtain ⟨u, hu, hd⟩ := Option.bind_eq_some_iff.mp hd
  have hnext : u = .inText depth := by
    unfold TexState.inText at hu ⊢
    cases TexState.step_of_next hu with
    | plain => rfl
    | backslash => simp [isBlank] at hc
    | dollar => simp [isBlank] at hc
    | opens => simp [isBlank] at hc
    | closes => simp [isBlank] at hc
  rwa [hnext] at hd

theorem trimLeft {tex : List Char} (h : SafeText isPlainChar tex) :
    SafeText isPlainChar (trimLeft tex) := by
  induction tex with
  | nil => exact h
  | cons c tex ih =>
    rw [WordTex.trimLeft, List.dropWhile_cons]
    split
    · rename_i hc
      exact ih (tail_of_blank hc h)
    · exact h

end SafeText

theorem Style.isCommandName_of_command? {flag : Style} {name : String}
    (h : flag.command? = some name) : IsCommandName name := by
  have hnames : ∀ n ∈ ["textbf", "textit", "underline", "textsubscript", "textsuperscript"],
      IsCommandName n := by decide
  refine hnames name ?_
  rw [command?] at h
  split_ifs at h <;> simp_all

/-- What holds of escaped texts, and passes to texts put together and to commands around them, holds
of nested commands. -/
theorem texOfCommand_induction {K : List Char → Prop} {escape : List Char → List Char} (hnil : K [])
    (happend : ∀ {a b}, K a → K b → K (a ++ b))
    (hcommand : ∀ {flag : Style} {name body}, flag.command? = some name → K body →
      K (commandTex name body))
    (hescape : ∀ raw, K (escape raw)) (nodes : List CommandNode) (index : Nat) :
    K (texOfCommand escape nodes index) := by
  have hflatMap : ∀ {f : Piece → List Char} {ps : List Piece}, (∀ p ∈ ps, K (f p)) →
      K (ps.flatMap f) := by
    intro f ps h
    induction ps with
    | nil => exact hnil
    | cons p ps ih =>
      exact happend (h p List.mem_cons_self) (ih fun q hq => h q (List.mem_cons_of_mem p hq))
  have hinCommand : ∀ {flag : Style} {body}, K body → K (inCommand flag.command? body) := by
    intro flag body h
    cases hf : flag.command? with
    | none => exact h
    | some name => exact hcommand hf h
  induction index using texOfCommand.induct nodes with
  | case1 index hnone =>
    rw [texOfCommand]
    split
    · exact hnil
    · simp_all
  | case2 index node hnode ih =>
    rw [texOfCommand]
    split
    · exact hnil
    rename_i node' hnode'
    refine hinCommand (hflatMap fun piece _ => ?_)
    cases piece with
    | text raw => exact hescape raw
    | command child =>
      dsimp only
      split
      · exact ih child ‹_›
      · exact hnil

theorem safeText_texOfTexts (options : LatexOptions) (texts : List StyledText) :
    SafeText isPlainChar (texOfTexts options texts) :=
  texOfCommand_induction .nil (fun ha hb => ha.append hb)
    (fun hf h => .commandTex _ (Style.isCommandName_of_command? hf) h) (safeText_escapeChars options) _ 0

variable {options : LatexOptions}

/-- The steps by which trees are written keep texts safe. -/
theorem texRelation_safeText (hcommand : IsCommandName options.referenceCommand) :
    TexRelation options (fun tex (_ : List Empty) => SafeText isPlainChar tex) (fun _ => [])
      (fun _ => []) where
  nil := .nil
  append ha hb := ha.append hb
  trimLeft h := h.trimLeft
  added h := .of_all fun c hc => plain_of_isAddedChar (h c hc)
  texts := safeText_texOfTexts options
  command hname h := .commandTex _ ((by decide : ∀ c ∈ treeCommands, IsCommandName c) _ hname) h
  numbered h := ((SafeText.of_read (by decide)).append h).append (.of_read (by decide))
  no_labels := rfl
  labels := .labelsTex options
  reference code := .commandTex _ hcommand (.key code)

theorem safeText_tex (hcommand : IsCommandName options.referenceCommand) (n : Node)
    (h : ∀ m ∈ n.walk, m.HasCommandName) : SafeText isPlainChar (n.tex options) :=
  (texRelation_safeText hcommand).nodeTex n fun name _ hm _ _ hbody => .commandTex name (h _ hm) hbody

end WordTex
