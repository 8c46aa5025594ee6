import WordTex.Proofs.DocumentRuns
import WordTex.Proofs.LatexSafety

/-! # The LaTeX of documents is lexically safe

Documents that were read have no commands of their own, so there is nothing to ask of their names. -/
namespace WordTex

theorem hasCommandName_of_ofSource {source : PartSource} {log log' : List Notice} {d : Document}
    (h : Runs (DocumentReading.ofSource source) log d log') : ∀ m ∈ d.walk, m.HasCommandName :=
  Inherited.forall_mem_walk
    (.walk (fun _ => trivial) (fun _ _ => trivial) (fun _ _ => trivial) fun _ _ => trivial)
    (fun _ _ _ => trivial) h

variable {options : LatexOptions}

theorem lexicallySafe_nodeTex (hcommand : IsCommandName options.referenceCommand) (n : Node)
    (h : ∀ m ∈ n.walk, m.HasCommandName) : LexicallySafe (n.tex options) :=
  lexicallySafe_of_safeText (safeText_tex hcommand n h)

theorem lexicallySafe_documentTex (hcommand : IsCommandName options.referenceCommand)
    (d : Document) (h : ∀ m ∈ d.walk, m.HasCommandName) : LexicallySafe (d.tex options) := by
  have hnode := lexicallySafe_nodeTex hcommand (.document d) <|
    Node.forall_mem_walk trivial fun c hc m hm => h m (Document.mem_walk_iff.mpr ⟨c, hc, hm⟩)
  rw [Node.tex_document] at hnode
  exact hnode

/-- The LaTeX of nodes and documents is lexically safe if the names of their commands are one letter
or more, and that of documents that were read always is. -/
theorem lexicallySafe_tex (hcommand : IsCommandName options.referenceCommand) :
    (∀ n : Node, (∀ m ∈ n.walk, m.HasCommandName) → LexicallySafe (n.tex options)) ∧
      (∀ d : Document, (∀ m ∈ d.walk, m.HasCommandName) → LexicallySafe (d.tex options)) ∧
      ∀ source log d log', (DocumentReading.ofSource source).run.run log = (.ok d, log') →
        LexicallySafe (d.tex options) :=
  ⟨lexicallySafe_nodeTex hcommand, lexicallySafe_documentTex hcommand, fun _ _ d _ h =>
    lexicallySafe_documentTex hcommand d (hasCommandName_of_ofSource h)⟩

theorem lexicallySafe_tex_of_emph :
    IsCommandName ({} : LatexOptions).referenceCommand ∧
      LexicallySafe ((Node.named "emph" ⟨[.text ⟨"50% of a_b", .bold⟩], []⟩).tex {}) := by
  refine ⟨by decide, (lexicallySafe_tex (by decide)).1 _ ?_⟩
  refine Node.forall_mem_walk (show IsCommandName "emph" by decide) fun c hc => ?_
  obtain rfl := List.mem_singleton.mp hc
  exact Node.forall_mem_walk trivial (by simp [Node.children])

/-- A name without letters takes the brace of its command away. -/
theorem not_lexicallySafe_of_empty_name :
    ¬ ∀ (options : LatexOptions) (n : Node), (∀ c ∈ options.referenceCommand.toList, c.isAlpha = true) →
      (∀ name body, .named name body ∈ n.walk → ∀ c ∈ name.toList, c.isAlpha = true) →
      LexicallySafe (n.tex options) := by
  intro hall
  have hcommand : IsCommandName ({} : LatexOptions).referenceCommand := by decide
  have hsafe := hall {} (.named "" ⟨[], []⟩) hcommand.2 (by simp [Node.walk, walkAll])
  have htex : (Node.named "" ⟨[], []⟩).tex {} = ['\\', '\x7b', '\x7d'] := by
    rw [Node.tex_named]
    rfl
  have hbraces := hsafe.braces.total
  rw [htex] at hbraces
  exact absurd hbraces (by decide)

end WordTex
