import WordTex.Proofs.EnclosingCommands
import WordTex.Proofs.SpanCuts

/-! # Where the texts of a layout stand

Each core stands inside of the commands for its own flags and white space only inside of commands
that go on behind it. No command is opened without a core in it, and no text is lost on the way. -/
namespace WordTex

open Level OpenCommand

namespace PlacedSpan

/-- The style commands around a span from the outermost on; other levels write nothing. -/
def commands (p : PlacedSpan) : List (Nat × Style) := p.path.filter fun c => c.2.command?.isSome

end PlacedSpan

theorem Span.flatMap_text_prependBlank (t : List Char) (spans : List Span) :
    (Span.prependBlank t spans).flatMap Span.text = t ++ spans.flatMap Span.text := by
  simp only [Span.prependBlank]
  split
  · simp [Span.text]
  · split <;> simp [*, Span.text]

theorem Span.flatMap_text_joinBlanks (spans : List Span) :
    (Span.joinBlanks spans).flatMap Span.text = spans.flatMap Span.text := by
  induction spans with
  | nil => rfl
  | cons s spans ih =>
    cases s with
    | core t styles => simp [Span.joinBlanks, ih]
    | blank t => simp [Span.joinBlanks, Span.flatMap_text_prependBlank, ih, Span.text]

private theorem flatMap_text_part (part : List Char) (s : Span) (h : s.text = part) :
    (if part = [] then [] else [s]).flatMap Span.text = part := by
  split
  · simp [*]
  · simp [h]

/-- The spans of a text are the text. -/
theorem StyledText.flatMap_text_spans (t : StyledText) :
    t.spans.flatMap Span.text = t.data.toList := by
  have hleading := flatMap_text_part (edges t.data.toList).leading (.blank _) rfl
  have hcore := flatMap_text_part (edges t.data.toList).core (.core _ t.styles) rfl
  have htrailing := flatMap_text_part (edges t.data.toList).trailing (.blank _) rfl
  rw [StyledText.spans, List.flatMap_append, List.flatMap_append, hleading, hcore, htrailing]
  exact (cut_edges t.data.toList).whole

theorem map_span_placedBlank (levels : List Level) (t u : List Char) (f : Style)
    (spans : List Span) : (placedBlank levels t).map PlacedSpan.span ++ .core u f :: spans =
      Span.prependBlank t (.core u f :: spans) := by
  simp only [placedBlank, Span.prependBlank]
  split <;> simp

/-- The spans are placed in their order, with neighbouring white space in one. -/
theorem map_span_placedSpans (levels : List Level) (count : Nat) (waiting : List Char)
    (spans : List Span) : (placedSpans levels count waiting spans).map PlacedSpan.span =
      Span.prependBlank waiting (Span.joinBlanks spans) := by
  induction spans generalizing levels count waiting with
  | nil =>
    rw [placedSpans, placedBlank]
    split <;> simp [Span.joinBlanks, Span.prependBlank, *]
  | cons s spans ih =>
    cases s with
    | blank t => rw [placedSpans, ih, Span.joinBlanks, Span.prependBlank_append]
    | core t styles =>
      rw [placedSpans, List.map_append, List.map_cons, ih, Span.prependBlank_nil, Span.joinBlanks,
        map_span_placedBlank]

variable {levels : List Level} {count : Nat}

/-- The leaves of the layout's tree are the spans where they are placed. -/
theorem leaves_ofTexts (texts : List StyledText) :
    (treeOfCommand (Nesting.ofTexts texts).nodes 0).leaves [] =
      (placedSpans [.root] 1 [] (texts.flatMap StyledText.spans)).map PlacedSpan.leaf := by
  obtain ⟨levels, hshows⟩ := Nesting.Shows.start.run (texts.flatMap StyledText.spans)
  exact hshows.tree.2.2.1

theorem map_span_ofTexts (texts : List StyledText) :
    (placedSpans [.root] 1 [] (texts.flatMap StyledText.spans)).map PlacedSpan.span =
      Span.joinBlanks (texts.flatMap StyledText.spans) := by
  rw [map_span_placedSpans, Span.prependBlank_nil]

/-- No text is lost in a layout. -/
theorem flatMap_raw_leaves (texts : List StyledText) :
    ((treeOfCommand (Nesting.ofTexts texts).nodes 0).leaves []).flatMap Leaf.raw =
      texts.flatMap fun t => t.data.toList := by
  have hraw : ((treeOfCommand (Nesting.ofTexts texts).nodes 0).leaves []).map Leaf.raw =
      (Span.joinBlanks (texts.flatMap StyledText.spans)).map Span.text := by
    rw [leaves_ofTexts, ← map_span_ofTexts, List.map_map, List.map_map]
    rfl
  rw [List.flatMap_def, hraw, ← List.flatMap_def, Span.flatMap_text_joinBlanks, List.flatMap_assoc]
  exact List.flatMap_congr fun t _ => t.flatMap_text_spans

end WordTex
