import WordTex.Proofs.OpenCommands
import WordTex.Proofs.StyleFlags

/-! # Which commands enclose which spans

The layout of a list of spans as a list: each core and each stretch of white space with the commands
around it. The tree that the layout builds has just these texts as its leaves, and its LaTeX can be
written from left to right, since a command is closed before anything behind it is known. -/
namespace WordTex

/-- A span where it is placed, with the commands around it from the outermost on. -/
structure PlacedSpan where
  span : Span
  path : List (Nat × Style)

def PlacedSpan.leaf (p : PlacedSpan) : Leaf := ⟨p.span.text, p.path⟩

namespace Level

/-- The styles that the open levels add up to. -/
def current (levels : List Level) : Style := (levels.head?.map styles).getD .empty

/-- Levels stay open as long as all they add up to is in the style. -/
def keepFor (styles : Style) (levels : List Level) : List Level :=
  levels.dropWhile fun l => !styles.contains l.styles

/-- Opens a level for each flag, from the given position on. -/
def openAll (levels : List Level) (count : Nat) : List Style → List Level
  | [] => levels
  | f :: fs => openAll (⟨count, f, (current levels).union f⟩ :: levels) (count + 1) fs

/-- The flags that a core of this style lacks. -/
def lacking (styles : Style) (levels : List Level) : List Style :=
  (styles.difference (current levels)).flags

/-- The levels around a core of this style. -/
def around (styles : Style) (levels : List Level) (count : Nat) : List Level :=
  openAll (keepFor styles levels) count (lacking styles (keepFor styles levels))

end Level

open Level OpenCommand

/-- White space, if there is any, inside of the given levels. -/
def placedBlank (levels : List Level) (text : List Char) : List PlacedSpan :=
  if text = [] then [] else [⟨.blank text, path levels⟩]

/-- The spans in their places, from a state with these open levels, this number of commands and
this white space waiting. -/
def placedSpans (levels : List Level) (count : Nat) (waiting : List Char) :
    List Span → List PlacedSpan
  | [] => placedBlank levels waiting
  | .blank t :: spans => placedSpans levels count (waiting ++ t) spans
  | .core t styles :: spans =>
    placedBlank (keepFor styles levels) waiting ++
      ⟨.core t styles, path (around styles levels count)⟩ ::
        placedSpans (around styles levels count)
          (count + (lacking styles (keepFor styles levels)).length) [] spans

/-- The commands that the spans open. -/
def openedCommands (levels : List Level) (count : Nat) : List Span → List (Nat × Style)
  | [] => []
  | .blank _ :: spans => openedCommands levels count spans
  | .core _ styles :: spans =>
    let flags := lacking styles (keepFor styles levels)
    (flags.zipIdx count).map Prod.swap ++
      openedCommands (around styles levels count) (count + flags.length) spans

/-- White space as LaTeX, if there is any. -/
def writtenBlank (escape : List Char → List Char) (text : List Char) : List Char :=
  if text = [] then [] else escape text

/-- A core with the white space before it, behind the levels that it closes and inside of those that it
opens. -/
def writtenCore (escape : List Char → List Char) (levels : List Level) (waiting t : List Char)
    (styles : Style) : List Char :=
  closings (levels.takeWhile fun l => !styles.contains l.styles) ++ writtenBlank escape waiting ++
    (lacking styles (keepFor styles levels)).flatMap Style.opening ++ escape t

/-- The spans written from left to right, from a state with these open levels, this number of commands
and this white space waiting, up to the end of all levels. -/
def writtenSpans (escape : List Char → List Char) (levels : List Level) (count : Nat)
    (waiting : List Char) : List Span → List Char
  | [] => writtenBlank escape waiting ++ closings levels
  | .blank t :: spans => writtenSpans escape levels count (waiting ++ t) spans
  | .core t styles :: spans =>
    writtenCore escape levels waiting t styles ++
      writtenSpans escape (around styles levels count)
        (count + (lacking styles (keepFor styles levels)).length) [] spans

namespace Nesting

@[simp] theorem waiting_add (s : Nesting) (p : Piece) : (s.add p).waiting = s.waiting := by
  rw [add]
  split <;> rfl

@[simp] theorem waiting_closeTo (s : Nesting) (styles : Style) :
    (s.closeTo styles).waiting = s.waiting := rfl

@[simp] theorem waiting_placeWaiting (s : Nesting) : s.placeWaiting.waiting = [] := by
  rw [placeWaiting]
  split
  · assumption
  · rfl

@[simp] theorem waiting_openFlag (s : Nesting) (flag : Style) :
    (s.openFlag flag).waiting = s.waiting := by
  rw [openFlag]
  split
  · rfl
  · exact waiting_add s _

@[simp] theorem waiting_foldl_openFlag (s : Nesting) (flags : List Style) :
    (flags.foldl openFlag s).waiting = s.waiting := by
  induction flags generalizing s with
  | nil => rfl
  | cons f fs ih => rw [List.foldl_cons, ih, waiting_openFlag]

namespace Writes

variable {s : Nesting} {escape : List Char → List Char} {levels : List Level} {leaves : List Leaf}
  {commands : List (Nat × Style)} {tex : List Char}

theorem levels_ne_nil (h : s.Writes escape levels leaves commands tex) : levels ≠ [] := by
  rintro rfl
  simp [Writes] at h

theorem current_eq (h : s.Writes escape levels leaves commands tex) : s.current = Level.current levels := by
  obtain ⟨hstack, -⟩ := h
  rw [Nesting.current, hstack, Level.current]
  cases levels <;> rfl

theorem placeWaiting (h : s.Writes escape levels leaves commands tex) :
    s.placeWaiting.Writes escape levels
      (leaves ++ (placedBlank levels s.waiting).map PlacedSpan.leaf) commands
      (tex ++ writtenBlank escape s.waiting) := by
  rw [Nesting.placeWaiting, placedBlank, writtenBlank]
  split
  · simpa using h
  · exact h.addText s.waiting

theorem closeTo (h : s.Writes escape levels leaves commands tex) (styles : Style) :
    (s.closeTo styles).Writes escape (keepFor styles levels) leaves commands
      (tex ++ closings (levels.takeWhile fun l => !styles.contains l.styles)) := by
  have hroot : ∃ l ∈ levels, styles.contains l.styles = true :=
    ⟨.root, List.mem_of_getLast? h.2.1, styles.contains_empty⟩
  have hlt := List.findIdx_lt_length_of_exists hroot
  have hstack : s.closeTo styles =
      { s with stack := s.stack.drop (levels.findIdx fun l => styles.contains l.styles) } := by
    rw [Nesting.closeTo, h.1, List.dropWhile_map, ← List.map_drop]
    congr 2
    simp [List.dropWhile_eq_drop_findIdx_not, Function.comp_def]
  have hkeep : keepFor styles levels =
      levels.drop (levels.findIdx fun l => styles.contains l.styles) := by
    simp [keepFor, List.dropWhile_eq_drop_findIdx_not]
  have hclose : (levels.takeWhile fun l => !styles.contains l.styles) =
      levels.take (levels.findIdx fun l => styles.contains l.styles) := by
    simp [List.takeWhile_eq_take_findIdx_not]
  rw [hstack, hkeep, hclose]
  exact h.drop hlt

theorem openAll (h : s.Writes escape levels leaves commands tex) (flags : List Style) :
    (flags.foldl Nesting.openFlag s).Writes escape (Level.openAll levels commands.length flags) leaves
      (commands ++ (flags.zipIdx commands.length).map Prod.swap) (tex ++ flags.flatMap Style.opening) := by
  induction flags generalizing s levels commands tex with
  | nil => simpa [Level.openAll] using h
  | cons f fs ih =>
    cases levels with
    | nil => exact (h.levels_ne_nil rfl).elim
    | cons l levels =>
      have := ih (h.openFlag f)
      simpa [Level.openAll, Level.current, List.zipIdx_cons] using this

theorem place_core (h : s.Writes escape levels leaves commands tex) (t : List Char) (styles : Style) :
    (s.place (.core t styles)).Writes escape (around styles levels commands.length)
      (leaves ++ List.map PlacedSpan.leaf (placedBlank (keepFor styles levels) s.waiting ++
        [⟨.core t styles, path (around styles levels commands.length)⟩]))
      (commands ++ ((lacking styles (keepFor styles levels)).zipIdx commands.length).map
        Prod.swap)
      (tex ++ writtenCore escape levels s.waiting t styles) := by
  have hblank := (h.closeTo styles).placeWaiting
  have hopen := (hblank.openAll (lacking styles (keepFor styles levels))).addText t
  simpa [Nesting.place, around, PlacedSpan.leaf, Span.text, lacking, hblank.current_eq,
    writtenCore] using hopen

theorem run (h : s.Writes escape levels leaves commands tex) (spans : List Span) :
    ∃ levels' tex', (spans.foldl Nesting.place s).placeWaiting.Writes escape levels'
      (leaves ++ (placedSpans levels commands.length s.waiting spans).map PlacedSpan.leaf)
      (commands ++ openedCommands levels commands.length spans) tex' ∧
      tex' ++ closings levels' = tex ++ writtenSpans escape levels commands.length s.waiting spans := by
  induction spans generalizing s levels leaves commands tex with
  | nil =>
    exact ⟨levels, _, by simpa [placedSpans, openedCommands] using h.placeWaiting,
      by simp [writtenSpans]⟩
  | cons span spans ih =>
    cases span with
    | blank t => exact ih (s := { s with waiting := s.waiting ++ t }) h
    | core t styles =>
      obtain ⟨levels', tex', h', htex⟩ := ih (h.place_core t styles)
      have hwaiting : (s.place (.core t styles)).waiting = [] := by simp [Nesting.place]
      refine ⟨levels', tex', by simpa [placedSpans, openedCommands, hwaiting] using h', ?_⟩
      simpa [writtenSpans, hwaiting] using htex

end Writes

theorem Shows.run {s : Nesting} {levels : List Level} {leaves : List Leaf}
    {commands : List (Nat × Style)} (h : s.Shows levels leaves commands) (spans : List Span) :
    ∃ levels', (spans.foldl Nesting.place s).placeWaiting.Shows levels'
      (leaves ++ (placedSpans levels commands.length s.waiting spans).map PlacedSpan.leaf)
      (commands ++ openedCommands levels commands.length spans) := by
  obtain ⟨tex, hwrites⟩ := h.exists_writes id
  obtain ⟨levels', tex', hrun, -⟩ := hwrites.run spans
  exact ⟨levels', hrun.shows⟩

end Nesting

/-- The LaTeX of a list of texts, written from left to right. -/
theorem texOfTexts_eq_writtenSpans (options : LatexOptions) (texts : List StyledText) :
    texOfTexts options texts =
      writtenSpans (escapeChars options) [.root] 1 [] (texts.flatMap StyledText.spans) := by
  have hstart : Nesting.start.Writes (escapeChars options) [.root] [] [(0, .empty)] [] :=
    Nesting.Writes.start
  obtain ⟨levels, tex, hwrites, htex⟩ := hstart.run (texts.flatMap StyledText.spans)
  rw [texOfTexts, texOfCommand_eq]
  exact hwrites.tree.2.2.2.2.trans htex

end WordTex
