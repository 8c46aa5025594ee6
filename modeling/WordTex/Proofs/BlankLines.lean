import WordTex.Proofs.DocumentSafety
import WordTex.Proofs.DocumentShape
import WordTex.Proofs.IndependentParagraphs
import WordTex.Proofs.LineFeeds
import WordTex.Proofs.PlacedTexts

/-! # Where LaTeX has blank lines

Paragraphs are separated by a blank line. Inside of a paragraph that cites no notes there is none, unless
the text of the paragraph has one. -/
namespace WordTex

open DocumentReading

/-- What stands in a text for something that is not a text. -/
def objectMark : Char := '\uFFFC'

/-- A text in the form of a role. A numbered example ends its last line. -/
def roleText (role : Role) (text : List Char) : List Char :=
  match role with
  | .numberedExample => text ++ ['\n']
  | _ => text

mutual

/-- What there is to see of a node. Labels, cross-references and notes are marks. -/
def Node.shownText : Node → List Char
  | .text t => t.data.toList
  | .group role ⟨children, labels⟩ =>
    roleText role (shownTextAll children ++ labels.map fun _ => objectMark)
  | _ => [objectMark]

def shownTextAll : List Node → List Char
  | [] => []
  | n :: ns => n.shownText ++ shownTextAll ns

end

theorem shownTextAll_eq_flatMap (ns : List Node) : shownTextAll ns = ns.flatMap Node.shownText := by
  induction ns with
  | nil => rfl
  | cons n ns ih => rw [shownTextAll, ih, List.flatMap_cons]

theorem Node.shownText_group (role : Role) (ns : List Node) (labels : List String) :
    (Node.group role ⟨ns, labels⟩).shownText =
      roleText role (shownTextAll ns ++ labels.map fun _ => objectMark) := by
  rw [shownText]

def Node.isNote : Node → Bool
  | .note _ _ _ => true
  | _ => false

theorem IsCommandName.not_mem {name : String} (h : IsCommandName name) : '\n' ∉ name.toList :=
  fun hmem => absurd (h.2 '\n' hmem) (by decide)

namespace LinesKept

variable {unseen unseen' : Char → Bool} {text tex : List Char}

theorem commandTex {name : String} (hname : IsCommandName name)
    (h : LinesKept unseen unseen' text tex) : LinesKept unseen unseen' text (commandTex name tex) := by
  have hopening : LinesKept unseen unseen' [] ('\\' :: name.toList ++ ['\x7b']) :=
    added (by simp [hname.not_mem])
  have hclosing : LinesKept unseen unseen' [] ['\x7d'] := added (by decide)
  simpa [WordTex.commandTex] using (hopening.append h).append hclosing

theorem inCommand (flag : Style) (h : LinesKept unseen unseen' text tex) :
    LinesKept unseen unseen' text (inCommand flag.command? tex) := by
  cases hflag : flag.command? with
  | none => exact h
  | some name => exact commandTex (Style.isCommandName_of_command? hflag) h

/-- A command within a line is a mark. -/
theorem mark {name : String} (hname : IsCommandName name) {body : List Char} (hbody : '\n' ∉ body) :
    LinesKept isUnseen isBlank [objectMark] (WordTex.commandTex name body) := by
  refine inLine (by decide) ?_ ?_
  · simp [WordTex.commandTex, hname.not_mem, hbody]
  · simp [WordTex.commandTex, show isBlank '\\' = false by decide]

end LinesKept

mutual

/-- The commands around texts keep the lines that the texts are made of. -/
theorem StyleTree.linesKept {escape : List Char → List Char}
    (hescape : ∀ raw, LinesKept isUnseen isBlank raw (escape raw)) :
    ∀ (path : List (Nat × Style)) (t : StyleTree),
      LinesKept isUnseen isBlank ((t.leaves path).flatMap Leaf.raw) (t.tex escape)
  | path, .text raw => by simpa [leaves, tex] using hescape raw
  | path, .command index flag children => by
    rw [leaves, tex]
    exact .inCommand flag (linesKeptAll hescape (path ++ [(index, flag)]) children)

theorem StyleTree.linesKeptAll {escape : List Char → List Char}
    (hescape : ∀ raw, LinesKept isUnseen isBlank raw (escape raw)) :
    ∀ (path : List (Nat × Style)) (ts : List StyleTree),
      LinesKept isUnseen isBlank ((leavesAll path ts).flatMap Leaf.raw) (texAll escape ts)
  | path, [] => .nil
  | path, t :: ts => by
    rw [leavesAll, texAll, List.flatMap_append]
    exact (t.linesKept hescape path).append (linesKeptAll hescape path ts)

end

theorem LinesKept.texts (options : LatexOptions) (ts : List StyledText) :
    LinesKept isUnseen isBlank (ts.flatMap fun t => t.data.toList) (texOfTexts options ts) := by
  rw [texOfTexts, texOfCommand_eq, ← flatMap_raw_leaves]
  exact StyleTree.linesKept (.escapeChars options) [] _

theorem not_mem_labelKey (bookmark : String) : '\n' ∉ (labelKey bookmark).toList := by
  rw [labelKey, String.toList_ofList, List.mem_filter]
  exact fun h => absurd h.2 (by decide)

theorem Node.forall_written_of_group {role : Role} {ns : List Node} {labels : List String} {P : Node → Prop}
    (h : ∀ m ∈ (Node.group role ⟨ns, labels⟩).written, P m) : ∀ n ∈ ns, ∀ m ∈ n.written, P m := by
  intro n hn m hm
  rw [written_group, writtenAll_eq_flatMap] at h
  exact h m (List.mem_append_left _ (List.mem_flatMap.mpr ⟨n, hn, hm⟩))

theorem Node.IsInline.isBlock_eq_false {isNote : NoteKind → String → Container → Prop} {n : Node}
    (h : n.IsInline isNote) : n.isBlock = false := by
  cases h <;> rfl

theorem Node.IsParagraph.isBlock {isNote : NoteKind → String → Container → Prop} {p : Node}
    (h : p.IsParagraph isNote) : p.isBlock = true := by
  obtain ⟨role, ns, ls, hrole, -⟩ := h
  exact hrole

namespace LinesKept

theorem labels (labels : List String) :
    LinesKept isUnseen isBlank (labels.map fun _ => objectMark) (labelsTex {} labels) := by
  have hlabels : LinesKept isUnseen isBlank (labels.flatMap fun _ => [objectMark])
      (labels.flatMap fun l => WordTex.commandTex "label" (labelKey l).toList) :=
    flatMap fun l _ => mark (by decide) (not_mem_labelKey l)
  rw [← List.map_eq_flatMap] at hlabels
  exact hlabels

theorem missingNote (kind : NoteKind) (id : String) :
    LinesKept isUnseen isBlank [objectMark] (missingNoteTex kind id) := by
  have hkind : '\n' ∉ kind.toText.toList := by cases kind <;> decide
  rw [missingNoteTex_eq]
  refine mark (by decide) ?_
  simp [hkind, not_mem_labelKey]

/-- Nodes that stand in the line have nothing between them. -/
theorem nodesTex {ns : List Node} (hinline : ∀ n ∈ ns, n.isBlock = false)
    (h : ∀ n ∈ ns, LinesKept isUnseen isBlank n.shownText (n.tex {})) :
    LinesKept isUnseen isBlank (shownTextAll ns) (nodesTex {} ns) := by
  have hbetween : ∀ g ∈ groupNodes ns, ∀ g' ∈ groupNodes ns, nodeSeparator g g' = [] := by
    intro g hg g' _
    cases g with
    | texts ts => rfl
    | single n =>
      have hn := hinline n (SiblingGroup.mem_of_single_mem_ofList hg)
      cases g' with
      | texts ts => rfl
      | single m => simp [nodeSeparator, hn]
  have hrun : ∀ n ∈ ns, ∀ t, n.runText? = some t → n.shownText = t.data.toList := by
    intro n _ t ht
    cases n with
    | text s =>
      rw [Node.runText?] at ht
      split at ht
      · cases ht
      · rw [Node.shownText, Option.some.inj ht]
    | _ => cases ht
  rw [nodesTex_eq_joinWith, joinWith_eq_flatMap _ _ hbetween, shownTextAll_eq_flatMap,
    ← SiblingGroup.flatMap_collect_ofList hrun]
  refine flatMap fun g hg => ?_
  cases g with
  | texts ts => exact texts {} ts
  | single n => exact h n (SiblingGroup.mem_of_single_mem_ofList hg)

/-- The line feeds around an example are no blank lines by themselves. -/
theorem numbered {text tex : List Char} (h : LinesKept isUnseen isBlank text tex) :
    LinesKept isUnseen isBlank (text ++ ['\n'])
      ("\\begin\x7bexe\x7d\n  \\ex ".toList ++ tex ++ "\n\\end\x7bexe\x7d".toList) := by
  have hopening : LinesKept isUnseen isBlank [] "\\begin\x7bexe\x7d\n  \\ex ".toList := by
    rintro fed fed' after hfed ⟨⟩
    exact ⟨false, by cases fed' <;> rfl, nofun⟩
  have hclosing : LinesKept isUnseen isBlank [] "\\end\x7bexe\x7d".toList := added (by decide)
  exact (hopening.append h).append (lineFeed.append hclosing)

/-- A node that stands in the line and contains no note keeps the lines of its text. -/
theorem inlineTex {isNote : NoteKind → String → Container → Prop} {n : Node} (h : n.IsInline isNote)
    (hnotes : ∀ m ∈ n.written, m.isNote = false) :
    LinesKept isUnseen isBlank n.shownText (n.tex {}) := by
  induction h with
  | text t =>
    rw [Node.shownText, Node.tex_text]
    split
    case isTrue hbreak =>
      have hdata : t.data = "\n" := by simpa [StyledText.isLineBreak] using hbreak
      rw [hdata]
      exact lineFeed
    case isFalse => simpa using texts {} [t]
  | unresolved kind id =>
    rw [Node.shownText, Node.tex_unresolved]
    · exact missingNote kind id
    all_goals simp
  | note kind id c hc =>
    have hself := hnotes (.note kind (some id) c) (by simp [Node.written_note])
    cases hself
  | field ns hns ih =>
    have hinline : ∀ n ∈ ns, n.isBlock = false := fun n hn => (hns n hn).isBlock_eq_false
    have hinside : ∀ n ∈ ns, ∀ m ∈ n.written, m.isNote = false := Node.forall_written_of_group hnotes
    have hbody := nodesTex hinline fun n hn => ih n hn (hinside n hn)
    rw [Node.shownText_group, Node.tex_group]
    exact hbody.append (labels [])
  | reference code ns _ _ =>
    rw [Node.shownText, Node.tex_reference]
    · exact mark (by decide) (not_mem_labelKey code)
    all_goals simp

/-- A paragraph without notes keeps the lines of its text. -/
theorem paragraphTex {isNote : NoteKind → String → Container → Prop} {p : Node} (h : p.IsParagraph isNote)
    (hnotes : ∀ m ∈ p.written, m.isNote = false) :
    LinesKept isUnseen isBlank p.shownText (p.tex {}) := by
  obtain ⟨role, ns, ls, hrole, hns⟩ := h
  have hinline : ∀ n ∈ ns, n.isBlock = false := fun n hn => (hns n hn).isBlock_eq_false
  have hinside : ∀ n ∈ ns, ∀ m ∈ n.written, m.isNote = false := Node.forall_written_of_group hnotes
  have hbody := nodesTex hinline fun n hn => inlineTex (hns n hn) (hinside n hn)
  rw [Node.shownText_group, Node.tex_group]
  have hwhole := hbody.append (labels ls)
  cases role with
  | plain => exact hwhole
  | heading1 => exact (commandTex (by decide) hbody).append (labels ls)
  | heading2 => exact (commandTex (by decide) hbody).append (labels ls)
  | heading3 => exact (commandTex (by decide) hbody).append (labels ls)
  | numberedExample =>
    have hnumbered := numbered hwhole
    rw [← List.append_assoc] at hnumbered
    exact hnumbered
  | fieldResult => cases hrole

end LinesKept

/-- The LaTeX of blocks, with an empty line behind each. -/
def spacedTex (ps : List Node) : List Char := ps.flatMap fun p => p.tex {} ++ ['\n', '\n']

/-- Behind this LaTeX stands what separates two neighbouring blocks: it is that of all blocks up to the
first of the two. -/
def SeparatedAt (ps : List Node) (tex : List Char) : Prop :=
  ∃ before p q after, ps = before ++ p :: q :: after ∧ tex = spacedTex before ++ p.tex {}

/-- The blank line and the two line feeds behind this LaTeX have a character in common. -/
def TouchesEnd (tex front gap : List Char) : Prop :=
  front.length < tex.length + 2 ∧ tex.length < front.length + gap.length + 2

/-- A blank line is in front of two line feeds, behind them, or touches them. -/
theorem BlankLineAt.cases_append {unseen : Char → Bool} {a b front gap : List Char}
    (h : BlankLineAt unseen (a ++ (['\n', '\n'] ++ b)) front gap) :
    BlankLineAt unseen a front gap ∨ TouchesEnd a front gap ∨
      ∃ rest, front = a ++ ['\n', '\n'] ++ rest ∧ BlankLineAt unseen b rest gap := by
  obtain ⟨hgap, hline⟩ := h
  by_cases hbefore : (front ++ '\n' :: (gap ++ ['\n'])).length ≤ a.length
  · exact .inl ⟨hgap, List.prefix_of_prefix_length_le hline (List.prefix_append a _) hbefore⟩
  · by_cases hbehind : (a ++ ['\n', '\n']).length ≤ front.length
    · rw [← List.append_assoc] at hline
      obtain ⟨rest, rfl⟩ := List.prefix_of_prefix_length_le (List.prefix_append (a ++ ['\n', '\n']) b)
        ((List.prefix_append front _).trans hline) hbehind
      refine .inr (.inr ⟨rest, rfl, hgap, ?_⟩)
      rwa [List.append_assoc _ rest, List.prefix_append_right_inj] at hline
    · simp only [List.length_append, List.length_cons, List.length_nil] at hbefore hbehind
      exact .inr (.inl ⟨by omega, by omega⟩)

theorem nodesTex_singleton {p : Node} (hp : p.isBlock = true) : nodesTex {} [p] = p.tex {} := by
  rw [nodesTex_eq_joinWith, groupNodes, SiblingGroup.ofList_cons_of_none (Node.runText?_of_isBlock hp)]
  rfl

theorem nodesTex_cons_cons {p q : Node} {qs : List Node} (h : ∀ n ∈ p :: q :: qs, n.isBlock = true) :
    nodesTex {} (p :: q :: qs) = p.tex {} ++ (['\n', '\n'] ++ nodesTex {} (q :: qs)) := by
  obtain ⟨hp, hqs⟩ := List.forall_mem_cons.mp h
  have hsplit := nodesTex_append_of_isBlock {} (List.cons_ne_nil p []) (List.cons_ne_nil q qs)
    (List.forall_mem_singleton.mpr hp) hqs
  rw [nodesTex_singleton hp, List.append_assoc] at hsplit
  exact hsplit

/-- A blank line touches what separates two blocks or is inside of one. -/
theorem BlankLineAt.cases_nodesTex {ps : List Node} (hps : ∀ p ∈ ps, p.isBlock = true)
    {front gap : List Char} (h : BlankLineAt isBlank (nodesTex {} ps) front gap) :
    (∃ tex, SeparatedAt ps tex ∧ tex ++ ['\n', '\n'] <+: nodesTex {} ps ∧ TouchesEnd tex front gap) ∨
      ∃ before p after inside, ps = before ++ p :: after ∧ front = spacedTex before ++ inside ∧
        BlankLineAt isBlank (p.tex {}) inside gap := by
  induction ps generalizing front with
  | nil => exact absurd (List.prefix_nil.mp h.2) (by simp)
  | cons p ps ih =>
    obtain ⟨hp, hps'⟩ := List.forall_mem_cons.mp hps
    cases ps with
    | nil =>
      rw [nodesTex_singleton hp] at h
      exact .inr ⟨[], p, [], front, rfl, rfl, h⟩
    | cons q qs =>
      rw [nodesTex_cons_cons hps] at h ⊢
      rcases h.cases_append with hinside | htouch | ⟨rest, rfl, hrest⟩
      · exact .inr ⟨[], p, q :: qs, front, rfl, rfl, hinside⟩
      · refine .inl ⟨p.tex {}, ⟨[], p, q, qs, rfl, rfl⟩, ?_, htouch⟩
        rw [← List.append_assoc]
        exact List.prefix_append _ _
      · rcases ih hps' hrest with ⟨tex, ⟨before, p', q', after, hqs, rfl⟩, hprefix, htouch⟩ |
          ⟨before, p', after, inside, hqs, rfl, hinside⟩
        · refine .inl ⟨p.tex {} ++ ['\n', '\n'] ++ (spacedTex before ++ p'.tex {}),
            ⟨p :: before, p', q', after, by rw [hqs]; rfl, ?_⟩, ?_, ?_⟩
          · simp [spacedTex]
          · rw [List.append_assoc, ← List.append_assoc _ _ (nodesTex {} _)]
            exact (List.prefix_append_right_inj _).mpr hprefix
          · obtain ⟨hfirst, hsecond⟩ := htouch
            constructor <;> simp only [List.length_append] at * <;> omega
        · exact .inr ⟨p :: before, p', after, inside, by rw [hqs]; rfl, by simp [spacedTex], hinside⟩

theorem safeText_of_separatedAt {ps : List Node} {tex : List Char} (h : SeparatedAt ps tex)
    (hnames : ∀ n ∈ ps, ∀ m ∈ n.walk, m.HasCommandName) : SafeText isPlainChar tex := by
  obtain ⟨before, p, q, after, rfl, rfl⟩ := h
  have hsafe : ∀ n ∈ before ++ [p], SafeText isPlainChar (n.tex {}) := fun n hn =>
    safeText_tex (by decide) n (hnames n (by grind))
  refine .append (.flatMap fun n hn => (hsafe n (List.mem_append_left _ hn)).append ?_)
    (hsafe p (by simp))
  exact .of_read (by decide)

section

variable {root : Element} {parts : DocumentParts}

theorem exists_isParagraph_of_mem_contents {source : PartSource} (hparts : parts.notes = source.notes)
    {p : Node} (hp : p ∈ (documentOf root parts).contents) : ∃ isNote, p.IsParagraph isNote := by
  rcases Document.mem_contents_iff.mp hp with hp | ⟨kind, entry, hentry, hp⟩
  · rw [children_documentOf_eq_map] at hp
    obtain ⟨e, -, rfl⟩ := List.mem_map.mp hp
    exact ⟨fun _ _ _ => True, isParagraph_paragraphNode (fun _ _ _ _ => trivial) .empty e⟩
  · obtain ⟨child, hchild⟩ := exists_noteBody_of_mem_notes hparts hentry
    exact ⟨_, (hchild ▸ isNoteBody_noteBody child).paragraphs p hp⟩

end

/-- A paragraph that was read and contains no note is written with blank lines only if its text has them.
A blank line in the LaTeX of a document touches what separates two neighbouring paragraphs, where all
braces are closed, or it is inside of a paragraph with notes or with a blank line in its text. -/
theorem blankLines_of_ofSource {source : PartSource} {log log' : List Notice} {d : Document}
    (h : (ofSource source).run.run log = (.ok d, log')) :
    (∀ p ∈ d.contents, (∀ m ∈ p.written, m.isNote = false) → HasBlankLine isBlank (p.tex {}) →
      HasBlankLine isUnseen p.shownText) ∧
    ∀ front gap, BlankLineAt isBlank (d.tex {}) front gap →
      (∃ tex, SeparatedAt d.children tex ∧ tex ++ ['\n', '\n'] <+: d.tex {} ∧
        BracesBalanced (lexemes tex) ∧ TouchesEnd tex front gap) ∨
      ∃ before p after inside, d.children = before ++ p :: after ∧ front = spacedTex before ++ inside ∧
        BlankLineAt isBlank (p.tex {}) inside gap ∧
        ((∃ m ∈ p.written, m.isNote = true) ∨ HasBlankLine isUnseen p.shownText) := by
  have hnames : ∀ n ∈ d.children, ∀ m ∈ n.walk, m.HasCommandName := fun n hn m hm =>
    hasCommandName_of_ofSource h m (Document.mem_walk_iff.mpr ⟨n, hn, hm⟩)
  obtain ⟨root, parts, hroot, hparts, rfl⟩ := runs_ofSource h
  have hparagraphs : ∀ p ∈ (documentOf root parts).contents, ∃ isNote, p.IsParagraph isNote :=
    fun p hp => exists_isParagraph_of_mem_contents hparts hp
  have hkept : ∀ p ∈ (documentOf root parts).contents, (∀ m ∈ p.written, m.isNote = false) →
      HasBlankLine isBlank (p.tex {}) → HasBlankLine isUnseen p.shownText := by
    intro p hp hnotes
    obtain ⟨isNote, hparagraph⟩ := hparagraphs p hp
    exact (LinesKept.paragraphTex hparagraph hnotes).hasBlankLine
  have hchild : ∀ p ∈ (documentOf root parts).children, p ∈ (documentOf root parts).contents :=
    fun p hp => Document.mem_contents_iff.mpr (.inl hp)
  have hblocks : ∀ p ∈ (documentOf root parts).children, p.isBlock = true := by
    intro p hp
    obtain ⟨isNote, hparagraph⟩ := hparagraphs p (hchild p hp)
    exact hparagraph.isBlock
  refine ⟨hkept, fun front gap hline => ?_⟩
  rw [tex_documentOf] at hline ⊢
  rcases hline.cases_nodesTex hblocks with ⟨tex, htex, hprefix, htouch⟩ |
    ⟨before, p, after, inside, hchildren, hfront, hinside⟩
  · have hsafe := safeText_of_separatedAt htex hnames
    exact .inl ⟨tex, htex, hprefix, (lexicallySafe_of_safeText hsafe).braces, htouch⟩
  · refine .inr ⟨before, p, after, inside, hchildren, hfront, hinside, ?_⟩
    by_cases hnotes : ∃ m ∈ p.written, m.isNote = true
    · exact .inl hnotes
    · have hp := hchild p (by rw [hchildren]; simp)
      exact .inr (hkept p hp (by simpa using hnotes) ⟨inside, gap, hinside⟩)

/-- A heading with two line breaks in it, a paragraph that ends with one, and a note of two paragraphs. -/
def brokenLinesPackage : PartSource :=
  .ofTexts
    [(documentPart, "<d><body><p><pPr><pStyle w:val=\"Heading1\"/></pPr>" ++
        "<r><t>a</t><br/><br/><t>b</t></r></p><p><r><t>c</t><br/></r></p>" ++
        "<p><r><footnoteReference w:id=\"1\"/></r></p></body></d>"),
      (footnotesPart, "<n><f w:id=\"1\"><p><r><t>x</t></r></p><p><r><t>y</t></r></p></f></n>")]

theorem blankLines_of_brokenLinesPackage :
    ∃ d log, (ofSource brokenLinesPackage).run.run [] = (.ok d, log) ∧
      (d.children.map fun p => (p.toLatex {}, p.written.any Node.isNote)) =
        [("\\section\x7ba\n\nb\x7d", false), ("c\n", false), ("\\footnote\x7bx\n\ny\x7d", true)] ∧
      (∀ p ∈ d.contents, (∀ m ∈ p.written, m.isNote = false) → HasBlankLine isBlank (p.tex {}) →
        HasBlankLine isUnseen p.shownText) ∧
      ∀ front gap, BlankLineAt isBlank (d.tex {}) front gap →
        (∃ tex, SeparatedAt d.children tex ∧ tex ++ ['\n', '\n'] <+: d.tex {} ∧
          BracesBalanced (lexemes tex) ∧ TouchesEnd tex front gap) ∨
        ∃ before p after inside, d.children = before ++ p :: after ∧ front = spacedTex before ++ inside ∧
          BlankLineAt isBlank (p.tex {}) inside gap ∧
          ((∃ m ∈ p.written, m.isNote = true) ∨ HasBlankLine isUnseen p.shownText) := by
  obtain ⟨d, log, hrun, hparagraphs⟩ :
      ∃ d log, (ofSource brokenLinesPackage).run.run [] = (.ok d, log) ∧
        (d.children.map fun p => (p.toLatex {}, p.written.any Node.isNote)) =
          [("\\section\x7ba\n\nb\x7d", false), ("c\n", false), ("\\footnote\x7bx\n\ny\x7d", true)] :=
    exists_document_of_map (by decide +kernel)
  exact ⟨d, log, hrun, hparagraphs, blankLines_of_ofSource hrun⟩

/-- A heading with two line breaks in it. -/
def brokenHeadingPackage : PartSource :=
  .ofTexts [(documentPart, "<document><body><p><pPr><pStyle w:val=\"Heading1\"/></pPr>" ++
    "<r><t>a</t><br/><br/><t>b</t></r></p></body></document>")]

/-- A heading without notes has a blank line inside of its braces. -/
theorem blankLine_in_heading :
    ∃ d log p, (ofSource brokenHeadingPackage).run.run [] = (.ok d, log) ∧ d.children = [p] ∧
      p.toLatex {} = "\\section\x7ba\n\nb\x7d" ∧ (∀ m ∈ p.written, m.isNote = false) ∧
      HasBlankLine isBlank (p.tex {}) := by
  obtain ⟨d, log, hrun, hfacts⟩ :
      ∃ d log, (ofSource brokenHeadingPackage).run.run [] = (.ok d, log) ∧
        (d.children.map fun p =>
          (p.toLatex {}, p.written.any Node.isNote, decide (HasBlankLine isBlank (p.tex {})))) =
          [("\\section\x7ba\n\nb\x7d", false, true)] :=
    exists_document_of_map (by decide +kernel)
  obtain ⟨p, hchildren, hp⟩ := List.map_eq_singleton_iff.mp hfacts
  obtain ⟨htex, hp⟩ := Prod.mk.inj hp
  obtain ⟨hnotes, hline⟩ := Prod.mk.inj hp
  exact ⟨d, log, p, hrun, hchildren, htex, by simpa using hnotes, of_decide_eq_true hline⟩

end WordTex
