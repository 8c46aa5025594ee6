import WordTex.TextCuts
import WordTex.WhiteSpace
import WordTex.DigitText

/-! # The markup of an XML text

A text is scanned into tags and character data. Comments, processing instructions and the document
type are dropped, and references are replaced. Names and values are not checked or normalized. -/
namespace WordTex

/-- A tag, or character data. -/
inductive Markup where
  | text (data : List Char)
  | startTag (name : String) (attributes : List (String × String))
  | emptyTag (name : String) (attributes : List (String × String))
  | endTag (name : String)
deriving DecidableEq, Repr

namespace Markup

/-- The characters with a name of their own. -/
def namedCharacters : List (List Char × Char) :=
  [("lt".toList, '<'), ("gt".toList, '>'), ("amp".toList, '&'), ("apos".toList, '\x27'),
    ("quot".toList, '\x22')]

/-- A character by its number; there is no character zero. -/
def characterOfNumber? (n : Nat) : Option Char :=
  if n ≠ 0 ∧ n.isValidChar then some (Char.ofNat n) else none

/-- The character that a reference stands for, given what is between its ampersand and semicolon. -/
def reference? : List Char → Option Char
  | '#' :: 'x' :: digits => (number? 16 digits).bind characterOfNumber?
  | '#' :: digits => (number? 10 digits).bind characterOfNumber?
  | name => (namedCharacters.find? (·.1 == name)).map Prod.snd

/-- A reference ends at the next semicolon, before which no other one and no markup begins. -/
def endsName (c : Char) : Bool := c == ';' || c == '&' || c == '<'

/-- The character of a reference whose ampersand has been read, and the text after it. -/
def readReference (s : List Char) : Option (Char × List Char) :=
  match s.dropWhile (!endsName ·) with
  | ';' :: rest => (reference? (s.takeWhile (!endsName ·))).map (·, rest)
  | _ => none

theorem length_of_readReference {s rest : List Char} {c : Char}
    (h : readReference s = some (c, rest)) : rest.length ≤ s.length := by
  have hl := (List.dropWhile_sublist (!endsName ·) (l := s)).length_le
  rw [readReference] at h
  split at h
  · rename_i r hr
    obtain ⟨_, _, he⟩ := Option.map_eq_some_iff.mp h
    obtain ⟨-, rfl⟩ := Prod.mk.inj he
    rw [hr, List.length_cons] at hl
    omega
  · simp at h

/-- A text with its references replaced, if they are all valid. -/
def replaceReferences? : List Char → Option (List Char)
  | [] => some []
  | c :: cs =>
    if c = '&' then
      match _h : readReference cs with
      | some (d, rest) => (replaceReferences? rest).map (d :: ·)
      | none => none
    else (replaceReferences? cs).map (c :: ·)
termination_by s => s.length
decreasing_by
  · have := length_of_readReference _h
    simp only [List.length_cons]
    omega
  · simp

/-- The inside of a tag up to the first `>` outside of quotes, and the text after it. -/
def cutTag? (quote : Option Char) : List Char → Option (List Char × List Char)
  | [] => none
  | c :: cs =>
    if quote = none ∧ c = '>' then some ([], cs)
    else
      let next := match quote with
        | some q => if c = q then none else some q
        | none => if c = '\x27' ∨ c = '\x22' then some c else none
      (cutTag? next cs).map fun r => (c :: r.1, r.2)

theorem length_of_cutTag? {quote : Option Char} {s inside rest : List Char}
    (h : cutTag? quote s = some (inside, rest)) : rest.length ≤ s.length := by
  induction s generalizing quote inside with
  | nil => simp [cutTag?] at h
  | cons c cs ih =>
    rw [cutTag?.eq_def] at h
    dsimp only at h
    split at h
    · obtain ⟨-, rfl⟩ : [] = inside ∧ cs = rest := by simpa using h
      simp
    · obtain ⟨_, hr⟩ := exists_of_map_fst h
      exact Nat.le_succ_of_le (ih hr)

/-- The declarations with values in quotes, in which a `>` does not end them. -/
def declarationsWithQuotes : List (List Char) :=
  ["!ENTITY".toList, "!ATTLIST".toList, "!NOTATION".toList]

/-- The text after a piece of markup in the internal subset of a document type, of which the `<` has
been read. Element declarations and anything unknown end at the first `>`. -/
def afterDeclaration? (s : List Char) : Option (List Char) :=
  match after? "!--".toList s with
  | some r => (cutAt? "-->".toList r).map Prod.snd
  | none =>
    match after? "?".toList s with
    | some r => (cutAt? "?>".toList r).map Prod.snd
    | none =>
      if declarationsWithQuotes.any (·.isPrefixOf s) then (cutTag? none s).map Prod.snd
      else (cutAt? ">".toList s).map Prod.snd

theorem length_of_afterDeclaration? {s rest : List Char} (h : afterDeclaration? s = some rest) :
    rest.length ≤ s.length := by
  rw [afterDeclaration?.eq_def] at h
  split at h
  · rename_i r hr
    obtain ⟨⟨_, _⟩, hc, rfl⟩ := Option.map_eq_some_iff.mp h
    exact Nat.le_trans (length_of_cutAt? hc) (length_of_after? hr)
  · split at h
    · rename_i r hr
      obtain ⟨⟨_, _⟩, hc, rfl⟩ := Option.map_eq_some_iff.mp h
      exact Nat.le_trans (length_of_cutAt? hc) (length_of_after? hr)
    · split at h
      · obtain ⟨⟨_, _⟩, hc, rfl⟩ := Option.map_eq_some_iff.mp h
        exact length_of_cutTag? hc
      · obtain ⟨⟨_, _⟩, hc, rfl⟩ := Option.map_eq_some_iff.mp h
        exact length_of_cutAt? hc

/-- Where the reader of a document type is: between its parts, in a quoted string, or in the
brackets of its internal subset. -/
inductive DoctypePlace where
  | outside
  | literal (quote : Char)
  | subset
deriving DecidableEq, Repr

/-- The text after the `>` that ends a document type. Once the internal subset is closed, the first
`>` is the end. -/
def afterDoctype? (place : DoctypePlace) : List Char → Option (List Char)
  | [] => none
  | c :: cs =>
    match place with
    | .outside =>
      if c = '>' then some cs
      else if c = '\x27' ∨ c = '\x22' then afterDoctype? (.literal c) cs
      else afterDoctype? (if c = '[' then .subset else .outside) cs
    | .literal q => afterDoctype? (if c = q then .outside else .literal q) cs
    | .subset =>
      if c = '<' then
        match _h : afterDeclaration? cs with
        | some rest => afterDoctype? .subset rest
        | none => none
      else if c = ']' then (cutAt? ">".toList cs).map Prod.snd
      else afterDoctype? .subset cs
termination_by s => s.length
decreasing_by
  · simp
  · simp
  · simp
  · have := length_of_afterDeclaration? _h
    simp only [List.length_cons]
    omega
  · simp

theorem length_of_afterDoctype? {place : DoctypePlace} {s rest : List Char}
    (h : afterDoctype? place s = some rest) : rest.length ≤ s.length := by
  fun_induction afterDoctype? place s with
  | case1 => simp at h
  | case2 => simp_all
  | case3 _ _ _ _ ih => exact Nat.le_succ_of_le (ih h)
  | case4 _ _ _ _ ih => exact Nat.le_succ_of_le (ih h)
  | case5 _ _ _ ih => exact Nat.le_succ_of_le (ih h)
  | case6 _ _ hd ih =>
    exact Nat.le_succ_of_le (Nat.le_trans (ih h) (length_of_afterDeclaration? hd))
  | case7 => simp at h
  | case8 =>
    obtain ⟨⟨_, _⟩, hc, rfl⟩ := Option.map_eq_some_iff.mp h
    exact Nat.le_succ_of_le (length_of_cutAt? hc)
  | case9 _ _ _ _ ih => exact Nat.le_succ_of_le (ih h)

/-- An attribute that starts a text without leading space, and the text after it. -/
def readAttribute : List Char → Option ((String × String) × List Char)
  | [] => none
  | c :: cs =>
    let endsKey (d : Char) := d == '=' || isAsciiSpace d
    match skipAsciiSpace (cs.dropWhile (!endsKey ·)) with
    | '=' :: r =>
      match skipAsciiSpace r with
      | q :: r =>
        if q = '\x27' ∨ q = '\x22' then
          match r.dropWhile (· ≠ q) with
          | _ :: rest =>
            let raw := r.takeWhile (· ≠ q)
            let key := c :: cs.takeWhile (!endsKey ·)
            some ((.ofList key, .ofList ((replaceReferences? raw).getD raw)), rest)
          | [] => none
        else none
      | [] => none
    | _ => none

theorem length_of_readAttribute {s rest : List Char} {a : String × String}
    (h : readAttribute s = some (a, rest)) : rest.length < s.length := by
  cases s with
  | nil => simp [readAttribute] at h
  | cons c cs =>
    rw [readAttribute] at h
    dsimp only at h
    split at h
    · rename_i r hr
      have h₁ := length_dropWhile_le (fun d => !(d == '=' || isAsciiSpace d)) cs
      have h₂ := length_dropWhile_le isAsciiSpace (cs.dropWhile fun d => !(d == '=' || isAsciiSpace d))
      rw [skipAsciiSpace] at hr
      rw [hr, List.length_cons] at h₂
      split at h
      · rename_i q r' hr'
        have h₃ := length_dropWhile_le isAsciiSpace r
        rw [skipAsciiSpace] at hr'
        rw [hr', List.length_cons] at h₃
        split at h
        · split at h
          · rename_i d rest' hd
            have h₄ := length_dropWhile_le (fun x => decide (x ≠ q)) r'
            rw [hd, List.length_cons] at h₄
            obtain ⟨-, rfl⟩ : _ ∧ rest' = rest := by simpa using h
            simp only [List.length_cons]
            omega
          · simp at h
        · simp at h
      · simp at h
    · simp at h

/-- The attributes in the rest of a tag. -/
def readAttributes (s : List Char) : Option (List (String × String)) :=
  match _h : skipAsciiSpace s with
  | [] => some []
  | c :: cs =>
    match _ha : readAttribute (c :: cs) with
    | some (a, rest) => (readAttributes rest).map (a :: ·)
    | none => none
termination_by s.length
decreasing_by
  have h₁ := length_dropWhile_le isAsciiSpace s
  have h₂ := length_of_readAttribute _ha
  rw [skipAsciiSpace] at _h
  rw [_h] at h₁
  omega

/-- The name and the attributes of a tag; no two attributes have one name. -/
def readTag (inside : List Char) : Option (String × List (String × String)) := do
  let attributes ← readAttributes (inside.dropWhile (!isAsciiSpace ·))
  if (attributes.map Prod.fst).Nodup then
    return (.ofList (inside.takeWhile (!isAsciiSpace ·)), attributes)
  else none

/-- A tag that is not an end tag, from its inside. A slash at the end makes it an empty one. -/
def ofInside? (inside : List Char) : Option Markup :=
  if inside.getLast? = some '/' then
    (readTag inside.dropLast).map fun t => .emptyTag t.1 t.2
  else (readTag inside).map fun t => .startTag t.1 t.2

/-- The name of an end tag is all of its inside but white space at the end. An inside of white space
alone is kept, so that it closes no tag. -/
def endTagOf (inside : List Char) : Markup :=
  .endTag (.ofList (if inside.all isAsciiSpace then inside
    else (inside.reverse.dropWhile isAsciiSpace).reverse))

/-- A document type begins with this word in letters of either case. -/
def doctypeWord : List Char := "!doctype".toList

/-- The text after a document type that starts here; it has more than its first word. -/
def readDoctype? (s : List Char) : Option (List Char) :=
  if (s.take doctypeWord.length).map Char.toLower = doctypeWord then
    match skipAsciiSpace (s.drop doctypeWord.length) with
    | '>' :: _ => none
    | r => afterDoctype? .outside r
  else none

theorem length_of_readDoctype? {s rest : List Char} (h : readDoctype? s = some rest) :
    rest.length ≤ s.length := by
  have hl := length_dropWhile_le isAsciiSpace (s.drop doctypeWord.length)
  rw [List.length_drop] at hl
  rw [readDoctype?.eq_def] at h
  split at h
  · split at h
    · simp at h
    · have := length_of_afterDoctype? h
      rw [skipAsciiSpace] at this
      omega
  · simp at h

/-- The markup that follows a `<`, and the text after it. A processing instruction does not begin
with a `>`. -/
def read? (s : List Char) : Option (List Markup × List Char) :=
  match after? "![CDATA[".toList s with
  | some r => (cutAt? "]]>".toList r).map fun c => ([.text c.1], c.2)
  | none =>
    match after? "!--".toList s with
    | some r => (cutAt? "-->".toList r).map fun c => ([], c.2)
    | none =>
      match s with
      | '!' :: _ => (readDoctype? s).map fun r => ([], r)
      | '?' :: '>' :: _ => none
      | '?' :: r => (cutAt? "?>".toList r).map fun c => ([], c.2)
      | '/' :: r => (cutTag? none r).map fun c => ([endTagOf c.1], c.2)
      | _ => (cutTag? none s).bind fun c => (ofInside? c.1).map fun m => ([m], c.2)

theorem length_of_read? {s rest : List Char} {ms : List Markup} (h : read? s = some (ms, rest)) :
    rest.length ≤ s.length := by
  rw [read?.eq_def] at h
  split at h
  · rename_i r hr
    obtain ⟨_, hc⟩ := exists_of_map_fst (f := fun t => [Markup.text t]) h
    exact Nat.le_trans (length_of_cutAt? hc) (length_of_after? hr)
  · split at h
    · rename_i r hr
      obtain ⟨_, hc⟩ := exists_of_map_fst (f := fun _ => []) h
      exact Nat.le_trans (length_of_cutAt? hc) (length_of_after? hr)
    · split at h
      · obtain ⟨_, hd, he⟩ := Option.map_eq_some_iff.mp h
        obtain ⟨-, rfl⟩ : [] = ms ∧ _ = rest := by simpa using he
        exact length_of_readDoctype? hd
      · simp at h
      · obtain ⟨_, hc⟩ := exists_of_map_fst (f := fun _ => []) h
        exact Nat.le_succ_of_le (length_of_cutAt? hc)
      · obtain ⟨_, hc⟩ := exists_of_map_fst (f := fun i => [endTagOf i]) h
        exact Nat.le_succ_of_le (length_of_cutTag? hc)
      · obtain ⟨⟨_, _⟩, hc, hm⟩ := Option.bind_eq_some_iff.mp h
        obtain ⟨_, _, he⟩ := Option.map_eq_some_iff.mp hm
        obtain ⟨-, rfl⟩ : _ ∧ _ = rest := by simpa using he
        exact length_of_cutTag? hc

/-- Character data runs to the next markup or reference. -/
def startsMarkup (c : Char) : Bool := c == '<' || c == '&'

/-- All markup of a text, or nothing if some of it is malformed. -/
def scan? : List Char → Option (List Markup)
  | [] => some []
  | c :: cs =>
    if c = '<' then
      match _h : read? cs with
      | some (ms, rest) => (scan? rest).map (ms ++ ·)
      | none => none
    else if c = '&' then
      match _h : readReference cs with
      | some (d, rest) => (scan? rest).map (.text [d] :: ·)
      | none => none
    else (scan? (cs.dropWhile (!startsMarkup ·))).map (.text (c :: cs.takeWhile (!startsMarkup ·)) :: ·)
termination_by s => s.length
decreasing_by
  · have := length_of_read? _h
    simp only [List.length_cons]
    omega
  · have := length_of_readReference _h
    simp only [List.length_cons]
    omega
  · have := length_dropWhile_le (!startsMarkup ·) cs
    simp only [List.length_cons]
    omega

end Markup
end WordTex
