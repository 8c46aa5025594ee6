import WordTex.XmlReading
import WordTex.Proofs.ElementTrees
import Mathlib.Data.List.Infix

/-! # Ways to write an element tree

There are many texts for one tree. A character stands for itself, or is a reference by name or number;
text may also stand in sections, with comments and processing instructions in between, and an element
without contents may be one tag or two. -/
namespace WordTex
namespace Xml

/-- The numerals of a number, with leading zeros and with letters of either case. -/
inductive Numeral (base : Nat) : List Char → Nat → Prop where
  | nil : Numeral base [] 0
  | digit {ds : List Char} {n v : Nat} {c : Char} (h : Numeral base ds n) (hv : v < base)
      (hc : c = v.digitChar ∨ c = v.digitChar.toUpper) : Numeral base (ds ++ [c]) (base * n + v)

/-- The characters that have a name. -/
def entities : List (String × Char) :=
  [("lt", '<'), ("gt", '>'), ("amp", '&'), ("apos", '\x27'), ("quot", '\x22')]

/-- The ways to write a character. Only plain ones stand for themselves. -/
inductive WritesChar (plain : Char → Bool) (c : Char) : List Char → Prop where
  | itself (hc : plain c = true) : WritesChar plain c [c]
  | named {name : String} (h : (name, c) ∈ entities) :
      WritesChar plain c ('&' :: name.toList ++ [';'])
  | decimal {ds : List Char} (hds : ds ≠ []) (h : Numeral 10 ds c.toNat) (hc : c ≠ '\x00') :
      WritesChar plain c ('&' :: '#' :: ds ++ [';'])
  | hexadecimal {ds : List Char} (hds : ds ≠ []) (h : Numeral 16 ds c.toNat) (hc : c ≠ '\x00') :
      WritesChar plain c ('&' :: '#' :: 'x' :: ds ++ [';'])

/-- The characters with a part in the markup of tags. -/
def markupChars : List Char := ['<', '>', '&', '\x27', '\x22', '/', '=', '!', '?']

/-- A name has no white space and no markup. -/
structure IsName (name : List Char) : Prop where
  ne_nil : name ≠ []
  chars : ∀ c ∈ name, isAsciiSpace c = false ∧ c ∉ markupChars

theorem isName_iff {name : List Char} :
    name ≠ [] ∧ (name.all fun c => !isAsciiSpace c && !markupChars.contains c) = true ↔ IsName name := by
  constructor
  · exact fun h => ⟨h.1, by simpa using h.2⟩
  · exact fun h => ⟨h.ne_nil, by simpa using h.chars⟩

instance (name : List Char) : Decidable (IsName name) := decidable_of_iff _ isName_iff

/-- The characters that stand for themselves in a value between these quotes. -/
def isPlainInValue (quote c : Char) : Bool := c != quote && c != '<' && c != '&'

inductive WritesValue (quote : Char) : List Char → List Char → Prop where
  | nil : WritesValue quote [] []
  | cons {c : Char} {data u s : List Char} (hc : WritesChar (isPlainInValue quote) c u)
      (hs : WritesValue quote data s) : WritesValue quote (c :: data) (u ++ s)

def IsSpace (gap : List Char) : Prop := ∀ c ∈ gap, isAsciiSpace c = true

instance (gap : List Char) : Decidable (IsSpace gap) :=
  decidable_of_iff (gap.all isAsciiSpace = true) List.all_eq_true

/-- The ways to write attributes, with the space that may stand behind them. -/
inductive WritesAttributes : List (String × String) → List Char → Prop where
  | nil {gap : List Char} (hgap : IsSpace gap) : WritesAttributes [] gap
  | cons {key value : String} {attributes : List (String × String)}
      {gap before after v s : List Char} {quote : Char} (hne : gap ≠ []) (hgap : IsSpace gap)
      (hbefore : IsSpace before) (hafter : IsSpace after) (hquote : quote = '\x27' ∨ quote = '\x22')
      (hv : WritesValue quote value.toList v) (hs : WritesAttributes attributes s) :
      WritesAttributes ((key, value) :: attributes)
        (gap ++ key.toList ++ before ++ '=' :: after ++ quote :: v ++ quote :: s)

/-- Comments and processing instructions. A declaration is written as an instruction, too. -/
inductive Aside : List Char → Prop where
  | comment {body : List Char} (hbody : ¬ ['-', '-', '>'] <:+: body) :
      Aside (['<', '!', '-', '-'] ++ body ++ ['-', '-', '>'])
  | instruction {target body : List Char} (htarget : IsName target)
      (hspace : ∀ c ∈ body.head?, isAsciiSpace c = true) (hbody : ¬ ['?', '>'] <:+: body) :
      Aside (['<', '?'] ++ target ++ body ++ ['?', '>'])

/-- The characters that stand for themselves in text. -/
def isPlainInText (c : Char) : Bool := c != '<' && c != '&'

/-- The ways to write text. -/
inductive WritesText : List Char → List Char → Prop where
  | nil : WritesText [] []
  | char {c : Char} {data u s : List Char} (hc : WritesChar isPlainInText c u)
      (hs : WritesText data s) : WritesText (c :: data) (u ++ s)
  | sectioned {part data s : List Char} (hpart : ¬ [']', ']', '>'] <:+: part)
      (hs : WritesText data s) :
      WritesText (part ++ data) ("<![CDATA[".toList ++ part ++ [']', ']', '>'] ++ s)
  | aside {data u s : List Char} (hu : Aside u) (hs : WritesText data s) : WritesText data (u ++ s)

/-- The ways to write contents. Between elements there may be text that says nothing. -/
inductive WritesContents : List XmlContent → List Char → Prop where
  | nil : WritesContents [] []
  | silence {contents : List XmlContent} {u s : List Char} (hu : WritesText [] u)
      (hs : WritesContents contents s) : WritesContents contents (u ++ s)
  | text {t : String} {contents : List XmlContent} {u s : List Char} (hu : WritesText t.toList u)
      (hs : WritesContents contents s) : WritesContents (.text t :: contents) (u ++ s)
  | emptyTag {name : String} {attributes : List (String × String)} {contents : List XmlContent}
      {a s : List Char} (ha : WritesAttributes attributes a) (hs : WritesContents contents s) :
      WritesContents (.element ⟨name, attributes, []⟩ :: contents)
        ('<' :: name.toList ++ a ++ '/' :: '>' :: s)
  | tags {name : String} {attributes : List (String × String)} {inner contents : List XmlContent}
      {a u gap s : List Char} (ha : WritesAttributes attributes a) (hu : WritesContents inner u)
      (hgap : IsSpace gap) (hs : WritesContents contents s) :
      WritesContents (.element ⟨name, attributes, inner⟩ :: contents)
        ('<' :: name.toList ++ a ++ '>' :: u ++ '<' :: '/' :: name.toList ++ gap ++ '>' :: s)

/-- What may stand around the root: white space, comments and processing instructions. -/
inductive Surroundings : List Char → Prop where
  | nil : Surroundings []
  | space {c : Char} {s : List Char} (hc : isAsciiSpace c = true) (hs : Surroundings s) :
      Surroundings (c :: s)
  | aside {u s : List Char} (hu : Aside u) (hs : Surroundings s) : Surroundings (u ++ s)

/-- The ways to write a document with this root. -/
def WritesDocument (root : Element) (s : List Char) : Prop :=
  ∃ before u after, s = before ++ u ++ after ∧ Surroundings before ∧
    WritesContents [.element root] u ∧ Surroundings after

theorem exists_writesChar {plain : Char → Bool} {c : Char}
    (h : plain c = false → ∃ name, (name, c) ∈ entities) : ∃ u, WritesChar plain c u := by
  cases hplain : plain c with
  | true => exact ⟨_, .itself hplain⟩
  | false =>
    obtain ⟨name, hname⟩ := h hplain
    exact ⟨_, .named hname⟩

theorem exists_writesText (data : List Char) : ∃ u, WritesText data u := by
  induction data with
  | nil => exact ⟨_, .nil⟩
  | cons c data ih =>
    obtain ⟨s, hs⟩ := ih
    have hc : isPlainInText c = false → ∃ name, (name, c) ∈ entities := by
      intro hc
      have hc : c = '<' ∨ c = '&' := by simpa [isPlainInText, or_iff_not_imp_left] using hc
      rcases hc with rfl | rfl
      · exact ⟨"lt", by decide⟩
      · exact ⟨"amp", by decide⟩
    obtain ⟨u, hu⟩ := exists_writesChar hc
    exact ⟨_, .char hu hs⟩

theorem exists_writesValue (data : List Char) : ∃ u, WritesValue '\x22' data u := by
  induction data with
  | nil => exact ⟨_, .nil⟩
  | cons c data ih =>
    obtain ⟨s, hs⟩ := ih
    have hc : isPlainInValue '\x22' c = false → ∃ name, (name, c) ∈ entities := by
      intro hc
      have hc : (c = '\x22' ∨ c = '<') ∨ c = '&' := by
        simpa [isPlainInValue, or_iff_not_imp_left] using hc
      rcases hc with (rfl | rfl) | rfl
      · exact ⟨"quot", by decide⟩
      · exact ⟨"lt", by decide⟩
      · exact ⟨"amp", by decide⟩
    obtain ⟨u, hu⟩ := exists_writesChar hc
    exact ⟨_, .cons hu hs⟩

theorem exists_writesAttributes (attributes : List (String × String)) :
    ∃ a, WritesAttributes attributes a := by
  have hspace : IsSpace [' '] := by decide
  induction attributes with
  | nil => exact ⟨_, .nil hspace⟩
  | cons x attributes ih =>
    obtain ⟨s, hs⟩ := ih
    obtain ⟨v, hv⟩ := exists_writesValue x.2.toList
    exact ⟨_, .cons (by simp) hspace hspace hspace (.inr rfl) hv hs⟩

theorem exists_writesContents : ∀ contents : List XmlContent, ∃ u, WritesContents contents u
  | [] => ⟨_, .nil⟩
  | .text t :: contents => by
    obtain ⟨u, hu⟩ := exists_writesText t.toList
    obtain ⟨s, hs⟩ := exists_writesContents contents
    exact ⟨_, .text hu hs⟩
  | .element ⟨_, attributes, inner⟩ :: contents => by
    obtain ⟨a, ha⟩ := exists_writesAttributes attributes
    obtain ⟨u, hu⟩ := exists_writesContents inner
    obtain ⟨s, hs⟩ := exists_writesContents contents
    have hgap : IsSpace [] := by decide
    exact ⟨_, .tags ha hu hgap hs⟩

theorem exists_writesDocument (root : Element) : ∃ s, WritesDocument root s := by
  obtain ⟨u, hu⟩ := exists_writesContents [.element root]
  exact ⟨_, [], u, [], rfl, .nil, hu, .nil⟩

end Xml

/-- An element with proper names, each of its attributes once, and separate texts. -/
structure Element.IsProper (e : Element) : Prop where
  name : Xml.IsName e.name.toList
  keys : ∀ a ∈ e.attributes, Xml.IsName a.1.toList
  nodup : (e.attributes.map Prod.fst).Nodup
  texts : HasSeparateTexts e.contents

end WordTex
