import WordTex.Proofs.WrittenElements

/-! # Reading the markup that was written

Each way to write a character, a value, a tag or an aside is read back, whatever follows it. -/
namespace WordTex

theorem after?_append (word rest : List Char) : after? word (word ++ rest) = some rest := by
  induction word with
  | nil => rfl
  | cons w word ih => rw [List.cons_append, after?, if_pos rfl, ih]

theorem after?_eq_none {word s : List Char} (h : ¬ word <+: s) : after? word s = none := by
  cases ha : after? word s with
  | none => rfl
  | some rest => exact absurd ⟨rest, (eq_append_of_after? ha).symm⟩ h

/-- A mark that ends with a character of which it has no other cannot begin in a body that does not
have the mark, and end behind it. -/
theorem not_prefix_append_mark {m : List Char} {z : Char} {body : List Char} (hz : z ∉ m) (hne : body ≠ [])
    (hbody : ¬ m ++ [z] <:+: body) (rest : List Char) : ¬ m ++ [z] <+: body ++ (m ++ [z] ++ rest) := by
  intro h
  rcases List.prefix_or_prefix_of_prefix h (List.prefix_append body _) with hp | hp
  · exact hbody hp.isInfix
  rcases List.prefix_concat_iff.mp hp with rfl | ⟨t, rfl⟩
  · exact hbody List.infix_rfl
  -- What is left of the mark behind the body is where the mark begins again.
  rw [List.append_assoc, List.prefix_append_right_inj, List.append_assoc] at h
  have hpos := List.length_pos_iff.mpr hne
  have ht : t ++ [z] <+: body ++ t := by
    refine List.prefix_of_prefix_length_le h (by simp) ?_
    rw [List.length_append, List.length_append, List.length_singleton]
    omega
  exact hz (ht.subset (by simp))

theorem cutAt?_append (m : List Char) (z : Char) {body : List Char} (hz : z ∉ m)
    (hbody : ¬ m ++ [z] <:+: body) (rest : List Char) :
    cutAt? (m ++ [z]) (body ++ (m ++ [z] ++ rest)) = some (body, rest) := by
  induction body with
  | nil =>
    obtain ⟨c, s, hs⟩ := List.exists_cons_of_ne_nil (show m ++ [z] ++ rest ≠ [] by simp)
    rw [List.nil_append, hs, cutAt?, ← hs, after?_append]
  | cons c body ih =>
    have hnot := not_prefix_append_mark hz (List.cons_ne_nil c body) hbody rest
    rw [List.cons_append] at hnot ⊢
    rw [cutAt?, after?_eq_none hnot, ih fun h => hbody (h.trans (List.suffix_cons c body).isInfix)]
    rfl

/-- A word does not begin in a text without its first character. -/
theorem not_infix_append {c : Char} {word before body : List Char} (hc : c ∉ before)
    (hbody : ¬ c :: word <:+: body) : ¬ c :: word <:+: before ++ body := by
  induction before with
  | nil => exact hbody
  | cons b before ih =>
    rw [List.mem_cons, not_or] at hc
    rw [List.cons_append, List.infix_cons_iff, not_or]
    exact ⟨fun h => hc.1 (List.cons_prefix_cons.mp h).1, ih hc.2⟩

namespace Xml
open Markup

theorem digit?_digitChar : ∀ base ≤ 16, ∀ v < base,
    digit? base v.digitChar = some v ∧ digit? base v.digitChar.toUpper = some v := by
  decide +kernel

theorem Numeral.foldlM_digits {base n : Nat} {ds : List Char} (h : Numeral base ds n)
    (hbase : base ≤ 16) :
    ds.foldlM (fun n d => (digit? base d).map (base * n + ·)) 0 = some n := by
  induction h with
  | nil => rfl
  | @digit ds n v c _ hv hc ih =>
    have hd : digit? base c = some v := by
      rcases hc with rfl | rfl
      · exact (digit?_digitChar base hbase v hv).1
      · exact (digit?_digitChar base hbase v hv).2
    simp [List.foldlM_append, ih, hd]

theorem Numeral.number? {base n : Nat} {ds : List Char} (h : Numeral base ds n)
    (hbase : base ≤ 16) (hds : ds ≠ []) : WordTex.number? base ds = some n := by
  obtain ⟨d, ds, rfl⟩ := List.exists_cons_of_ne_nil hds
  exact h.foldlM_digits hbase

theorem Numeral.isSome_digit? {base n : Nat} {ds : List Char} (h : Numeral base ds n)
    (hbase : base ≤ 16) : ∀ d ∈ ds, (digit? base d).isSome = true := by
  induction h with
  | nil => simp
  | @digit ds n v c _ hv hc ih =>
    intro d hd
    rcases List.mem_append.mp hd with hd | hd
    · exact ih d hd
    · obtain rfl := List.mem_singleton.mp hd
      rcases hc with rfl | rfl <;> simp [digit?_digitChar base hbase v hv]

theorem characterOfNumber?_toNat {c : Char} (hc : c ≠ '\x00') : characterOfNumber? c.toNat = some c := by
  have hne : c.toNat ≠ 0 := fun h => hc (Char.toNat_inj.mp h)
  rw [characterOfNumber?, if_pos ⟨hne, c.valid⟩, Char.ofNat_toNat]

/-- The characters that end a reference, or a value around it. -/
def referenceMarks : List Char := [';', '&', '<', '\x27', '\x22']

theorem Numeral.not_mem_referenceMarks {base n : Nat} {ds : List Char} (h : Numeral base ds n)
    (hbase : base ≤ 16) : ∀ d ∈ ds, d ∉ referenceMarks := by
  intro d hd hmark
  have hsome := h.isSome_digit? hbase d hd
  simp only [referenceMarks, List.mem_cons, List.not_mem_nil, or_false] at hmark
  rcases hmark with rfl | rfl | rfl | rfl | rfl <;> simp [digit?] at hsome

/-- What is between the ampersand and the semicolon of a reference. -/
structure IsReferenceTo (c : Char) (inside : List Char) : Prop where
  stands : reference? inside = some c
  chars : ∀ d ∈ inside, d ∉ referenceMarks

theorem isReferenceTo_of_mem_entities :
    ∀ e ∈ entities, reference? e.1.toList = some e.2 ∧ ∀ d ∈ e.1.toList, d ∉ referenceMarks := by
  simp [entities, reference?, namedCharacters, referenceMarks]

/-- A character is written as itself or as a reference. -/
theorem WritesChar.itself_or_reference {plain : Char → Bool} {c : Char} {u : List Char}
    (h : WritesChar plain c u) :
    (plain c = true ∧ u = [c]) ∨ ∃ inside, IsReferenceTo c inside ∧ u = '&' :: inside ++ [';'] := by
  cases h with
  | itself hc => exact .inl ⟨hc, rfl⟩
  | @named name h =>
    have := isReferenceTo_of_mem_entities _ h
    exact .inr ⟨name.toList, ⟨this.1, this.2⟩, rfl⟩
  | @decimal ds hds h hc =>
    refine .inr ⟨'#' :: ds, ⟨?_, List.forall_mem_cons.mpr
      ⟨by decide, h.not_mem_referenceMarks (by decide)⟩⟩, rfl⟩
    obtain ⟨d, ds, rfl⟩ := List.exists_cons_of_ne_nil hds
    have hd : d ≠ 'x' := by
      rintro rfl
      have := h.isSome_digit? (by decide) 'x' (by simp)
      simp [digit?] at this
    simp [reference?, hd, h.number? (by decide) hds, characterOfNumber?_toNat hc]
  | @hexadecimal ds hds h hc =>
    refine .inr ⟨'#' :: 'x' :: ds, ⟨?_, List.forall_mem_cons.mpr ⟨by decide, List.forall_mem_cons.mpr
      ⟨by decide, h.not_mem_referenceMarks (by decide)⟩⟩⟩, rfl⟩
    simp [reference?, h.number? (by decide) hds, characterOfNumber?_toNat hc]

/-- A reference is read up to its semicolon. -/
theorem IsReferenceTo.readReference {c : Char} {inside : List Char} (h : IsReferenceTo c inside)
    (rest : List Char) : Markup.readReference (inside ++ ';' :: rest) = some (c, rest) := by
  have hinside : ∀ d ∈ inside, (!endsName d) = true := by
    intro d hd
    have := h.chars d hd
    simp only [referenceMarks, List.mem_cons, not_or] at this
    simp [endsName, this]
  have hend : ∀ d ∈ (';' :: rest).head?, (!endsName d) = false := by simp [endsName]
  rw [Markup.readReference, dropWhile_append_of_head? hinside hend,
    takeWhile_append_of_head? hinside hend]
  simp [h.stands]

theorem WritesValue.replaceReferences? {quote : Char} {data u : List Char}
    (h : WritesValue quote data u) : Markup.replaceReferences? u = some data := by
  induction h with
  | nil => rw [Markup.replaceReferences?]
  | @cons c data u s hc _ ih =>
    rcases hc.itself_or_reference with ⟨hplain, rfl⟩ | ⟨inside, hinside, rfl⟩
    · have hne : c ≠ '&' := by simp_all [isPlainInValue]
      rw [List.singleton_append, Markup.replaceReferences?, if_neg hne, ih]
      rfl
    · rw [show '&' :: inside ++ [';'] ++ s = '&' :: (inside ++ ';' :: s) by simp,
        Markup.replaceReferences?, if_pos rfl]
      split
      · rename_i d rest hread
        obtain ⟨rfl, rfl⟩ : c = d ∧ s = rest := by simpa [hinside.readReference] using hread
        rw [ih]
        rfl
      · rename_i hread
        simp [hinside.readReference] at hread

theorem WritesValue.quote_not_mem {quote : Char} {data u : List Char} (h : WritesValue quote data u)
    (hquote : quote = '\x27' ∨ quote = '\x22') : quote ∉ u := by
  induction h with
  | nil => exact List.not_mem_nil
  | @cons c data u s hc _ ih =>
    rw [List.mem_append, not_or]
    refine ⟨?_, ih⟩
    rcases hc.itself_or_reference with ⟨hplain, rfl⟩ | ⟨inside, hinside, rfl⟩
    · rw [List.mem_singleton]
      rintro rfl
      simp [isPlainInValue] at hplain
    · intro hmem
      have hmark : quote ∈ referenceMarks := by rcases hquote with rfl | rfl <;> decide
      rcases List.mem_append.mp hmem with hmem | hmem
      · rcases List.mem_cons.mp hmem with rfl | hmem
        · simp at hquote
        · exact hinside.chars _ hmem hmark
      · obtain rfl := List.mem_singleton.mp hmem
        simp at hquote

theorem IsName.not_space {name : List Char} (h : IsName name) : ∀ c ∈ name, (!isAsciiSpace c) = true :=
  fun c hc => by simp [(h.chars c hc).1]

theorem not_space_of_quote {q : Char} (hq : q = '\x27' ∨ q = '\x22') : isAsciiSpace q = false := by
  rcases hq with rfl | rfl <;> rfl

/-- An attribute is read up to its closing quote. -/
theorem readAttribute_append {key value : String} {before after v : List Char} {quote : Char}
    (hkey : IsName key.toList) (hbefore : IsSpace before) (hafter : IsSpace after)
    (hquote : quote = '\x27' ∨ quote = '\x22') (hv : WritesValue quote value.toList v)
    (s : List Char) :
    readAttribute (key.toList ++ (before ++ '=' :: (after ++ quote :: (v ++ quote :: s)))) =
      some ((key, value), s) := by
  obtain ⟨c, cs, hcs⟩ := List.exists_cons_of_ne_nil hkey.ne_nil
  have hkey' : ∀ d ∈ cs, (!(d == '=' || isAsciiSpace d)) = true := by
    intro d hd
    have := hkey.chars d (by simp [hcs, hd])
    simp only [markupChars, List.mem_cons, not_or] at this
    simp [this]
  have hend : ∀ d ∈ (before ++ '=' :: (after ++ quote :: (v ++ quote :: s))).head?,
      (!(d == '=' || isAsciiSpace d)) = false := by
    cases before with
    | nil => simp
    | cons b before => simp [hbefore b]
  have hv' : ∀ d ∈ v, decide (d ≠ quote) = true := fun d hd =>
    decide_eq_true fun hq => hv.quote_not_mem hquote (hq ▸ hd)
  have hclose : ∀ d ∈ (quote :: s).head?, decide (d ≠ quote) = false := by simp
  rw [hcs, List.cons_append, readAttribute]
  dsimp only
  rw [dropWhile_append_of_head? hkey' hend, takeWhile_append_of_head? hkey' hend, skipAsciiSpace,
    dropWhile_append_of_head? hbefore (by simp [isAsciiSpace])]
  simp only
  rw [skipAsciiSpace, dropWhile_append_of_head? hafter (by simp [not_space_of_quote hquote])]
  dsimp only
  rw [if_pos hquote, dropWhile_append_of_head? hv' hclose, takeWhile_append_of_head? hv' hclose,
    hv.replaceReferences?, ← hcs]
  simp

theorem readAttributes_of_space {gap : List Char} (hgap : IsSpace gap) : readAttributes gap = some [] := by
  rw [readAttributes]
  split
  · rfl
  · rename_i c cs hcons
    have hskip : skipAsciiSpace gap = [] := by
      rw [skipAsciiSpace, ← List.append_nil gap]
      exact dropWhile_append_of_head? hgap (by simp)
    simp [hskip] at hcons

theorem readAttributes_of_readAttribute {s r rest : List Char} {a : String × String}
    (hs : skipAsciiSpace s = r) (ha : readAttribute r = some (a, rest)) :
    readAttributes s = (readAttributes rest).map (a :: ·) := by
  subst hs
  rw [readAttributes]
  split
  · rename_i hnil
    simp [hnil, readAttribute] at ha
  · rename_i c cs hcons
    rw [hcons] at ha
    split
    · rename_i b rest' hb
      obtain ⟨rfl, rfl⟩ : a = b ∧ rest = rest' := by simpa [ha] using hb
      rfl
    · rename_i hb
      simp [ha] at hb

theorem WritesAttributes.readAttributes {attributes : List (String × String)} {a : List Char}
    (h : WritesAttributes attributes a) (hkeys : ∀ x ∈ attributes, IsName x.1.toList) :
    Markup.readAttributes a = some attributes := by
  induction h with
  | nil hgap => exact readAttributes_of_space hgap
  | @cons key value attributes gap before after v s quote _ hgap hbefore hafter hquote hv _ ih =>
    have hkey := hkeys _ List.mem_cons_self
    have hread := readAttribute_append hkey hbefore hafter hquote hv s
    have hfirst : ∀ c ∈ (key.toList ++ (before ++ '=' :: (after ++ quote :: (v ++ quote :: s)))).head?,
        isAsciiSpace c = false := by
      obtain ⟨c, cs, hcs⟩ := List.exists_cons_of_ne_nil hkey.ne_nil
      simpa [hcs] using (hkey.chars c (by simp [hcs])).1
    have hskip := dropWhile_append_of_head? hgap hfirst
    simp only [List.append_assoc, List.cons_append] at hskip ⊢
    rw [readAttributes_of_readAttribute hskip hread, ih fun x hx => hkeys x (List.mem_cons_of_mem _ hx)]
    rfl

/-- Attributes start with space, if there is anything. -/
theorem WritesAttributes.head? {attributes : List (String × String)} {a : List Char}
    (h : WritesAttributes attributes a) : ∀ c ∈ a.head?, isAsciiSpace c = true := by
  cases h with
  | nil hgap => exact fun c hc => hgap c (List.mem_of_mem_head? hc)
  | @cons key value attributes gap _ _ _ _ _ hne hgap =>
    obtain ⟨g, gs, rfl⟩ := List.exists_cons_of_ne_nil hne
    simpa using hgap g List.mem_cons_self

/-- Attributes end with space or with a quote. -/
theorem WritesAttributes.getLast?_ne {attributes : List (String × String)} {a : List Char}
    (h : WritesAttributes attributes a) : a.getLast? ≠ some '/' := by
  induction h with
  | nil hgap =>
    intro hlast
    simpa [isAsciiSpace] using hgap '/' (List.mem_of_getLast? hlast)
  | @cons key value attributes gap before after v s quote _ _ _ _ hquote _ _ ih =>
    have hq : quote ≠ '/' := by
      rintro rfl
      simp at hquote
    rw [List.getLast?_append, List.getLast?_cons, Option.some_or]
    cases hs : s.getLast? with
    | none => simpa using hq
    | some c => simpa [hs] using ih

/-- The text is inside of a tag, with no quote left open. -/
def StaysInside (u : List Char) : Prop :=
  ∀ rest, cutTag? none (u ++ rest) = (cutTag? none rest).map fun r => (u ++ r.1, r.2)

namespace StaysInside

theorem of_plain {u : List Char} (h : ∀ c ∈ u, c ∉ (['>', '\x27', '\x22'] : List Char)) :
    StaysInside u := by
  intro rest
  induction u with
  | nil => simp
  | cons c u ih =>
    have hc := h c List.mem_cons_self
    simp only [List.mem_cons, List.not_mem_nil, or_false, not_or] at hc
    rw [List.cons_append, cutTag?, if_neg (by simp [hc]), if_neg (by simp [hc])]
    dsimp only
    rw [ih fun d hd => h d (List.mem_cons_of_mem _ hd), Option.map_map]
    rfl

theorem append {u v : List Char} (hu : StaysInside u) (hv : StaysInside v) : StaysInside (u ++ v) := by
  intro rest
  rw [List.append_assoc, hu, hv, Option.map_map]
  simp [Function.comp_def]

theorem quoted {quote : Char} {v : List Char} (hquote : quote = '\x27' ∨ quote = '\x22')
    (hv : quote ∉ v) : StaysInside (quote :: (v ++ [quote])) := by
  have hinside (rest : List Char) : cutTag? (some quote) (v ++ quote :: rest) =
      (cutTag? none rest).map fun r => (v ++ quote :: r.1, r.2) := by
    induction v with
    | nil => rw [List.nil_append, cutTag?, if_neg (by simp)]; simp
    | cons c v ih =>
      rw [List.mem_cons, not_or] at hv
      rw [List.cons_append, cutTag?, if_neg (by simp)]
      simp only [if_neg (Ne.symm hv.1)]
      rw [ih hv.2, Option.map_map]
      rfl
  intro rest
  have hne : quote ≠ '>' := by
    rintro rfl
    simp at hquote
  rw [List.cons_append, List.append_assoc, List.singleton_append, cutTag?, if_neg (by simp [hne])]
  simp only [if_pos hquote]
  rw [hinside, Option.map_map]
  simp [Function.comp_def]

theorem cutTag? {u : List Char} (h : StaysInside u) (rest : List Char) :
    Markup.cutTag? none (u ++ '>' :: rest) = some (u, rest) := by
  rw [h, Markup.cutTag?, if_pos ⟨rfl, rfl⟩]
  simp

end StaysInside

theorem IsName.staysInside {name : List Char} (h : IsName name) : StaysInside name := by
  refine .of_plain fun c hc hmark => (h.chars c hc).2 ?_
  simp only [markupChars, List.mem_cons, List.not_mem_nil, or_false] at hmark ⊢
  tauto

theorem IsSpace.staysInside {gap : List Char} (h : IsSpace gap) : StaysInside gap := by
  refine .of_plain fun c hc hmark => ?_
  have hspace := h c hc
  simp only [List.mem_cons, List.not_mem_nil, or_false] at hmark
  rcases hmark with rfl | rfl | rfl <;> simp [isAsciiSpace] at hspace

theorem WritesAttributes.staysInside {attributes : List (String × String)} {a : List Char}
    (h : WritesAttributes attributes a) (hkeys : ∀ x ∈ attributes, IsName x.1.toList) :
    StaysInside a := by
  induction h with
  | nil hgap => exact hgap.staysInside
  | @cons key value attributes gap before after v s quote _ hgap hbefore hafter hquote hv _ ih =>
    have hequals : StaysInside ['='] := .of_plain (by simp)
    have hvalue := StaysInside.quoted hquote (hv.quote_not_mem hquote)
    have hkey := (hkeys _ List.mem_cons_self).staysInside
    have hs := ih fun x hx => hkeys x (List.mem_cons_of_mem _ hx)
    have := (((((hgap.staysInside.append hkey).append hbefore.staysInside).append hequals).append
      hafter.staysInside).append hvalue).append hs
    simpa using this

/-- What starts with a name is a tag. -/
theorem IsName.read? {name : List Char} (h : IsName name) (s : List Char) :
    Markup.read? (name ++ s) =
      (cutTag? none (name ++ s)).bind fun c => (ofInside? c.1).map fun m => ([m], c.2) := by
  obtain ⟨c, cs, rfl⟩ := List.exists_cons_of_ne_nil h.ne_nil
  have hc := (h.chars c List.mem_cons_self).2
  simp only [markupChars, List.mem_cons, List.not_mem_nil, or_false, not_or] at hc
  have hmark (word : List Char) : after? ('!' :: word) (c :: cs ++ s) = none := by
    simp [after?, Ne.symm hc.2.2.2.2.2.2.2.1]
  have hsection : after? "![CDATA[".toList (c :: cs ++ s) = none := hmark "[CDATA[".toList
  have hcomment : after? "!--".toList (c :: cs ++ s) = none := hmark "--".toList
  rw [Markup.read?.eq_def, hsection, hcomment]
  simp [hc]

/-- A tag with the name and the attributes of an element. -/
structure IsTagOf (name : String) (attributes : List (String × String)) (a : List Char) : Prop where
  name : IsName name.toList
  keys : ∀ x ∈ attributes, IsName x.1.toList
  nodup : (attributes.map Prod.fst).Nodup
  written : WritesAttributes attributes a

namespace IsTagOf

variable {name : String} {attributes : List (String × String)} {a : List Char}

theorem readTag (h : IsTagOf name attributes a) :
    Markup.readTag (name.toList ++ a) = some (name, attributes) := by
  have hspace : ∀ c ∈ a.head?, (!isAsciiSpace c) = false := by simpa using h.written.head?
  rw [Markup.readTag, dropWhile_append_of_head? h.name.not_space hspace,
    takeWhile_append_of_head? h.name.not_space hspace, h.written.readAttributes h.keys]
  simp [h.nodup]

theorem staysInside (h : IsTagOf name attributes a) : StaysInside (name.toList ++ a) :=
  h.name.staysInside.append (h.written.staysInside h.keys)

theorem getLast?_ne (h : IsTagOf name attributes a) : (name.toList ++ a).getLast? ≠ some '/' := by
  intro hlast
  rw [List.getLast?_append] at hlast
  rcases Option.or_eq_some_iff.mp hlast with hlast | ⟨-, hlast⟩
  · exact h.written.getLast?_ne hlast
  · exact (h.name.chars _ (List.mem_of_getLast? hlast)).2 (by decide)

theorem read?_start (h : IsTagOf name attributes a) (rest : List Char) :
    read? (name.toList ++ a ++ '>' :: rest) = some ([.startTag name attributes], rest) := by
  rw [List.append_assoc, h.name.read?, ← List.append_assoc, h.staysInside.cutTag?, Option.bind_some,
    ofInside?, if_neg h.getLast?_ne, h.readTag]
  rfl

theorem read?_empty (h : IsTagOf name attributes a) (rest : List Char) :
    read? (name.toList ++ a ++ '/' :: '>' :: rest) = some ([.emptyTag name attributes], rest) := by
  have hslash : StaysInside (name.toList ++ a ++ ['/']) := h.staysInside.append (.of_plain (by simp))
  have hcut := hslash.cutTag? rest
  rw [List.append_assoc _ ['/'], List.singleton_append] at hcut
  rw [List.append_assoc, h.name.read?, ← List.append_assoc, hcut, Option.bind_some, ofInside?,
    if_pos List.getLast?_concat, List.dropLast_concat, h.readTag]
  rfl

end IsTagOf

theorem endTagOf_append {name : String} (h : IsName name.toList) {gap : List Char} (hgap : IsSpace gap) :
    endTagOf (name.toList ++ gap) = .endTag name := by
  have hnot : (name.toList ++ gap).all isAsciiSpace = false := by
    obtain ⟨c, cs, hcs⟩ := List.exists_cons_of_ne_nil h.ne_nil
    simp [hcs, (h.chars c (by simp [hcs])).1]
  have hdrop : ((name.toList ++ gap).reverse.dropWhile isAsciiSpace) = name.toList.reverse := by
    rw [List.reverse_append]
    refine dropWhile_append_of_head? (fun c hc => hgap c (List.mem_reverse.mp hc)) fun c hc => ?_
    exact (h.chars c (List.mem_reverse.mp (List.mem_of_mem_head? hc))).1
  rw [endTagOf, hnot, hdrop]
  simp

theorem IsName.read?_end {name : String} (h : IsName name.toList) {gap : List Char} (hgap : IsSpace gap)
    (rest : List Char) :
    Markup.read? ('/' :: (name.toList ++ gap ++ '>' :: rest)) = some ([.endTag name], rest) := by
  rw [Markup.read?.eq_def, show after? "![CDATA[".toList ('/' :: _) = none from rfl,
    show after? "!--".toList ('/' :: _) = none from rfl]
  simp only
  rw [(h.staysInside.append hgap.staysInside).cutTag?, Option.map_some, endTagOf_append h hgap]

/-- A question mark begins an instruction. -/
theorem read?_question {c : Char} (hc : c ≠ '>') (s : List Char) :
    read? ('?' :: c :: s) = (cutAt? "?>".toList (c :: s)).map fun r => ([], r.2) := by
  rw [read?.eq_def, show after? "![CDATA[".toList ('?' :: _) = none from rfl,
    show after? "!--".toList ('?' :: _) = none from rfl]
  simp [hc]

theorem Aside.read? {u : List Char} (h : Aside u) (rest : List Char) :
    ∃ s, u ++ rest = '<' :: s ∧ Markup.read? s = some ([], rest) := by
  cases h with
  | @comment body hbody =>
    have hcut : cutAt? "-->".toList (body ++ ("-->".toList ++ rest)) = some (body, rest) :=
      cutAt?_append ['-', '-'] '>' (by decide) hbody rest
    refine ⟨"!--".toList ++ (body ++ ("-->".toList ++ rest)), by simp, ?_⟩
    rw [Markup.read?.eq_def, show after? "![CDATA[".toList ("!--".toList ++ _) = none from rfl,
      after?_append]
    dsimp only
    rw [hcut, Option.map_some]
  | @instruction target body htarget hspace hbody =>
    have hbody' : ¬ ['?', '>'] <:+: target ++ body :=
      not_infix_append (fun hq => (htarget.chars _ hq).2 (by decide)) hbody
    have hcut : cutAt? "?>".toList (target ++ body ++ ("?>".toList ++ rest)) =
        some (target ++ body, rest) := cutAt?_append ['?'] '>' (by decide) hbody' rest
    refine ⟨'?' :: (target ++ body ++ ("?>".toList ++ rest)), by simp, ?_⟩
    obtain ⟨c, cs, rfl⟩ := List.exists_cons_of_ne_nil htarget.ne_nil
    have hc : c ≠ '>' := by
      rintro rfl
      exact (htarget.chars _ List.mem_cons_self).2 (by decide)
    rw [List.cons_append, List.cons_append] at hcut ⊢
    rw [read?_question hc, hcut, Option.map_some]

theorem read?_section {part : List Char} (hpart : ¬ [']', ']', '>'] <:+: part) (rest : List Char) :
    read? ("![CDATA[".toList ++ (part ++ ([']', ']', '>'] ++ rest))) = some ([.text part], rest) := by
  have hcut : cutAt? "]]>".toList (part ++ ("]]>".toList ++ rest)) = some (part, rest) :=
    cutAt?_append [']', ']'] '>' (by decide) hpart rest
  rw [read?.eq_def, after?_append]
  dsimp only
  rw [show [']', ']', '>'] = "]]>".toList from rfl, hcut, Option.map_some]

end Xml
end WordTex
