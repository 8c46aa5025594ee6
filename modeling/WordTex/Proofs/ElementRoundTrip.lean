import WordTex.Proofs.ReadMarkup

/-! # Reading the element trees that were written

A proper tree is read back from each way to write it. What is written for contents puts them behind
those that are there, whatever the text goes on with; as no text of a proper tree is empty or has a
text next to it, no two of them merge. Trees that were read have such texts, too. -/
namespace WordTex

namespace GrowingTree
open Markup

theorem addText_append (a b : List Char) (contents : List XmlContent) :
    addText (a ++ b) contents = addText b (addText a contents) := by
  by_cases ha : a = []
  · simp [addText, ha]
  by_cases hb : b = []
  · simp [addText, hb]
  have hab : a ++ b ≠ [] := by simp [ha]
  simp only [addText, if_neg ha, if_neg hb, if_neg hab]
  split <;> simp [String.append_assoc]

/-- The tree after the rest of a text, unless the text is malformed. -/
def load (tree : GrowingTree) (s : List Char) : Option GrowingTree :=
  (scan? s).bind (·.foldlM grow tree)

/-- The tree with character data in its innermost open element. -/
def addData (tree : GrowingTree) (data : List Char) : GrowingTree :=
  { tree with contents := addText data tree.contents }

@[simp] theorem addData_nil (tree : GrowingTree) : tree.addData [] = tree := rfl

theorem addData_append (tree : GrowingTree) (a b : List Char) :
    tree.addData (a ++ b) = (tree.addData a).addData b := by
  simp [addData, addText_append]

@[simp] theorem grow_text (tree : GrowingTree) (data : List Char) :
    grow tree (.text data) = some (tree.addData data) := rfl

theorem load_nil (tree : GrowingTree) : load tree [] = some tree := by
  rw [load, scan?]
  rfl

theorem load_of_scan? {s rest : List Char} {ms : List Markup}
    (h : scan? s = (scan? rest).map (ms ++ ·)) (tree : GrowingTree) :
    load tree s = (ms.foldlM grow tree).bind (load · rest) := by
  simp only [load, h]
  cases scan? rest <;> simp [List.foldlM_append]

theorem load_markup {s rest : List Char} {ms : List Markup} (h : read? s = some (ms, rest))
    (tree : GrowingTree) : load tree ('<' :: s) = (ms.foldlM grow tree).bind (load · rest) := by
  refine load_of_scan? ?_ tree
  rw [scan?, if_pos rfl]
  split <;> simp_all

theorem load_data {s rest data : List Char} (h : scan? s = (scan? rest).map (.text data :: ·))
    (tree : GrowingTree) : load tree s = load (tree.addData data) rest := by
  have hload : load tree s = ([.text data].foldlM grow tree).bind (load · rest) := load_of_scan? h tree
  simpa using hload

theorem load_reference {s rest : List Char} {c : Char} (h : readReference s = some (c, rest))
    (tree : GrowingTree) : load tree ('&' :: s) = load (tree.addData [c]) rest := by
  refine load_data ?_ tree
  rw [scan?, if_neg (by decide), if_pos rfl]
  split <;> simp_all

theorem scan?_plain {c : Char} (hc : startsMarkup c = false) (s : List Char) :
    scan? (c :: s) = (scan? (s.dropWhile (!startsMarkup ·))).map
      (.text (c :: s.takeWhile (!startsMarkup ·)) :: ·) := by
  simp only [startsMarkup, Bool.or_eq_false_iff, beq_eq_false_iff_ne] at hc
  rw [scan?, if_neg hc.1, if_neg hc.2]

/-- Character data is one text, but may as well be added character by character. -/
theorem load_plain {c : Char} (hc : startsMarkup c = false) (s : List Char) (tree : GrowingTree) :
    load tree (c :: s) = load (tree.addData [c]) s := by
  have hload := load_data (scan?_plain hc s) tree
  cases s with
  | nil => simpa using hload
  | cons d s =>
    cases hd : startsMarkup d with
    | true =>
      rwa [List.dropWhile_cons_of_neg (by simp [hd]), List.takeWhile_cons_of_neg (by simp [hd])] at hload
    | false =>
      rw [List.dropWhile_cons_of_pos (by simp [hd]), List.takeWhile_cons_of_pos (by simp [hd])] at hload
      rw [hload, load_data (scan?_plain hd s), ← addData_append, List.singleton_append]

theorem load_char {c : Char} {u : List Char} (h : Xml.WritesChar Xml.isPlainInText c u)
    (rest : List Char) (tree : GrowingTree) : load tree (u ++ rest) = load (tree.addData [c]) rest := by
  rcases h.itself_or_reference with ⟨hplain, rfl⟩ | ⟨inside, hinside, rfl⟩
  · have hc : startsMarkup c = false := by simpa [Xml.isPlainInText, startsMarkup] using hplain
    exact load_plain hc rest tree
  · simpa using load_reference (hinside.readReference rest) tree

theorem load_aside {u : List Char} (h : Xml.Aside u) (rest : List Char) (tree : GrowingTree) :
    load tree (u ++ rest) = load tree rest := by
  obtain ⟨s, hs, hread⟩ := h.read? rest
  simp [hs, load_markup hread]

/-- However a text is written, its characters are added. -/
theorem load_text {data u : List Char} (h : Xml.WritesText data u) (rest : List Char)
    (tree : GrowingTree) : load tree (u ++ rest) = load (tree.addData data) rest := by
  induction h generalizing tree with
  | nil => rfl
  | @char c data u s hc _ ih =>
    rw [List.append_assoc, load_char hc, ih, ← addData_append, List.singleton_append]
  | @sectioned part data s hpart _ ih =>
    have hread := Xml.read?_section hpart (s ++ rest)
    have := load_markup hread tree
    rw [addData_append, ← ih]
    simpa using this
  | aside hu _ ih => rw [List.append_assoc, load_aside hu, ih]

section Tags

variable {name : String} {attributes : List (String × String)} {a : List Char}

theorem load_startTag (h : Xml.IsTagOf name attributes a) (rest : List Char) (tree : GrowingTree) :
    load tree ('<' :: (name.toList ++ a ++ '>' :: rest)) =
      load ⟨[], ⟨name, attributes, tree.contents⟩ :: tree.enclosing⟩ rest := by
  rw [load_markup (h.read?_start rest)]
  simp [grow]

theorem load_emptyTag (h : Xml.IsTagOf name attributes a) (rest : List Char) (tree : GrowingTree) :
    load tree ('<' :: (name.toList ++ a ++ '/' :: '>' :: rest)) =
      load { tree with contents := .element ⟨name, attributes, []⟩ :: tree.contents } rest := by
  rw [load_markup (h.read?_empty rest)]
  simp [grow]

theorem load_endTag (hname : Xml.IsName name.toList) {gap : List Char} (hgap : Xml.IsSpace gap)
    (contents outer : List XmlContent) (enclosing : List OpenElement) (rest : List Char) :
    load ⟨contents, ⟨name, attributes, outer⟩ :: enclosing⟩
        ('<' :: '/' :: (name.toList ++ gap ++ '>' :: rest)) =
      load ⟨.element ⟨name, attributes, contents.reverse⟩ :: outer, enclosing⟩ rest := by
  rw [load_markup (hname.read?_end hgap rest)]
  simp [grow]

end Tags

/-- A text does not grow a text that is there. -/
theorem addText_eq_cons {t : String} {contents after : List XmlContent}
    (h : HasSeparateTexts (contents.reverse ++ .text t :: after)) :
    addText t.toList contents = .text t :: contents := by
  have hne : t.toList ≠ [] := by simpa using h.ne_empty t (by simp)
  rw [addText.eq_def, if_neg hne, String.ofList_toList]
  split
  · rename_i u rest
    exact absurd (by simp) (h.not_adjacent rest.reverse u t after)
  · rfl

/-- However contents are written, they are put behind those that are there. -/
theorem load_contents {cs : List XmlContent} {u : List Char} (h : Xml.WritesContents cs u)
    (hproper : ∀ d ∈ descendantsIn cs, d.IsProper) (rest : List Char) (tree : GrowingTree)
    (htexts : HasSeparateTexts (tree.contents.reverse ++ cs)) :
    load tree (u ++ rest) = load { tree with contents := cs.reverse ++ tree.contents } rest := by
  induction h generalizing rest tree with
  | nil => rfl
  | silence hu _ ih => rw [List.append_assoc, load_text hu, addData_nil, ih hproper _ _ htexts]
  | @text t contents u s hu _ ih =>
    have hadded : tree.addData t.toList = { tree with contents := .text t :: tree.contents } := by
      rw [addData, addText_eq_cons htexts]
    rw [List.append_assoc, load_text hu, hadded, ih (by simpa [descendantsIn] using hproper) _ _
      (by simpa using htexts)]
    simp
  | @emptyTag name attributes contents a s ha _ ih =>
    have hself := hproper ⟨name, attributes, []⟩ (by simp [descendantsIn])
    have hrest : ∀ d ∈ descendantsIn contents, d.IsProper :=
      fun d hd => hproper d (by simp [descendantsIn, hd])
    have hopen := load_emptyTag ⟨hself.name, hself.keys, hself.nodup, ha⟩ (s ++ rest) tree
    rw [ih hrest _ _ (by simpa using htexts)] at hopen
    simpa using hopen
  | @tags name attributes inner contents a u gap s ha _ hgap _ ihInner ih =>
    have hself := hproper ⟨name, attributes, inner⟩ (by simp [descendantsIn])
    have hinside : ∀ d ∈ descendantsIn inner, d.IsProper :=
      fun d hd => hproper d (by simp [descendantsIn, Element.descendants, hd])
    have hrest : ∀ d ∈ descendantsIn contents, d.IsProper :=
      fun d hd => hproper d (by simp [descendantsIn, hd])
    have hopen := load_startTag ⟨hself.name, hself.keys, hself.nodup, ha⟩
      (u ++ '<' :: '/' :: (name.toList ++ gap ++ '>' :: (s ++ rest))) tree
    rw [ihInner hinside _ _ (by simpa using hself.texts), load_endTag hself.name hgap,
      ih hrest _ _ (by simpa using htexts)] at hopen
    simpa using hopen

end GrowingTree

/-- The texts are separate in the contents, and in all elements among and inside of them. -/
structure IsSeparate (contents : List XmlContent) : Prop where
  texts : HasSeparateTexts contents
  inside : ∀ d ∈ descendantsIn contents, HasSeparateTexts d.contents

namespace IsSeparate
open GrowingTree

variable {contents : List XmlContent}

theorem nil : IsSeparate [] := ⟨.nil, by simp [descendantsIn]⟩

theorem addText (h : IsSeparate contents) (data : List Char) :
    IsSeparate (GrowingTree.addText data contents) := by
  rw [GrowingTree.addText.eq_def]
  split
  · exact h
  · rename_i hne
    split
    · rename_i t rest
      obtain ⟨hfirst, hrest⟩ := HasSeparateTexts.cons_iff.mp h.texts
      have ht : t ++ String.ofList data ≠ "" := by simp [hne]
      refine ⟨HasSeparateTexts.cons_iff.mpr ⟨?_, hrest⟩, h.inside⟩
      rintro _ ⟨rfl⟩
      exact ⟨ht, (hfirst t rfl).2⟩
    · rename_i hnot
      have ht : String.ofList data ≠ "" := by simpa using hne
      refine ⟨HasSeparateTexts.cons_iff.mpr ⟨?_, h.texts⟩, h.inside⟩
      rintro _ ⟨rfl⟩
      refine ⟨ht, fun u hu => ?_⟩
      obtain ⟨rest, hrest⟩ := List.head?_eq_some_iff.mp hu
      exact hnot u rest hrest

/-- Contents are kept newest first until their element is closed. -/
theorem element {outer : List XmlContent} (h : IsSeparate contents) (houter : IsSeparate outer)
    (name : String) (attributes : List (String × String)) :
    IsSeparate (.element ⟨name, attributes, contents.reverse⟩ :: outer) := by
  refine ⟨HasSeparateTexts.cons_iff.mpr ⟨by simp, houter.texts⟩, fun d hd => ?_⟩
  rw [descendantsIn, List.cons_append, List.mem_cons, List.mem_append, Element.descendants] at hd
  rcases hd with rfl | hd | hd
  · exact h.texts.reverse
  · obtain ⟨e, he, hd⟩ := mem_descendantsIn_iff.mp hd
    exact h.inside d (mem_descendantsIn_iff.mpr ⟨e, List.mem_reverse.mp he, hd⟩)
  · exact houter.inside d hd

end IsSeparate

namespace GrowingTree

/-- The texts are separate in the contents of all open elements and of what they contain. -/
structure HasSeparateContents (tree : GrowingTree) : Prop where
  contents : IsSeparate tree.contents
  outer : ∀ e ∈ tree.enclosing, IsSeparate e.outer

theorem HasSeparateContents.grow {tree tree' : GrowingTree} {m : Markup}
    (h : tree.HasSeparateContents) (hgrow : grow tree m = some tree') : tree'.HasSeparateContents := by
  cases m with
  | text data =>
    obtain rfl := Option.some.inj hgrow
    exact ⟨h.contents.addText data, h.outer⟩
  | startTag name attributes =>
    obtain rfl := Option.some.inj hgrow
    exact ⟨.nil, List.forall_mem_cons.mpr ⟨h.contents, h.outer⟩⟩
  | emptyTag name attributes =>
    obtain rfl := Option.some.inj hgrow
    exact ⟨IsSeparate.nil.element h.contents name attributes, h.outer⟩
  | endTag name =>
    obtain ⟨contents, enclosing⟩ := tree
    rw [GrowingTree.grow] at hgrow
    split at hgrow
    · simp at hgrow
    · rename_i e enclosing' henclosing
      obtain rfl : enclosing = e :: enclosing' := henclosing
      split at hgrow
      · obtain rfl := Option.some.inj hgrow
        exact ⟨h.contents.element (h.outer e List.mem_cons_self) e.name e.attributes,
          fun f hf => h.outer f (List.mem_cons_of_mem e hf)⟩
      · simp at hgrow

theorem HasSeparateContents.foldlM_grow {tree tree' : GrowingTree} {ms : List Markup}
    (h : tree.HasSeparateContents) (hgrow : ms.foldlM GrowingTree.grow tree = some tree') :
    tree'.HasSeparateContents := by
  induction ms generalizing tree with
  | nil =>
    obtain rfl := Option.some.inj hgrow
    exact h
  | cons m ms ih =>
    rw [List.foldlM_cons] at hgrow
    obtain ⟨next, hnext, hrest⟩ := Option.bind_eq_some_iff.mp hgrow
    exact ih (h.grow hnext) hrest

end GrowingTree

namespace Xml

/-- What is around the root reads as text outside of it. -/
theorem Surroundings.exists_writesText {s : List Char} (h : Surroundings s) :
    ∃ data, WritesText data s := by
  induction h with
  | nil => exact ⟨[], .nil⟩
  | @space c s hc _ ih =>
    obtain ⟨data, hdata⟩ := ih
    have hplain : isPlainInText c = true := by
      simp only [isAsciiSpace, Bool.or_eq_true, beq_iff_eq] at hc
      rcases hc with ((rfl | rfl) | rfl) | rfl <;> rfl
    exact ⟨c :: data, .char (.itself hplain) hdata⟩
  | aside hu _ ih =>
    obtain ⟨data, hdata⟩ := ih
    exact ⟨data, .aside hu hdata⟩

theorem WritesText.head?_of_nil {data u : List Char} (h : WritesText data u) (hdata : data = []) :
    ∀ c ∈ u.head?, c = '<' := by
  induction h with
  | nil => simp
  | char => simp at hdata
  | sectioned => simp
  | aside hu => cases hu <;> simp

/-- What is written for an element starts with markup. -/
theorem WritesContents.head?_of_element {cs : List XmlContent} {u : List Char}
    (h : WritesContents cs u) {e : Element} (hcs : cs = [.element e]) : u.head? = some '<' := by
  induction h with
  | nil => simp at hcs
  | @silence contents u s hu _ ih =>
    cases u with
    | nil => exact ih hcs
    | cons c u =>
      obtain rfl := hu.head?_of_nil rfl c rfl
      rfl
  | text => simp at hcs
  | emptyTag | tags => rfl

/-- No document starts with a byte order mark. -/
theorem WritesDocument.withoutByteOrderMark {root : Element} {s : List Char}
    (h : WritesDocument root s) : WordTex.withoutByteOrderMark s = s := by
  obtain ⟨before, u, after, rfl, hbefore, hu, -⟩ := h
  have hfirst : ∀ c ∈ (before ++ u ++ after).head?, c ≠ '\ufeff' := by
    have hroot := hu.head?_of_element rfl
    cases hbefore with
    | nil => simp [hroot]
    | @space c s hc =>
      rintro _ ⟨rfl⟩ rfl
      simp [isAsciiSpace] at hc
    | aside hu => cases hu <;> simp
  cases hs : before ++ u ++ after with
  | nil => rfl
  | cons c s => rw [WordTex.withoutByteOrderMark, if_neg (hfirst c (by simp [hs]))]

end Xml

/-- The root is read between texts outside of it. -/
theorem GrowingTree.load_document {root : Element} {s : List Char} (h : Xml.WritesDocument root s)
    (hproper : ∀ d ∈ root :: root.descendants, d.IsProper) :
    ∃ before after, load start s = some ⟨addText after (.element root :: addText before []), []⟩ := by
  obtain ⟨_, u, _, rfl, hbefore, hu, hafter⟩ := h
  obtain ⟨before, hbefore⟩ := hbefore.exists_writesText
  obtain ⟨after, hafter⟩ := hafter.exists_writesText
  refine ⟨before, after, ?_⟩
  have htexts : HasSeparateTexts ((start.addData before).contents.reverse ++ [.element root]) := by
    have hseparate := (IsSeparate.nil.addText before).texts
    rw [← List.reverse_cons]
    exact (HasSeparateTexts.cons_iff.mpr ⟨by simp, hseparate⟩).reverse
  have hroot : ∀ d ∈ descendantsIn [.element root], d.IsProper := by
    simpa [descendantsIn] using hproper
  have hend := load_text hafter []
  rw [List.append_nil] at hend
  rw [List.append_assoc, load_text hbefore, load_contents hu hroot _ _ htexts, hend, load_nil]
  rfl

theorem findSome?_reverse_addText (data : List Char) (contents : List XmlContent) :
    (GrowingTree.addText data contents).reverse.findSome? XmlContent.element? =
      contents.reverse.findSome? XmlContent.element? := by
  rw [GrowingTree.addText.eq_def]
  split
  · rfl
  · split <;> simp [List.findSome?_append, XmlContent.element?]

theorem Element.ofXml_eq_ok {root : Element} {xml : String}
    (hproper : ∀ d ∈ root :: root.descendants, d.IsProper)
    (hxml : Xml.WritesDocument root xml.toList) : Element.ofXml xml = .ok root := by
  obtain ⟨before, after, hload⟩ := GrowingTree.load_document hxml hproper
  have hroot :
      (GrowingTree.addText after (.element root :: GrowingTree.addText before [])).reverse.findSome?
        XmlContent.element? = some root := by
    rw [findSome?_reverse_addText, List.reverse_cons, List.findSome?_append, findSome?_reverse_addText]
    rfl
  rw [GrowingTree.load] at hload
  rw [Element.ofXml, hxml.withoutByteOrderMark]
  simp only [hload, hroot]

theorem hasSeparateTexts_of_ofXml {xml : String} {root : Element} (hread : Element.ofXml xml = .ok root) :
    ∀ d ∈ root :: root.descendants, HasSeparateTexts d.contents := by
  rw [Element.ofXml] at hread
  split at hread
  · simp at hread
  · rename_i contents hload
    split at hread
    · rename_i e he
      obtain rfl : e = root := by simpa using hread
      obtain ⟨ms, -, hgrow⟩ := Option.bind_eq_some_iff.mp hload
      have hstart : GrowingTree.start.HasSeparateContents := ⟨.nil, by simp [GrowingTree.start]⟩
      have hseparate := (hstart.foldlM_grow hgrow).contents
      obtain ⟨c, hc, he⟩ := List.exists_of_findSome?_eq_some he
      cases c with
      | text t => simp [XmlContent.element?] at he
      | element e' =>
        obtain rfl : e' = e := by simpa [XmlContent.element?] using he
        have hmem := List.mem_reverse.mp hc
        exact fun d hd => hseparate.inside d (mem_descendantsIn_iff.mpr ⟨e', hmem, hd⟩)
    · simp at hread
  · simp at hread

/-- Each way to write a tree is read as the tree, and there is one; and the texts are separate in all
elements of what is read from any text. -/
theorem ofXml_inverts_writing :
    (∀ root xml, (∀ d ∈ root :: root.descendants, d.IsProper) →
      Xml.WritesDocument root xml.toList → Element.ofXml xml = .ok root) ∧
    (∀ root, ∃ xml : String, Xml.WritesDocument root xml.toList) ∧
    ∀ xml root, Element.ofXml xml = .ok root →
      ∀ d ∈ root :: root.descendants, HasSeparateTexts d.contents := by
  refine ⟨fun _ _ => Element.ofXml_eq_ok, fun root => ?_, fun _ _ => hasSeparateTexts_of_ofXml⟩
  obtain ⟨s, hs⟩ := Xml.exists_writesDocument root
  exact ⟨.ofList s, by rwa [String.toList_ofList]⟩

/-- A tree with an attribute, with texts that have markup in them, and with an element without contents. -/
def markedTree : Element :=
  ⟨"a", [("t", "x & 'y")],
    [.element ⟨"b", [], [.text "1 < <2>>"]⟩, .element ⟨"c", [], []⟩, .text "&lt;",
      .element ⟨"c", [], []⟩]⟩

/-- A text for the tree, with a declaration, a comment, a section, and references of all kinds. -/
def markedTreeText : String :=
  "<?xml version='1.0'?>\n<a t='x &amp; &#39;y'><b>1 &lt; <![CDATA[<2>]]>&#x3e;</b><c/>&amp;" ++
    "<!-- </a> -->lt;<c ></c\n></a>"

theorem isProper_markedTree : ∀ d ∈ markedTree :: markedTree.descendants, d.IsProper := by
  have hseparate : ∀ d ∈ markedTree :: markedTree.descendants, HasSeparateTexts d.contents := by
    simp [markedTree, Element.descendants, descendantsIn, HasSeparateTexts.cons_iff,
      HasSeparateTexts.nil]
  have hnames : ∀ d ∈ markedTree :: markedTree.descendants, Xml.IsName d.name.toList ∧
      (∀ x ∈ d.attributes, Xml.IsName x.1.toList) ∧ (d.attributes.map Prod.fst).Nodup := by decide
  exact fun d hd => ⟨(hnames d hd).1, (hnames d hd).2.1, (hnames d hd).2.2, hseparate d hd⟩

theorem writesDocument_markedTree : Xml.WritesDocument markedTree markedTreeText.toList := by
  have hdeclaration : Xml.Aside ("<?".toList ++ "xml".toList ++ " version='1.0'".toList ++ "?>".toList) :=
    .instruction (by decide) (by simp [isAsciiSpace]) (by decide)
  have hcomment : Xml.Aside ("<!--".toList ++ " </a> ".toList ++ "-->".toList) := .comment (by decide)
  have hquote : Xml.Numeral 10 ['3', '9'] '\x27'.toNat :=
    @Xml.Numeral.digit 10 ['3'] 3 9 _ (@Xml.Numeral.digit 10 [] 0 3 _ .nil (by decide) (.inl rfl))
      (by decide) (.inl rfl)
  have hgreater : Xml.Numeral 16 ['3', 'e'] '>'.toNat :=
    @Xml.Numeral.digit 16 ['3'] 3 14 _ (@Xml.Numeral.digit 16 [] 0 3 _ .nil (by decide) (.inl rfl))
      (by decide) (.inl rfl)
  have hvalue : Xml.WritesValue '\x27' "x & 'y".toList "x &amp; &#39;y".toList :=
    .cons (.itself rfl) <| .cons (.itself rfl) <| .cons (@Xml.WritesChar.named _ _ "amp" (by decide)) <|
      .cons (.itself rfl) <| .cons (@Xml.WritesChar.decimal _ _ ['3', '9'] (by decide) hquote (by decide)) <|
      .cons (.itself rfl) .nil
  have hattributes : Xml.WritesAttributes [("t", "x & 'y")] " t='x &amp; &#39;y'".toList :=
    @Xml.WritesAttributes.cons _ _ _ [' '] [] [] _ [] _ (by decide) (by decide) (by decide) (by decide)
      (.inl rfl) hvalue (.nil (by decide))
  have hb : Xml.WritesText "1 < <2>>".toList "1 &lt; <![CDATA[<2>]]>&#x3e;".toList :=
    .char (.itself rfl) <| .char (.itself rfl) <| .char (@Xml.WritesChar.named _ _ "lt" (by decide)) <|
      .char (.itself rfl) <| @Xml.WritesText.sectioned "<2>".toList _ _ (by decide) <|
      .char (@Xml.WritesChar.hexadecimal _ _ ['3', 'e'] (by decide) hgreater (by decide)) .nil
  have ht : Xml.WritesText "&lt;".toList "&amp;<!-- </a> -->lt;".toList :=
    .char (@Xml.WritesChar.named _ _ "amp" (by decide)) <| .aside hcomment <| .char (.itself rfl) <|
      .char (.itself rfl) <| .char (.itself rfl) .nil
  have hinner : Xml.WritesContents markedTree.contents
      "<b>1 &lt; <![CDATA[<2>]]>&#x3e;</b><c/>&amp;<!-- </a> -->lt;<c ></c\n>".toList :=
    @Xml.WritesContents.tags "b" [] _ _ [] _ [] _ (.nil (by decide)) (.text hb .nil) (by decide) <|
      @Xml.WritesContents.emptyTag "c" [] _ [] _ (.nil (by decide)) <|
      .text ht <|
      @Xml.WritesContents.tags "c" [] _ _ [' '] _ ['\n'] _ (.nil (by decide)) .nil (by decide) .nil
  have hbefore := Xml.Surroundings.aside hdeclaration (@Xml.Surroundings.space '\n' _ rfl .nil)
  have hroot := @Xml.WritesContents.tags "a" _ _ _ _ _ [] _ hattributes hinner (by decide) .nil
  exact ⟨_, _, [], by decide +kernel, hbefore, hroot, .nil⟩

theorem ofXml_markedTreeText :
    (∀ d ∈ markedTree :: markedTree.descendants, d.IsProper) ∧
      Xml.WritesDocument markedTree markedTreeText.toList ∧
      Element.ofXml markedTreeText = .ok markedTree ∧
      ∀ d ∈ markedTree :: markedTree.descendants, HasSeparateTexts d.contents := by
  have hread := ofXml_inverts_writing.1 markedTree markedTreeText isProper_markedTree
    writesDocument_markedTree
  exact ⟨isProper_markedTree, writesDocument_markedTree, hread,
    ofXml_inverts_writing.2.2 markedTreeText markedTree hread⟩

end WordTex
