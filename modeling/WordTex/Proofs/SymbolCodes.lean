import WordTex.Proofs.ReadMarkup
import WordTex.SymbolFonts

/-! # The codes of symbols

The code of a symbol is a hexadecimal number. The private use area begins far below the bound of the
numbers that are read, and the fonts have few glyphs, so the bound itself decides nothing. One plus sign
in front of the number is read as if it were not there. -/
namespace WordTex

namespace Xml

theorem digitChar_of_digit? : ∀ n < 128, ∀ v ∈ digit? 16 (Char.ofNat n),
    v < 16 ∧ (Char.ofNat n = v.digitChar ∨ Char.ofNat n = v.digitChar.toUpper) := by
  decide +kernel

theorem toNat_lt_of_digit? {base v : Nat} {c : Char} (h : digit? base c = some v) : c.toNat < 128 := by
  have hle : ∀ d : Char, c ≤ d → c.toNat ≤ d.toNat := fun d hd => hd
  have hz := hle 'z'
  have hZ := hle 'Z'
  have h9 := hle '9'
  by_contra hnot
  have hdigit : ¬ ('0' ≤ c ∧ c ≤ '9') := fun hc => hnot (lt_of_le_of_lt (h9 hc.2) (by decide))
  have hlower : ¬ ('a' ≤ c ∧ c ≤ 'z') := fun hc => hnot (lt_of_le_of_lt (hz hc.2) (by decide))
  have hupper : ¬ ('A' ≤ c ∧ c ≤ 'Z') := fun hc => hnot (lt_of_le_of_lt (hZ hc.2) (by decide))
  simp [digit?, hdigit, hlower, hupper] at h

/-- The digits that are read are those of numerals. -/
theorem hexDigit_of_digit? {c : Char} {v : Nat} (h : digit? 16 c = some v) :
    v < 16 ∧ (c = v.digitChar ∨ c = v.digitChar.toUpper) := by
  have hall := digitChar_of_digit? c.toNat (toNat_lt_of_digit? h)
  rw [Char.ofNat_toNat] at hall
  exact hall v h

theorem numeral_of_foldlM {ds : List Char} {n : Nat}
    (h : ds.foldlM (fun n d => (digit? 16 d).map (16 * n + ·)) 0 = some n) : Numeral 16 ds n := by
  induction ds using List.reverseRecOn generalizing n with
  | nil =>
    obtain rfl : 0 = n := Option.some.inj h
    exact .nil
  | append_singleton ds d ih =>
    rw [List.foldlM_append] at h
    obtain ⟨m, hm, hd⟩ := Option.bind_eq_some_iff.mp h
    obtain ⟨v, hv, rfl⟩ : ∃ v, digit? 16 d = some v ∧ 16 * m + v = n := by simpa using hd
    obtain ⟨hlt, hchar⟩ := hexDigit_of_digit? hv
    exact .digit (ih hm) hlt hchar

theorem number?_eq_some_iff {s : List Char} {v : Nat} :
    number? 16 s = some v ↔ s ≠ [] ∧ Numeral 16 s v := by
  constructor
  · intro h
    cases s with
    | nil => simp [number?] at h
    | cons c s => exact ⟨List.cons_ne_nil c s, numeral_of_foldlM h⟩
  · rintro ⟨hne, h⟩
    exact h.number? (by decide) hne

theorem not_numeral_plus {ds : List Char} {v : Nat} : ¬ Numeral 16 ('+' :: ds) v := by
  intro h
  have hplus := h.isSome_digit? (by decide) '+' List.mem_cons_self
  simp [digit?] at hplus

/-- A bounded number is a numeral, or one behind a plus sign. -/
theorem boundedNumber?_eq_some_iff {bound v : Nat} {s : List Char} :
    boundedNumber? 16 bound s = some v ↔
      ∃ ds, (s = ds ∨ s = '+' :: ds) ∧ ds ≠ [] ∧ Numeral 16 ds v ∧ v < bound := by
  have hnumber : ∀ ds, (number? 16 ds).filter (· < bound) = some v ↔
      ds ≠ [] ∧ Numeral 16 ds v ∧ v < bound := by
    intro ds
    rw [Option.filter_eq_some_iff, number?_eq_some_iff, decide_eq_true_iff, and_assoc]
  rw [boundedNumber?.eq_def]
  split
  case h_1 ds =>
    rw [hnumber]
    constructor
    · exact fun h => ⟨ds, .inr rfl, h⟩
    · rintro ⟨ds', rfl | heq, hne, h, hv⟩
      · exact (not_numeral_plus h).elim
      · obtain rfl := (List.cons.inj heq).2
        exact ⟨hne, h, hv⟩
  case h_2 ds hplus =>
    rw [hnumber]
    constructor
    · exact fun h => ⟨s, .inl rfl, h⟩
    · rintro ⟨ds', rfl | rfl, h⟩
      · exact h
      · exact (hplus ds' rfl).elim

end Xml

namespace SymbolFont

def name : SymbolFont → String
  | symbol => "Symbol"
  | wingdings => "Wingdings"

theorem ofName?_eq_some_iff {s : String} {f : SymbolFont} : ofName? s = some f ↔ s = f.name := by
  constructor
  · intro h
    rw [ofName?.eq_def] at h
    split at h
    · obtain rfl := Option.some.inj h
      rfl
    · obtain rfl := Option.some.inj h
      rfl
    · simp at h
  · rintro rfl
    cases f <;> rfl

theorem ends_of_mem_runs : ∀ f : SymbolFont, ∀ r ∈ f.runs, r.first + r.glyphs.length ≤ 256 := by
  intro f
  cases f <;> decide +kernel

/-- The codes of a font are bytes. -/
theorem lt_of_glyph? {f : SymbolFont} {code : Nat} {glyph : String} (h : f.glyph? code = some glyph) :
    code < 256 := by
  obtain ⟨r, hr, hglyph⟩ := List.exists_of_findSome?_eq_some h
  rw [GlyphRun.glyph?] at hglyph
  split at hglyph
  · have hlt := (List.getElem?_eq_some_iff.mp hglyph).1
    have hend := ends_of_mem_runs f r hr
    omega
  · simp at hglyph

end SymbolFont

/-- The digits are the number of a glyph in a font of this name, in the private use area. -/
def CodesGlyph (font : Option String) (digits : List Char) (glyph : String) : Prop :=
  ∃ (f : SymbolFont) (v : Nat), font = some f.name ∧ digits ≠ [] ∧ Xml.Numeral 16 digits v ∧
    0xF000 ≤ v ∧ f.glyph? (v - 0xF000) = some glyph

theorem symbolText?_eq_some_iff {font : Option String} {code glyph : String} :
    symbolText? font code = some glyph ↔
      ∃ ds, (code.toList = ds ∨ code.toList = '+' :: ds) ∧ CodesGlyph font ds glyph := by
  constructor
  · intro h
    obtain ⟨name, rfl, hname⟩ := Option.bind_eq_some_iff.mp h
    obtain ⟨f, hf, hfont⟩ := Option.bind_eq_some_iff.mp hname
    obtain ⟨v, hv, hglyph⟩ := Option.bind_eq_some_iff.mp hfont
    obtain rfl := SymbolFont.ofName?_eq_some_iff.mp hf
    obtain ⟨ds, hds, hne, hnumeral, -⟩ := Xml.boundedNumber?_eq_some_iff.mp hv
    by_cases hle : privateUseOffset ≤ v
    · rw [if_pos hle] at hglyph
      exact ⟨ds, hds, f, v, rfl, hne, hnumeral, hle, hglyph⟩
    · simp [hle] at hglyph
  · rintro ⟨ds, hds, f, v, rfl, hne, hnumeral, hle, h⟩
    have hlt := SymbolFont.lt_of_glyph? h
    have hv : boundedNumber? 16 0x100000000 code.toList = some v :=
      Xml.boundedNumber?_eq_some_iff.mpr ⟨ds, hds, hne, hnumeral, by omega⟩
    have hf : SymbolFont.ofName? f.name = some f := SymbolFont.ofName?_eq_some_iff.mpr rfl
    simp [symbolText?, hf, hv, privateUseOffset, hle, h]

/-- A symbol has a text exactly when its font has a table and its code is one or more hexadecimal digits,
behind a plus sign or not, that stand for the number of a glyph; the text is that glyph. Otherwise the
code is written as it is, whatever it is and however great. -/
theorem symbol_of_numeral (font : Option String) (code : String) :
    (∀ glyph, symbolText? font code = some glyph ↔
      CodesGlyph font code.toList glyph ∨ ∃ ds, code.toList = '+' :: ds ∧ CodesGlyph font ds glyph) ∧
    ((symbolText? font code = none ∧ symbolText font code = code) ∨
      ∃ glyph, symbolText? font code = some glyph ∧ symbolText font code = glyph) := by
  constructor
  · intro glyph
    rw [symbolText?_eq_some_iff]
    constructor
    · rintro ⟨ds, rfl | hplus, h⟩
      · exact .inl h
      · exact .inr ⟨ds, hplus, h⟩
    · rintro (h | ⟨ds, hplus, h⟩)
      · exact ⟨_, .inl rfl, h⟩
      · exact ⟨ds, .inr hplus, h⟩
  · cases h : symbolText? font code with
    | none => exact .inl ⟨rfl, by simp [symbolText, h]⟩
    | some glyph => exact .inr ⟨glyph, rfl, by simp [symbolText, h]⟩

/-- A plus sign is no digit, and yet the code has a glyph. -/
theorem plus_sign_in_symbol_code :
    ¬ ∀ font code glyph, symbolText? font code = some glyph ↔ CodesGlyph font code.toList glyph := by
  intro h
  obtain ⟨f, v, -, -, hnumeral, -⟩ := (h (some "Symbol") "+F061" "α").mp (by decide +kernel)
  exact Xml.not_numeral_plus hnumeral

end WordTex
