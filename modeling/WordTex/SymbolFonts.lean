import WordTex.DigitText

/-! # Fonts whose letters are symbols

A character of such a font is written as its code in the font, moved into the private use area. -/
namespace WordTex

inductive SymbolFont where
  | symbol
  | wingdings
deriving DecidableEq, Repr

/-- The texts that stand for the glyphs of consecutive codes, from the first code on. -/
structure GlyphRun where
  first : Nat
  glyphs : List String
deriving Repr

namespace GlyphRun

/-- A run of glyphs with one character each. -/
def ofCharacters (first : Nat) (glyphs : String) : GlyphRun :=
  ⟨first, glyphs.toList.map fun c => .ofList [c]⟩

def glyph? (r : GlyphRun) (code : Nat) : Option String :=
  if r.first ≤ code then r.glyphs[code - r.first]? else none

end GlyphRun

namespace SymbolFont

def ofName? : String → Option SymbolFont
  | "Symbol" => some symbol
  | "Wingdings" => some wingdings
  | _ => none

/-- The Symbol font: Greek letters and the signs of mathematics. -/
def symbolGlyphs : List GlyphRun :=
  [.ofCharacters 33 "!∀#∃%&∍()*+,-./0123456789:;<=>?",
    .ofCharacters 64 "≅ΑΒΧΔΕΦΓΗΙϑΚΛΜΝΟΠΘΡΣΤΥςΩΞΨΖ[∴]⊥_",
    .ofCharacters 96 "\uf8e5αβχδεφγηιϕκλμνοπθρστυϖωξψζ\x7b|\x7d~.",
    .ofCharacters 160 "€ϒʹ≤⁄∞ƒ♣♦♥♠↔←↑→↓°±ʺ≥×∝∂•÷≠≡≈…⏐⎯↵",
    .ofCharacters 192 "ℵℑℜ℘⊗⊕∅∩∪⊃⊇⊄⊂⊆∈∉∠∇®©™∏√⋅¬∧∨⇔⇐⇑⇒⇓", .ofCharacters 224 "◊〈®©™∑⎛⎜⎝⎡⎢⎣⎧⎨⎩⎪",
    .ofCharacters 241 "〉∫⌠⎮⌡⎞⎟⎠⎤⎥⎦⎫⎬⎭"]

/-- The Wingdings font: pictures, of which those without a character are described. -/
def wingdingsGlyphs : List GlyphRun :=
  [⟨33,
      ["✏", "✂", "✁", "👓", "🔔", "📖", "(Candle – no equivalent)", "☎", "✆", "✉",
        "(Envelope with address and stamp – no equivalent)", "📪", "📫", "📬", "📭", "📁", "📂", "📄",
        "(Printed page – no equivalent)", "(Stack of printed pages – no equivalent)",
        "(Filing cabinet – no equivalent)", "⌛", "⌨", "(Mouse – no equivalent)",
        "(Trackball – no equivalent)", "💻", "(Hard disk – no equivalent)", "💾",
        "(5¼\" Floppy disk – no equivalent)", "✇", "✍"]⟩,
    ⟨64,
      ["(Writing left hand – no equivalent)", "✌", "👌", "👍", "👎", "☜", "☞", "☝", "☟", "✋", "☺",
        "😐", "☹", "💣", "☠", "⚐", "🚩", "✈", "☼", "💧", "❄", "(White Latin cross – no equivalent)",
        "✞", "(Celtic cross – no equivalent)", "✠", "✡", "☪", "☯", "ॐ", "☸", "♈", "♉"]⟩,
    ⟨96,
      ["♊", "♋", "♌", "♍", "♎", "♏", "♐", "♑", "♒", "♓", "&", "&", "●", "❍", "■", "□",
        "(Bold white square – no equivalent)", "❑", "❒", "⬧", "⧫", "◆", "❖", "⬥", "⌧", "⍓", "⌘",
        "❀", "✿", "❝", "❞", "▯"]⟩,
    ⟨128,
      ["⓪", "①", "②", "③", "④", "⑤", "⑥", "⑦", "⑧", "⑨", "⑩", "⓿", "❶", "❷", "❸", "❹", "❺", "❻",
        "❼", "❽", "❾", "❿", "(Bud and leaf north east – no equivalent)",
        "(Bud and leaf north west – no equivalent)", "(Bud and leaf south west – no equivalent)",
        "(Bud and leaf south east – no equivalent)",
        "(Bold vine leaf north east – no equivalent)",
        "(Bold vine leaf north west – no equivalent)",
        "(Bold vine leaf south west – no equivalent)",
        "(Bold vine leaf south east – no equivalent)", "·", "•"]⟩,
    ⟨160,
      ["▪", "○", "⭕", "(Extra bold white circle – no equivalent)", "◉", "◎",
        "(Upper right shadowed white circle – no equivalent)", "▪", "◻",
        "(Black three pointed star – no equivalent)", "✦", "★", "✶", "✴", "✹", "✵",
        "(Square register mark – no equivalent)", "⌖", "⟡", "⌑",
        "(Question mark in white diamond – no equivalent)", "✪", "✰", "🕐", "🕑", "🕒", "🕓", "🕕",
        "🕕", "🕖", "🕘", "🕘"]⟩,
    ⟨192,
      ["🕙", "🕚", "🕛", "(White arrow pointing downwards then curving leftwards – no equivalent)",
        "(White arrow pointing downwards then curving rightwards – no equivalent)",
        "(White arrow pointing upwards then curving leftwards – no equivalent)",
        "(White arrow pointing upwards then curving rightwards – no equivalent)",
        "(White arrow pointing leftwards then curving upwards – no equivalent)",
        "(White arrow pointing rightwards then curving upwards – no equivalent)",
        "(White arrow pointing leftwards then curving downwards – no equivalent)",
        "(White arrow pointing rightwards then curving downwards – no equivalent)",
        "(Quilt square 2 – no equivalent)", "(Black quilt square 2 – no equivalent)",
        "(Leaf counterclockwise south west – no equivalent)",
        "(Leaf counterclockwise north west – no equivalent)",
        "(Leaf counterclockwise south east – no equivalent)",
        "(Leaf counterclockwise north east – no equivalent)", "(Leaf north west – no equivalent)",
        "(Leaf south west – no equivalent)", "(Leaf north east – no equivalent)",
        "(Leaf south east – no equivalent)", "⌫", "⌦",
        "(Three-D top-lighted leftwards arrowhead – no equivalent)", "➢",
        "(Three-D right-lighted upwards arrowhead – no equivalent)",
        "(Three-D left-lighted downwards arrowhead – no equivalent)",
        "(Circled heavy white leftwards arrow – no equivalent)", "➲",
        "(Circled heavy white upwards arrow – no equivalent)",
        "(Circled heavy white downwards arrow – no equivalent)", "⇦"]⟩,
    ⟨224,
      ["⇨", "⇧", "⇩", "(Wide-headed north west arrow – no equivalent)",
        "(Wide-headed north east arrow – no equivalent)",
        "(Wide-headed south west arrow – no equivalent)",
        "(Wide-headed south east arrow – no equivalent)", "⬅", "➔", "⬆", "⬇",
        "(Heavy wide-headed north west arrow – no equivalent)",
        "(Heavy wide-headed north east arrow – no equivalent)",
        "(Heavy wide-headed south west arrow – no equivalent)",
        "(Heavy wide-headed south east arrow – no equivalent)", "⇦", "⇨", "⇧", "⇩", "⬄", "⇳", "⬀",
        "⬁", "⬃", "⬂", "▭", "▫", "✗", "✓", "☒", "☑", "(Windows logo – no equivalent)"]⟩]

def runs : SymbolFont → List GlyphRun
  | symbol => symbolGlyphs
  | wingdings => wingdingsGlyphs

def glyph? (font : SymbolFont) (code : Nat) : Option String :=
  font.runs.findSome? (·.glyph? code)

end SymbolFont

/-- Where the private use area holds the codes of symbol fonts. -/
def privateUseOffset : Nat := 0xF000

/-- The text of a symbol from the name of its font and its hexadecimal code. -/
def symbolText? (font : Option String) (code : String) : Option String := do
  let font ← SymbolFont.ofName? (← font)
  let value ← boundedNumber? 16 0x100000000 code.toList
  if privateUseOffset ≤ value then font.glyph? (value - privateUseOffset) else none

/-- A symbol without a text is written as its code. -/
def symbolText (font : Option String) (code : String) : String :=
  (symbolText? font code).getD code

end WordTex
