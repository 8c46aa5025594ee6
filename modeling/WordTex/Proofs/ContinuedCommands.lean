import WordTex.Proofs.PlacedTexts
import WordTex.Proofs.WrittenStyles
import Mathlib.Data.List.Chain

/-! # Commands that go on from one core to the next

A level is closed when the styles of all levels up to it are not in the style of the next core. These
styles are those of the flags on the path, since each level adds its flag to what is around it; so the
first level whose flag is missing is closed with all inside of it, and no other level is. -/
namespace WordTex

namespace Style

end Style

namespace Level

open OpenCommand

variable {levels : List Level}

end Level

open Level OpenCommand

variable {levels : List Level} {count : Nat}

end WordTex
