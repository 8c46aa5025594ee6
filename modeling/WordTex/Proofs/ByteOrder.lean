import Mathlib.Data.String.Basic

/-! # The order of texts and of their bytes

UTF-8 keeps the order of code points: a greater character has a greater first byte, or the same one and
then a greater rest. So texts are in the order of their bytes. -/
namespace WordTex

namespace String

end String

end WordTex
