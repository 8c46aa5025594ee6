/-! # Text from bytes in UTF-8 and in code page 437

Both readers take any bytes. -/
namespace WordTex

/-- The characters of code page 437: those of ASCII, then letters, frames and signs. -/
def codePage437 : Array Char :=
  ((List.range 128).map Char.ofNat ++
    ("ÇüéâäàåçêëèïîìÄÅÉæÆôöòûùÿÖÜ¢£¥₧ƒáíóúñÑªº¿⌐¬½¼¡«»░▒▓│┤╡╢╖╕╣║╗╝╜╛┐" ++
      "└┴┬├─┼╞╟╚╔╩╦╠═╬╧╨╤╥╙╘╒╓╫╪┘┌█▄▌▐▀αßΓπΣσµτΦΘΩδ∞φε∩≡±≥≤⌠⌡÷≈°∙·√ⁿ²■\u00a0").toList).toArray

def textOfCodePage437 (bytes : ByteArray) : String :=
  .ofList (bytes.toList.filterMap fun b => codePage437[b.toNat]?)

namespace Utf8

/-- What stands for bytes that are no character. -/
def replacement : Char := '\uFFFD'

/-- How many bytes follow a first byte in the form of a character, and the bounds of the second. -/
def following? (b : UInt8) : Option (Nat × UInt8 × UInt8) :=
  if 0xC2 ≤ b ∧ b ≤ 0xDF then some (1, 0x80, 0xBF)
  else if b = 0xE0 then some (2, 0xA0, 0xBF)
  else if b = 0xED then some (2, 0x80, 0x9F)
  else if 0xE1 ≤ b ∧ b ≤ 0xEF then some (2, 0x80, 0xBF)
  else if b = 0xF0 then some (3, 0x90, 0xBF)
  else if 0xF1 ≤ b ∧ b ≤ 0xF3 then some (3, 0x80, 0xBF)
  else if b = 0xF4 then some (3, 0x80, 0x8F)
  else none

def isFollowing (b : UInt8) : Bool := 0x80 ≤ b && b ≤ 0xBF

/-- Of the bytes after a first byte, those that belong to it: as many as can begin a character. -/
def belonging (wanted : Nat) (low high : UInt8) : List UInt8 → List UInt8
  | [] => []
  | b :: bs => if low ≤ b ∧ b ≤ high then b :: (bs.take (wanted - 1)).takeWhile isFollowing else []

/-- The character of a first byte and all those that follow it. -/
def character (first : UInt8) (rest : List UInt8) : Char :=
  .ofNat (rest.foldl (fun n b => 64 * n + b.toNat % 64) (first.toNat % (1 <<< (6 - rest.length))))

/-- The longest bytes that begin a character without being one have one replacement. -/
def decode : List UInt8 → List Char
  | [] => []
  | b :: bs =>
    if b < 0x80 then Char.ofNat b.toNat :: decode bs
    else
      match following? b with
      | none => replacement :: decode bs
      | some (wanted, low, high) =>
        let rest := belonging wanted low high bs
        (if rest.length = wanted then character b rest else replacement) ::
          decode (bs.drop rest.length)
termination_by bs => bs.length
decreasing_by
  · simp
  · simp
  · simp only [List.length_drop, List.length_cons]
    omega

end Utf8

def textOfUtf8 (bytes : ByteArray) : String := .ofList (Utf8.decode bytes.toList)

end WordTex
