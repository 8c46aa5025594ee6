import WordTex.ReadErrors

/-! # Decompression of deflated data

The data is a sequence of bits, the lowest bit of each byte first. It holds blocks of literal bytes
and of copies of earlier output, both written in prefix codes. -/
namespace WordTex

/-- A decompression under way. The position counts bits. -/
structure Inflater where
  input : ByteArray
  position : Nat
  output : ByteArray

abbrev Inflating := StateT Inflater (Except DataFault)

/-- A canonical prefix code: how many codes there are of each length from one up, and the symbols in
the order of their codes. -/
structure PrefixCode where
  counts : List Nat
  symbols : Array Nat

namespace PrefixCode

/-- No code is longer than this. -/
def maxLength : Nat := 15

/-- The code in which each symbol has the length that is listed for it; length zero means none. -/
def ofLengths (lengths : List Nat) : PrefixCode where
  counts := (List.range maxLength).map fun k => lengths.count (k + 1)
  symbols := ((List.range maxLength).flatMap fun k =>
    (lengths.zipIdx.filter (·.1 == k + 1)).map Prod.snd).toArray

/-- Each code takes its share of the space of all codes, and together they fill it. -/
def isComplete (lengths : List Nat) : Bool :=
  let share (l : Nat) := if l = 0 then 0 else 1 <<< (maxLength - l)
  lengths.foldl (fun sum l => sum + share l) 0 == 1 <<< maxLength

/-- Besides the complete codes there may be no symbol at all, or one of length one. -/
def isAdmissible (lengths : List Nat) : Bool :=
  isComplete lengths || [[], [1]].contains (lengths.filter (· ≠ 0))

end PrefixCode

namespace Inflating

def readBit : Inflating Nat := do
  let s ← get
  match s.input[s.position / 8]? with
  | none => throw .truncated
  | some b =>
    set { s with position := s.position + 1 }
    return b.toNat >>> (s.position % 8) % 2

/-- A number of so many bits, the lowest first. -/
def readBits : Nat → Inflating Nat
  | 0 => return 0
  | n + 1 => do
    let low ← readBit
    let high ← readBits n
    return low + 2 * high

/-- Moves on to the next whole byte. -/
def alignToByte : Inflating Unit := modify fun s => { s with position := (s.position + 7) / 8 * 8 }

def writeByte (b : UInt8) : Inflating Unit := modify fun s => { s with output := s.output.push b }

/-- Reads a symbol whose code has no length before the given ones. `code` is what has been read of
it, `first` the first code of this length, and `index` the place of that code among the symbols. -/
def readSymbolFrom (symbols : Array Nat) : List Nat → Nat → Nat → Nat → Inflating Nat
  | [], _, _, _ => throw .damagedCompression
  | count :: counts, code, first, index => do
    let code := 2 * code + (← readBit)
    if code < first + count then
      match symbols[index + (code - first)]? with
      | some symbol => return symbol
      | none => throw .damagedCompression
    else readSymbolFrom symbols counts code (2 * (first + count)) (index + count)

def readSymbol (code : PrefixCode) : Inflating Nat := readSymbolFrom code.symbols code.counts 0 0 0

/-- The least length of a copy and the number of bits to add to it, by symbol. -/
def copyLengths : Array (Nat × Nat) :=
  #[(3, 0), (4, 0), (5, 0), (6, 0), (7, 0), (8, 0), (9, 0), (10, 0), (11, 1), (13, 1), (15, 1),
    (17, 1), (19, 2), (23, 2), (27, 2), (31, 2), (35, 3), (43, 3), (51, 3), (59, 3), (67, 4),
    (83, 4), (99, 4), (115, 4), (131, 5), (163, 5), (195, 5), (227, 5), (258, 0)]

/-- The least distance of a copy and the number of bits to add to it, by symbol. -/
def copyDistances : Array (Nat × Nat) :=
  #[(1, 0), (2, 0), (3, 0), (4, 0), (5, 1), (7, 1), (9, 2), (13, 2), (17, 3), (25, 3), (33, 4),
    (49, 4), (65, 5), (97, 5), (129, 6), (193, 6), (257, 7), (385, 7), (513, 8), (769, 8),
    (1025, 9), (1537, 9), (2049, 10), (3073, 10), (4097, 11), (6145, 11), (8193, 12), (12289, 12),
    (16385, 13), (24577, 13)]

/-- A number that a symbol and the bits after it stand for. -/
def readExtended (table : Array (Nat × Nat)) (symbol : Nat) : Inflating Nat :=
  match table[symbol]? with
  | none => throw .damagedCompression
  | some (least, bits) => do
    let more ← readBits bits
    return least + more

/-- Repeats output byte by byte; a copy may reach into itself. -/
def copy (distance : Nat) : Nat → Inflating Unit
  | 0 => return
  | n + 1 => do
    let s ← get
    if distance > s.output.size then throw .damagedCompression
    match s.output[s.output.size - distance]? with
    | none => throw .damagedCompression
    | some b =>
      writeByte b
      copy distance n

/-- The symbol that ends a block; literal bytes are below it and copies above. -/
def endOfBlock : Nat := 256

/-- Reads literals and copies up to the end of the block. The fuel bounds their number. -/
def readCoded (literals distances : PrefixCode) : Nat → Inflating Unit
  | 0 => throw .truncated
  | fuel + 1 => do
    let symbol ← readSymbol literals
    if symbol < endOfBlock then
      writeByte (UInt8.ofNat symbol)
      readCoded literals distances fuel
    else if symbol = endOfBlock then return
    else
      let length ← readExtended copyLengths (symbol - (endOfBlock + 1))
      let distance ← readExtended copyDistances (← readSymbol distances)
      copy distance length
      readCoded literals distances fuel

/-- The code of literals and lengths in blocks that bring none. -/
def fixedLiterals : PrefixCode :=
  .ofLengths (.replicate 144 8 ++ .replicate 112 9 ++ .replicate 24 7 ++ .replicate 8 8)

/-- The code of distances in blocks that bring none. -/
def fixedDistances : PrefixCode := .ofLengths (.replicate 30 5)

/-- The order in which a block lists the lengths of the code that its other codes are written in. -/
def lengthOrder : List Nat := [16, 17, 18, 0, 8, 7, 9, 6, 10, 5, 11, 4, 12, 3, 13, 2, 14, 1, 15]

/-- Reads so many lengths, of which runs are shortened; the last one read comes first. -/
def readLengths (code : PrefixCode) (wanted : Nat) : Nat → List Nat → Inflating (List Nat)
  | 0, _ => throw .damagedCompression
  | fuel + 1, lengths =>
    if lengths.length = wanted then return lengths.reverse
    else if lengths.length > wanted then throw .damagedCompression
    else do
      let symbol ← readSymbol code
      if symbol < 16 then readLengths code wanted fuel (symbol :: lengths)
      else if symbol = 16 then
        match lengths with
        | [] => throw .damagedCompression
        | last :: _ =>
          let n ← readBits 2
          readLengths code wanted fuel (.replicate (n + 3) last ++ lengths)
      else
        let n ← if symbol = 17 then (· + 3) <$> readBits 3 else (· + 11) <$> readBits 7
        readLengths code wanted fuel (.replicate n 0 ++ lengths)

def codeOf (lengths : List Nat) : Inflating PrefixCode :=
  if PrefixCode.isAdmissible lengths then return .ofLengths lengths else throw .damagedCompression

/-- Reads the codes that a block brings with it. The code in which their lengths are written is
complete. -/
def readCodes : Inflating (PrefixCode × PrefixCode) := do
  let literalCount := (← readBits 5) + 257
  let distanceCount := (← readBits 5) + 1
  let lengthCount := (← readBits 4) + 4
  if literalCount > 286 ∨ distanceCount > 30 then throw .damagedCompression
  let listed ← (lengthOrder.take lengthCount).mapM fun symbol => return (symbol, ← readBits 3)
  let codeLengths := (List.range 19).map fun symbol => (listed.lookup symbol).getD 0
  if !PrefixCode.isComplete codeLengths then throw .damagedCompression
  let wanted := literalCount + distanceCount
  let lengths ← readLengths (.ofLengths codeLengths) wanted (wanted + 1) []
  return (← codeOf (lengths.take literalCount), ← codeOf (lengths.drop literalCount))

def readStored : Nat → Inflating Unit
  | 0 => return
  | n + 1 => do
    writeByte (UInt8.ofNat (← readBits 8))
    readStored n

/-- Reads blocks up to the last one. The fuel bounds their number and that of their symbols. -/
def readBlocks : Nat → Inflating Unit
  | 0 => throw .truncated
  | fuel + 1 => do
    let isLast ← readBit
    match ← readBits 2 with
    | 0 =>
      alignToByte
      let size ← readBits 16
      let complement ← readBits 16
      if size + complement ≠ 0xFFFF then throw .damagedCompression
      readStored size
    | 1 => readCoded fixedLiterals fixedDistances (fuel + 1)
    | 2 =>
      let (literals, distances) ← readCodes
      readCoded literals distances (fuel + 1)
    | _ => throw .damagedCompression
    if isLast = 1 then return else readBlocks fuel

end Inflating

/-- The decompressed data. The last block must be there to its end, and what follows it is ignored. -/
def inflate (input : ByteArray) : Except DataFault ByteArray :=
  (Inflating.readBlocks (8 * input.size + 1)).run ⟨input, 0, .empty⟩ |>.map fun r => r.2.output

end WordTex
