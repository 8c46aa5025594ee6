/-! # The cyclic redundancy check of archives -/
namespace WordTex
namespace Checksum

/-- Division by the polynomial of the check, one bit further; the lowest bit comes first. -/
def step (r : UInt32) : UInt32 :=
  if r &&& 1 = 1 then (r >>> 1) ^^^ 0xEDB88320 else r >>> 1

def addByte (r : UInt32) (b : UInt8) : UInt32 :=
  step (step (step (step (step (step (step (step (r ^^^ b.toUInt32))))))))

end Checksum

def crc32 (bytes : ByteArray) : UInt32 :=
  bytes.foldl Checksum.addByte 0xFFFFFFFF ^^^ 0xFFFFFFFF

end WordTex
