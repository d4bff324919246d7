/-!
Words of 32 bits as four bytes, the lowest byte first.
-/

namespace ComputeKernel.Bytes

def littleEndian (w : UInt32) : List UInt8 :=
  [w.toUInt8, (w >>> 8).toUInt8, (w >>> 16).toUInt8, (w >>> 24).toUInt8]

/-- The word that up to four bytes make. Bytes that are missing count as zeros. -/
def word (bytes : List UInt8) : UInt32 :=
  bytes.foldr (fun b acc => (acc <<< 8) ||| b.toUInt32) 0

@[simp] theorem littleEndian_length (w : UInt32) : (littleEndian w).length = 4 := rfl

end ComputeKernel.Bytes
