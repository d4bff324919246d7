import ComputeKernel.Bytes.Word

/-!
BLAKE3, the hash of 256 bits without a key. The input is cut into chunks of 1024 bytes and these into
blocks of 64. The blocks of a chunk are compressed one into the next; the chunks are the leaves of a
binary tree in which the left part of a node has the largest power of two of chunks that leaves
something for the right.
-/

namespace ComputeKernel.Digest.Blake3

/-- The words that chaining begins with. -/
def initial : Vector UInt32 8 :=
  #v[0x6a09e667, 0xbb67ae85, 0x3c6ef372, 0xa54ff53a, 0x510e527f, 0x9b05688c, 0x1f83d9ab,
    0x5be0cd19]

/-! Marks of a compression. -/

def chunkStart : UInt32 := 1

def chunkEnd : UInt32 := 2

def parent : UInt32 := 4

def root : UInt32 := 8

/-- The order in which a round takes the message words that the round before left. -/
def schedule : Vector (Fin 16) 16 := #v[2, 6, 3, 10, 7, 0, 4, 13, 1, 11, 12, 5, 9, 14, 15, 8]

def rotateRight (x n : UInt32) : UInt32 := (x >>> n) ||| (x <<< (32 - n))

/-- Mixes two message words into four words of the state. -/
def mix (s : Vector UInt32 16) (a b c d : Fin 16) (x y : UInt32) : Vector UInt32 16 :=
  let va := s[a] + s[b] + x
  let vd := rotateRight (s[d] ^^^ va) 16
  let vc := s[c] + vd
  let vb := rotateRight (s[b] ^^^ vc) 12
  let va := va + vb + y
  let vd := rotateRight (vd ^^^ va) 8
  let vc := vc + vd
  let vb := rotateRight (vb ^^^ vc) 7
  (((s.set a va).set b vb).set c vc).set d vd

/-- One round: the columns of the state, then its diagonals. -/
def round (s m : Vector UInt32 16) : Vector UInt32 16 :=
  let s := mix s 0 4 8 12 m[0] m[1]
  let s := mix s 1 5 9 13 m[2] m[3]
  let s := mix s 2 6 10 14 m[4] m[5]
  let s := mix s 3 7 11 15 m[6] m[7]
  let s := mix s 0 5 10 15 m[8] m[9]
  let s := mix s 1 6 11 12 m[10] m[11]
  let s := mix s 2 7 8 13 m[12] m[13]
  mix s 3 4 9 14 m[14] m[15]

def permute (m : Vector UInt32 16) : Vector UInt32 16 := schedule.map fun i => m[i]

/-- The rounds of a compression, with the message words in another order each time. -/
def rounds : Nat → Vector UInt32 16 → Vector UInt32 16 → Vector UInt32 16
  | 0, s, _ => s
  | n + 1, s, m => rounds n (round s m) (permute m)

/-- The words that a compression of sixteen message words chains on. -/
def compress (chaining : Vector UInt32 8) (message : Vector UInt32 16) (counter : Nat)
    (length flags : UInt32) : Vector UInt32 8 :=
  let start : Vector UInt32 16 :=
    chaining ++
      #v[initial[0], initial[1], initial[2], initial[3], UInt32.ofNat counter,
        UInt32.ofNat (counter / 0x100000000), length, flags]
  let s := rounds 7 start message
  Vector.ofFn fun i => s[i.val] ^^^ s[i.val + 8]

/-! ### Chunks -/

/-- The sixteen words of a block. Bytes behind its end count as zeros, which add nothing. -/
def blockWords (block : List UInt8) : Vector UInt32 16 :=
  Vector.ofFn fun i => Bytes.word ((block.drop (4 * i.val)).take 4)

/-- The pieces of `size` elements that a list is cut into, at most `limit` of them. -/
def cut {α : Type} (size : Nat) : Nat → List α → List (List α)
  | 0, _ => []
  | limit + 1, xs =>
    if xs.isEmpty then [] else xs.take size :: cut size limit (xs.drop size)

/-- The pieces of a list, of which an empty list has one. -/
def cutAll {α : Type} (size : Nat) (xs : List α) : List (List α) :=
  if xs.isEmpty then [[]] else cut size xs.length xs

/-- Chains the blocks of a chunk. `extra` marks the last block. -/
def chain (counter : Nat) (extra start : UInt32) (chaining : Vector UInt32 8) :
    List (List UInt8) → Vector UInt32 8
  | [] => chaining
  | [block] =>
    compress chaining (blockWords block) counter (UInt32.ofNat block.length)
      (start ||| chunkEnd ||| extra)
  | block :: blocks =>
    chain counter extra 0
      (compress chaining (blockWords block) counter (UInt32.ofNat block.length) start) blocks

/-- The value of a chunk. `extra` is the mark of the root, if the chunk is the whole input. -/
def chunkValue (counter : Nat) (extra : UInt32) (chunk : List UInt8) : Vector UInt32 8 :=
  chain counter extra chunkStart initial (cutAll 64 chunk)

/-! ### The tree -/

/-- The largest power of two below `n`, among the first `limit` powers from `power` on. -/
def powerBelow (n power : Nat) : Nat → Nat
  | 0 => power
  | limit + 1 => if 2 * power < n then powerBelow n (2 * power) limit else power

/-- The value of a tree over chunks of which the first has the number `counter`. A tree of `n` chunks
is at most `n` high. -/
def treeValue (height counter : Nat) (extra : UInt32) (chunks : List (List UInt8)) :
    Vector UInt32 8 :=
  match height, chunks with
  | _, [] => initial
  | _, [chunk] => chunkValue counter extra chunk
  | 0, chunk :: _ => chunkValue counter extra chunk
  | height + 1, chunks =>
    let left := powerBelow chunks.length 1 chunks.length
    let l := treeValue height counter 0 (chunks.take left)
    let r := treeValue height (counter + left) 0 (chunks.drop left)
    compress initial (l ++ r) 0 64 (parent ||| extra)

/-- The hash of a list of bytes. -/
def hash (bytes : List UInt8) : List UInt8 :=
  let chunks := cutAll 1024 bytes
  (treeValue chunks.length 0 root chunks).toList.flatMap Bytes.littleEndian

end ComputeKernel.Digest.Blake3
