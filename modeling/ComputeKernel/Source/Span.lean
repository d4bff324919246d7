/-!
Byte ranges of a closure's source text. Offsets count bytes of the text in UTF-8. The ranges of the
nodes of a closure tell its nodes apart, which is why resolutions and types are kept by range.
-/

namespace ComputeKernel

/-- The bytes from `start` up to, and without, `stop`. -/
structure Span where
  start : Nat
  stop : Nat
  deriving DecidableEq, Repr, Inhabited

namespace Span

/-- The least range that covers both. -/
def merge (a b : Span) : Span := ⟨min a.start b.start, max a.stop b.stop⟩

def length (s : Span) : Nat := s.stop - s.start

def shift (offset : Nat) (s : Span) : Span := ⟨offset + s.start, offset + s.stop⟩

/-- One range that covers all, the empty range at the start of the text if there are none. -/
def mergeAll : List Span → Span
  | [] => ⟨0, 0⟩
  | s :: rest => rest.foldl merge s

@[simp] theorem merge_self (a : Span) : a.merge a = a := by simp [merge]

@[simp] theorem merge_start (a b : Span) : (a.merge b).start = min a.start b.start := rfl

@[simp] theorem merge_stop (a b : Span) : (a.merge b).stop = max a.stop b.stop := rfl

end Span

/-- The length of a text in bytes of UTF-8. -/
def byteLength (cs : List Char) : Nat := cs.foldr (fun c n => c.utf8Size + n) 0

@[simp] theorem byteLength_nil : byteLength [] = 0 := rfl

@[simp] theorem byteLength_cons (c : Char) (cs : List Char) :
    byteLength (c :: cs) = c.utf8Size + byteLength cs := by simp [byteLength]

@[simp] theorem byteLength_append (as bs : List Char) :
    byteLength (as ++ bs) = byteLength as + byteLength bs := by
  induction as with
  | nil => simp
  | cons c cs ih => simp [ih, Nat.add_assoc]

end ComputeKernel
