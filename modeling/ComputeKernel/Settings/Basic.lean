/-!
Settings of a rendered program.
-/

namespace ComputeKernel

structure Settings where
  entryPoint : String := "CSMain"
  /-- Threads of a group in each dimension. -/
  groupX : Nat := 64
  groupY : Nat := 1
  groupZ : Nat := 1
  /-- How many elements each constant buffer is declared with. -/
  constantBufferCapacity : Nat := 1024
  deriving DecidableEq, Repr, Inhabited

namespace Settings

def withGroup (s : Settings) (x y z : Nat) : Settings :=
  { s with groupX := x, groupY := y, groupZ := z }

end Settings

end ComputeKernel
