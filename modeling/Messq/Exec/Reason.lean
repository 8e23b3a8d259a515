import Messq.Text

/-! # The reason a child leaves on its standard error -/

namespace Messq.Exec

/-- `StderrMode`: which end of a text that is too long is kept. -/
inductive StderrMode
  | headStderr
  | tailStderr
  deriving DecidableEq

def maxReasonBytes : ℕ := 64 <<< 10

/-- `ClampReasonCap`. -/
def clampReasonCap (max : ℤ) : ℕ :=
  if max < 0 then 0 else if max > maxReasonBytes then maxReasonBytes else max.toNat

end Messq.Exec
