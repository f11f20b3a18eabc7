import LeasedHeap.Refusal

/-
  The ways in which an application fails.
-/

namespace LeasedHeap

/- Why an application has no value. -/
inductive ApplyError where
/- The number of arguments: expected, and found. -/
| arityMismatch : Nat → Nat → ApplyError
/- A collector refused. -/
| outOfMemory : Refusal → ApplyError
/- The code gave up, and says why. -/
| raised : String → ApplyError
deriving DecidableEq, Repr

namespace ApplyError

/- The error in words. -/
def message : ApplyError → String
| .arityMismatch expected found =>
    "arity mismatch: closure expects " ++ toString expected ++
      " argument(s), got " ++ toString found
| .outOfMemory r => r.message
| .raised text => "closure code failed: " ++ text

/- A refusal as an error of an application, spelled out. -/
def debugRefusal (r : Refusal) : String :=
  "OutOfMemory(" ++ r.debug ++ ")"

/- The error below this one. -/
def source? : ApplyError → Option String
| .raised text => some text
| _ => none

/- The arguments were too few or too many. -/
def isArityMismatch : ApplyError → Bool
| .arityMismatch _ _ => true
| _ => false

end ApplyError

end LeasedHeap
