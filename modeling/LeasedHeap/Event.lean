import LeasedHeap.Collector
import LeasedHeap.Steps

/-
  The trace: what collectors report and where closures are
  applied.
-/

namespace LeasedHeap

/- One entry of the trace. -/
inductive Event where
/- A notice of one collector. -/
| heap : CollectorId → Notice → Event
/- An application begins: arity, and number of arguments. -/
| enter : Nat → Nat → Event
/- An application was refused: expected and found. -/
| mismatch : Nat → Nat → Event
/- The innermost application that is open ends. -/
| exit : Event
deriving DecidableEq, Repr

namespace Event

/- The line of the trace for an event. -/
def text : Event → String
| .heap _ n => n.text
| .enter arity args =>
    "ENTER TRACE apply arity=" ++ toString arity ++
      " args=" ++ toString args
| .mismatch expected found =>
    "DEBUG closure arity mismatch expected=" ++
      toString expected ++ " found=" ++ toString found
| .exit => "EXIT"

end Event

end LeasedHeap
