import LeasedHeap.Counters
import LeasedHeap.Refusal

/-
  Calls on a collector as sequences of indivisible steps.

  A `Steps` value is a call, or what is left of one: the next
  indivisible operation and, for each answer to it, the rest.
  `Steps.run` carries a call out with nothing in between;
  `Pool` lets several calls take turns.

  Key definitions include:
    * `Notice`
    * `Steps`
    * `Steps.run`
-/

namespace LeasedHeap

------------------------------------------------------------
-- Notices
------------------------------------------------------------

/- What a collector reports while it works. -/
inductive Notice where
/- A lease of some bytes, and the live bytes it was told. -/
| allocated : UInt64 → UInt64 → Notice
/- A lease returned, and the live bytes it left. -/
| released : UInt64 → UInt64 → Notice
/- A request refused. -/
| refused : Refusal → Notice
deriving DecidableEq, Repr

namespace Notice

/- The line of the trace for a notice. -/
def text : Notice → String
| .allocated bytes live =>
    "TRACE heap allocation bytes=" ++ toString bytes ++
      " live=" ++ toString live
| .released bytes live =>
    "TRACE heap release bytes=" ++ toString bytes ++
      " live=" ++ toString live
| .refused r =>
    "DEBUG heap allocation refused requested=" ++
      toString r.requested ++ " live=" ++ toString r.live ++
      " limit=" ++ r.limit.text

end Notice

------------------------------------------------------------
-- Steps
------------------------------------------------------------

/- What is left of a call on a collector. -/
inductive Steps (α : Type) where
| done : α → Steps α
| act : (a : Atomic) → (a.Reply → Steps α) → Steps α
| note : Notice → Steps α → Steps α

namespace Steps

variable {α β : Type}

/- One call after another. -/
def bind
    (s : Steps α)
    (f : α → Steps β) : Steps β :=
  match s with
  | .done a => f a
  | .act op rest => .act op (fun r => (rest r).bind f)
  | .note n rest => .note n (rest.bind f)

instance : Monad Steps where
  pure := .done
  bind := bind

/- A single indivisible operation. -/
def atomic (a : Atomic) : Steps a.Reply :=
  .act a .done

/- A single notice. -/
def report (n : Notice) : Steps Unit :=
  .note n (.done ())

/-
  Carry out a call with nothing in between.  Its notices are
  put on top of the ones given, the newest first.
-/
def run
    (c : Counters)
    (log : List Notice) :
    Steps α → α × Counters × List Notice
| .done a => (a, c, log)
| .act op rest =>
    run (c.act op).2 log (rest (c.act op).1)
| .note n rest => run c (n :: log) rest

------------------------------------------------------------
-- Laws
------------------------------------------------------------

@[simp]
theorem pure_eq
    (a : α) :
    (pure a : Steps α) = .done a :=
  rfl

@[simp]
theorem bind_eq
    (s : Steps α)
    (f : α → Steps β) :
    s >>= f = s.bind f :=
  rfl

/- To run one call after another is to run each in turn. -/
theorem run_bind
    (c : Counters)
    (log : List Notice)
    (s : Steps α)
    (f : α → Steps β) :
    run c log (s.bind f) =
      run (run c log s).2.1 (run c log s).2.2
        (f (run c log s).1) := by
  induction s generalizing c log with
  | done a => rfl
  | act op rest ih => exact ih _ _ _
  | note n rest ih => exact ih _ _

end Steps

end LeasedHeap
