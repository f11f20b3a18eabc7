import LeasedHeap.Program

/-
  Running programs.

  A closure is applied by running the program that its code's
  body stands for, so applications nest.  `Program.exec` runs
  a program given a way to apply closures; `World.applyWithin`
  applies a closure when applications may nest so deep below
  it and no deeper.  Nothing at all is told of a run that
  would nest deeper.

  Key definitions include:
    * `Invocation`
    * `Behaves`
    * `Program.exec`
    * `World.applyClosure`
    * `World.applyWithin`
    * `World.run`
-/

namespace LeasedHeap

------------------------------------------------------------
-- Codes
------------------------------------------------------------

/-
  What the body of a code is given: the environment of the
  closure, the arguments, what the code captured, and the
  number of the run.
-/
structure Invocation where
  environment : List Value
  arguments : List Value
  values : List Value
  codes : List ObjectId
  run : Nat

/- The programs that bodies stand for. -/
abbrev Behaves (κ : Type) :=
  κ → Invocation → Program κ Outcome

/-
  A way to apply values: no answer if applications nest too
  deep, nothing if the value is no closure.
-/
abbrev Applies (κ : Type) :=
  Value → List Value → World κ →
    Option (Option Outcome × World κ)

------------------------------------------------------------
-- Programs
------------------------------------------------------------

namespace Program

variable {κ : Type}

/- Run a program, given a way to apply values. -/
def exec
    (applies : Applies κ)
    {α : Type} :
    Program κ α → World κ → Option (α × World κ)
| .done a, w => some (a, w)
| .ask q rest, w => exec applies (rest (w.answer q)) w
| .act a rest, w =>
    let (r, w) := w.act a
    exec applies (rest r) w
| .array c s hint owned items rest, w =>
    match w.openArray c s hint with
    | (.error r, w) =>
        exec applies (rest (.error r))
          (w.dropAll (owned ++ s.ownHandles))
    | (.ok hinted, w) =>
        match exec applies items w with
        | none => none
        | some (xs, w) =>
            let (r, w) := w.closeArray c s hinted xs
            exec applies (rest r) w
| .apply f args rest, w =>
    match applies f args w with
    | none => none
    | some (r, w) => exec applies (rest r) w

/- To run one program after another is to run each in turn. -/
theorem exec_bind
    (applies : Applies κ)
    {α β : Type}
    (p : Program κ α)
    (f : α → Program κ β)
    (w : World κ) :
    exec applies (p.bind f) w =
      match exec applies p w with
      | none => none
      | some (a, w) => exec applies (f a) w := by
  induction p generalizing w with
  | done a => rfl
  | ask q rest ih => exact ih _ f _
  | act a rest ih => exact ih _ f _
  | array c s hint owned items rest ihItems ih =>
      simp only [bind, exec]
      split
      · exact ih _ f _
      · split
        · rfl
        · exact ih _ f _
  | apply v args rest ih =>
      simp only [bind, exec]
      split
      · rfl
      · exact ih _ f _

end Program

------------------------------------------------------------
-- Applications
------------------------------------------------------------

namespace World

variable {κ α : Type}

/-
  Apply a closure, given a way to run programs.  The code is
  run only if there are as many arguments as the environment
  has items, and its outcome is the outcome.
-/
def applyClosure
    (behaves : Behaves κ)
    (runs :
      Program κ Outcome → World κ →
        Option (Outcome × World κ)) :
    Applies κ
| .closure c, args, w =>
    match w.heap.elements? c.environment,
        w.heap.code? c.code with
    | some env, some code =>
        let w := w.record (.enter env.length args.length)
        if args.length = env.length then
          let w := w.countRun c.code
          let invocation : Invocation :=
            ⟨env, args, code.values, code.codes,
              code.runs + 1⟩
          match runs (behaves code.body invocation) w with
          | none => none
          | some (r, w) => some (some r, w.record .exit)
        else
          let w := w.record (.mismatch env.length args.length)
          some
            (some (.error
              (.arityMismatch env.length args.length)),
              w.record .exit)
    | _, _ => some (none, w)
| _, _, w => some (none, w)

/- Apply a value, with at most so many applications nested. -/
def applyWithin
    (behaves : Behaves κ) : Nat → Applies κ
| 0 => fun _ _ _ => none
| n + 1 =>
    applyClosure behaves (Program.exec (applyWithin behaves n))

/- Run a program, with at most so many applications nested. -/
def run
    (behaves : Behaves κ)
    (depth : Nat)
    (p : Program κ α)
    (w : World κ) : Option (α × World κ) :=
  p.exec (applyWithin behaves depth) w

end World

end LeasedHeap
