import LeasedHeap.Run
import LeasedHeap.Sequence

/-
  The codes that a session can make.

  Key definitions include:
    * `Behaviour`
    * `Behaviour.program`
-/

namespace LeasedHeap

------------------------------------------------------------
-- Behaviours
------------------------------------------------------------

/- What the body of a code does. -/
inductive Behaviour where
/- The first argument, or zero. -/
| firstArgument : Behaviour
/- The captured value. -/
| constant : Behaviour
/- The number of variables and arguments. -/
| count : Behaviour
/- One argument. -/
| argumentAt : Nat → Behaviour
/- One variable of the environment. -/
| variableAt : Nat → Behaviour
/- The wrapping sum of all variables and arguments. -/
| sum : Behaviour
/- A list of the variables. -/
| variables : CollectorId → Behaviour
/- A list of the arguments. -/
| arguments : CollectorId → Behaviour
/- A list of pairs of a variable and an argument. -/
| zip : CollectorId → Behaviour
/- A closure of the captured code over the arguments. -/
| make : CollectorId → Behaviour
/- The same, over the variables and the arguments. -/
| capture : CollectorId → Behaviour
/- An error. -/
| fail : ApplyError → Behaviour
/- The first variable applied to the arguments. -/
| callVariable : Behaviour
/- The first argument applied to the others. -/
| callArgument : Behaviour
/- The variables applied to the argument, one after another. -/
| compose : Behaviour
/- One if variables and arguments are equal, else zero. -/
| compare : Behaviour
/- The number of the run. -/
| tick : Behaviour
/- The first variable and the first argument, as one list. -/
| concat : CollectorId → Behaviour
/- The first variable with the first argument at its end. -/
| push : CollectorId → Behaviour
/- A list that nests as deep as the second argument says. -/
| countdown : CollectorId → Behaviour
deriving DecidableEq, Repr

/- Programs of a session. -/
abbrev Routine :=
  Program Behaviour

namespace Behaviour

open Program

------------------------------------------------------------
-- Outcomes
------------------------------------------------------------

/- Give up with a text. -/
def raise (text : String) : Routine Outcome :=
  return .error (.raised text)

/- Come to a copy of a value. -/
def give (v : Value) : Routine Outcome := do
  match ← own v with
  | some x => return .ok x
  | none => raise "no such value"

/- Come to an integer. -/
def giveInteger (i : Int64) : Routine Outcome :=
  give (.integer i)

/- Come to what a collector granted. -/
def giveGranted : Except Refusal Handle → Routine Outcome
| .ok x => return .ok x
| .error r => return .error (.outOfMemory r)

/- Give up because of a value. -/
def raiseFor
    (what : String)
    (v : Value) : Routine Outcome := do
  let text ← query (.render .short v)
  raise (what ++ ": " ++ text)

------------------------------------------------------------
-- Applications
------------------------------------------------------------

/- Apply a value, if there is one. -/
def callOn
    (f : Option Value)
    (args : List Value) : Routine Outcome := do
  match f with
  | none => raise "nothing to call"
  | some f =>
      match ← call f args with
      | some outcome => return outcome
      | none => raiseFor "not a closure" f

/- Apply values one after another to what a handle holds. -/
def composeOn
    (x : Handle) : List Value → Routine Outcome
| [] => return .ok x
| f :: fs => do
    match ← valueOf x with
    | none => raise "no such value"
    | some v =>
        let outcome ← callOn (some f) [v]
        let _ ← perform (.drop x)
        match outcome with
        | .ok y => composeOn y fs
        | .error e => return .error e

------------------------------------------------------------
-- Sums and Pairs
------------------------------------------------------------

/- Add integers up, wrapping. -/
def sumOnto
    (total : Int64) : List Value → Routine Outcome
| [] => giveInteger total
| .integer i :: vs => sumOnto (total + i) vs
| v :: _ => raiseFor "not an integer" v

/-
  Make a list of each pair and then a list of these lists.
  A refusal drops the lists that were made, in order.
-/
def zipOnto
    (c : CollectorId)
    (made : List Handle) :
    List (Value × Value) → Routine Outcome
| [] => do giveGranted (← listOf c made.reverse)
| (v, w) :: pairs => do
    match ← copied c [v, w] with
    | .ok x => zipOnto c (x :: made) pairs
    | .error r =>
        dropAll made.reverse
        return .error (.outOfMemory r)

------------------------------------------------------------
-- Lists
------------------------------------------------------------

/- Go on with the items of a value that must be a list. -/
def withList
    (v : Option Value)
    (next : List Value → Routine Outcome) : Routine Outcome := do
  match v with
  | none => raise "no list"
  | some (.list p) => next (← itemsOf (.list p))
  | some v => raiseFor "not a list" v

/- Make a closure of a captured code over copies of values. -/
def makeClosure
    (c : CollectorId)
    (codes : List ObjectId)
    (vs : List Value) : Routine Outcome := do
  match codes with
  | [] => raise "no such code"
  | q :: _ =>
      match ← perform (.clone (.code q)) with
      | none => raise "no such code"
      | some code =>
          let granted ← makeArray c (.closure code)
            (Word.satOfNat vs.length) [] (ownAll vs)
          giveGranted granted

/-
  Count down: an empty list at zero, else the number and what
  applying `me` to one less gives.
-/
def countdownFrom
    (c : CollectorId)
    (me : Value)
    (n : Int64) : Routine Outcome := do
  if n ≤ 0 then
    giveGranted (← listOf c [])
  else
    match ← callOn (some me) [me, .integer (n - 1)] with
    | .error e => return .error e
    | .ok rest =>
        match ← own (.integer n) with
        | none => raise "no such value"
        | some x => giveGranted (← listOf c [x, rest])

------------------------------------------------------------
-- Bodies
------------------------------------------------------------

/- What a body does when it is run. -/
def program : Behaves Behaviour
| .firstArgument, i =>
    match i.arguments with
    | [] => giveInteger 0
    | v :: _ => give v
| .constant, i =>
    match i.values with
    | [] => raise "no such value"
    | v :: _ => give v
| .count, i =>
    giveInteger (Int64.ofNat
      (i.environment.length + i.arguments.length))
| .argumentAt n, i =>
    match i.arguments[n]? with
    | none => raise ("no argument " ++ toString n)
    | some v => give v
| .variableAt n, i =>
    match i.environment[n]? with
    | none => raise ("no variable " ++ toString n)
    | some v => give v
| .sum, i => sumOnto 0 (i.environment ++ i.arguments)
| .variables c, i => do
    giveGranted (← copied c i.environment)
| .arguments c, i => do
    giveGranted (← copied c i.arguments)
| .zip c, i =>
    zipOnto c [] (i.environment.zip i.arguments)
| .make c, i => makeClosure c i.codes i.arguments
| .capture c, i =>
    makeClosure c i.codes (i.environment ++ i.arguments)
| .fail e, _ => return .error e
| .callVariable, i =>
    callOn i.environment.head? i.arguments
| .callArgument, i =>
    callOn i.arguments.head? i.arguments.tail
| .compose, i =>
    match i.arguments with
    | [] => raise "no argument 0"
    | v :: _ => do
        match ← own v with
        | none => raise "no such value"
        | some x => composeOn x i.environment
| .compare, i => do
    let same ← query (.equal i.environment i.arguments)
    giveInteger (if same then 1 else 0)
| .tick, i => giveInteger (Int64.ofNat i.run)
| .concat c, i =>
    withList i.environment.head? fun vs =>
      withList i.arguments.head? fun ws => do
        giveGranted (← Program.concat c vs ws)
| .push c, i =>
    withList i.environment.head? fun vs =>
      match i.arguments with
      | [] => raise "no argument 0"
      | v :: _ => do
          match ← own v with
          | none => raise "no such value"
          | some x => giveGranted (← pushed c vs x)
| .countdown c, i =>
    match i.arguments with
    | [] => raise "no argument 0"
    | [_] => raise "no argument 1"
    | me :: .integer n :: _ => countdownFrom c me n
    | _ => raise "countdown needs an integer"

end Behaviour

end LeasedHeap
