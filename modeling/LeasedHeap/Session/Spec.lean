import LeasedHeap.Session.Registers

/-
  Descriptions of values that a session can build.

  Building goes from the inside out and from left to right.
  If a part fails, the parts beside it that are there are
  dropped in order, and so on outwards.

  Key definitions include:
    * `Spec`
    * `Spec.build`
-/

namespace LeasedHeap

/- A description of a value. -/
inductive Spec where
| integer : Int64 → Spec
/- The value of a register. -/
| register : String → Spec
| list : List Spec → Spec
/- A closure: the register of its code, its environment. -/
| closure : String → List Spec → Spec

namespace Spec

open Program

/-
  The name that stands for the value to be nested, and for
  nothing where no value is nested.
-/
def holeName : String :=
  "^"

/- A handle for a copy of a value that has a name. -/
def ownNamed
    (name : String)
    (v : Value) : Routine (Except Fault Handle) := do
  match ← own v with
  | some x => return .ok x
  | none => return .error (.noSuch name)

/- A handle for the value of a register. -/
def ownRegister
    (r : Registers)
    (name : String) : Routine (Except Fault Handle) := do
  match ← r.value name with
  | .ok v => ownNamed name v
  | .error e => return .error e

/- A handle for the value of a name. -/
def buildNamed
    (r : Registers)
    (hole : Option Value)
    (name : String) : Routine (Except Fault Handle) := do
  if name = holeName then
    match hole with
    | some v => ownNamed name v
    | none => return .error (.noSuch name)
  else
    ownRegister r name

/- What a collector granted. -/
def granted : Except Refusal Handle → Except Fault Handle
| .ok x => .ok x
| .error r => .error (.refused r)

mutual

/-
  Build a value in a collector.  In a place to nest in, the
  name of the hole stands for the value given.
-/
def build
    (r : Registers)
    (c : CollectorId)
    (hole : Option Value) :
    Spec → Routine (Except Fault Handle)
| .integer i => ownNamed "" (.integer i)
| .register name => buildNamed r hole name
| .list specs => do
    match ← buildOnto r c hole [] specs with
    | .error e => return .error e
    | .ok xs => return granted (← listOf c xs)
| .closure name specs => do
    match ← r.ownCode name with
    | .error e => return .error e
    | .ok code =>
        match ← buildOnto r c hole [] specs with
        | .error e =>
            let _ ← perform (.drop code)
            return .error e
        | .ok xs => return granted (← closureOf c code xs)

/- Build values in order, after the ones that are there. -/
def buildOnto
    (r : Registers)
    (c : CollectorId)
    (hole : Option Value)
    (made : List Handle) :
    List Spec → Routine (Except Fault (List Handle))
| [] => return .ok made.reverse
| spec :: specs => do
    match ← build r c hole spec with
    | .ok x => buildOnto r c hole (x :: made) specs
    | .error e =>
        dropAll made.reverse
        return .error e

end

/- Build values in order. -/
def buildAll
    (r : Registers)
    (c : CollectorId)
    (specs : List Spec) :
    Routine (Except Fault (List Handle)) :=
  buildOnto r c none [] specs

/-
  Build values in order, with minus one in the place of each
  value that fails.
-/
def buildLenient
    (r : Registers)
    (c : CollectorId)
    (made : List Handle) :
    List Spec → Routine (List Handle)
| [] => return made.reverse
| spec :: specs => do
    match ← build r c none spec with
    | .ok x => buildLenient r c (x :: made) specs
    | .error _ =>
        match ← own (.integer (-1)) with
        | some x => buildLenient r c (x :: made) specs
        | none => buildLenient r c made specs

end Spec

end LeasedHeap
