import LeasedHeap.Session.Behaviour
import Std.Data.TreeMap

/-
  Registers: names for values, arrays, codes and collectors,
  each kind with names of its own.
-/

namespace LeasedHeap

/- What the names of a session stand for. -/
structure Registers where
  values : Std.TreeMap String Handle
  arrays : Std.TreeMap String Handle
  codes : Std.TreeMap String Handle
  collectors : Std.TreeMap String CollectorId

/- Why an operation of a session has no result. -/
inductive Fault where
/- There is no register of that name. -/
| noSuch : String → Fault
/- A collector refused. -/
| refused : Refusal → Fault
deriving DecidableEq, Repr

namespace Registers

open Program

/- The name of the common collector. -/
def commonName : String :=
  "g"

/- Only the common collector has a name. -/
def initial : Registers where
  values := ∅
  arrays := ∅
  codes := ∅
  collectors := .ofList [(commonName, 0)]

/-
  Let a name stand for a collector.  The name of the common
  collector stands for that one forever.
-/
def nameCollector
    (r : Registers)
    (name : String)
    (c : CollectorId) : Registers :=
  if name = commonName then
    r
  else
    { r with collectors := r.collectors.insert name c }

/- The collector of a name. -/
def collector
    (r : Registers)
    (name : String) : Except Fault CollectorId :=
  match r.collectors[name]? with
  | some c => .ok c
  | none => .error (.noSuch name)

/- The value of a name. -/
def value
    (r : Registers)
    (name : String) : Routine (Except Fault Value) := do
  match r.values[name]? with
  | none => return .error (.noSuch name)
  | some x =>
      match ← valueOf x with
      | some v => return .ok v
      | none => return .error (.noSuch name)

/- The array of a name, and its handle. -/
def array
    (r : Registers)
    (name : String) :
    Routine (Except Fault (Handle × ObjectId)) := do
  match r.arrays[name]? with
  | none => return .error (.noSuch name)
  | some x =>
      match ← query (.ref x) with
      | some (.array p) => return .ok (x, p)
      | _ => return .error (.noSuch name)

/- The code of a name. -/
def code
    (r : Registers)
    (name : String) : Routine (Except Fault ObjectId) := do
  match r.codes[name]? with
  | none => return .error (.noSuch name)
  | some x =>
      match ← query (.ref x) with
      | some (.code q) => return .ok q
      | _ => return .error (.noSuch name)

/- A new handle for the code of a name. -/
def ownCode
    (r : Registers)
    (name : String) : Routine (Except Fault Handle) := do
  match ← r.code name with
  | .error e => return .error e
  | .ok q =>
      match ← perform (.clone (.code q)) with
      | some x => return .ok x
      | none => return .error (.noSuch name)

end Registers

end LeasedHeap
