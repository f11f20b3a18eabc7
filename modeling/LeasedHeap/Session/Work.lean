import LeasedHeap.Session.Op
import LeasedHeap.Session.Reply

/-
  What the operations of a session are made of: stopping
  early with an answer, and storing results in registers.

  Key definitions include:
    * `Work`
    * `putValue`
    * `putArray`
    * `putCode`
-/

namespace LeasedHeap

open Program

------------------------------------------------------------
-- Work
------------------------------------------------------------

/- A routine that may stop early with an answer. -/
abbrev Work :=
  ExceptT Reply Routine

namespace Work

variable {α : Type}

/- Go on with what is there, or answer with the fault. -/
def need (p : Routine (Except Fault α)) : Work α := do
  match ← (p : Routine (Except Fault α)) with
  | .ok a => return a
  | .error e => throw (.fault e)

/- Go on with what a collector granted. -/
def needGranted
    (p : Routine (Except Refusal α)) : Work α := do
  match ← (p : Routine (Except Refusal α)) with
  | .ok a => return a
  | .error r => throw (.fault (.refused r))

/- Go on with a collector. -/
def needCollector
    (r : Registers)
    (name : String) : Work CollectorId :=
  match r.collector name with
  | .ok c => return c
  | .error e => throw (.fault e)

/- Drop what handles hold, in order. -/
def dropThese (xs : List Handle) : Work Unit :=
  ExceptT.lift (dropAll xs)

/- Do something; drop some handles if it stops early. -/
def orDrop
    (xs : List Handle)
    (p : Work α) : Work α :=
  tryCatch p fun reply => do
    dropThese xs
    throw reply

end Work

open Work

------------------------------------------------------------
-- Results
------------------------------------------------------------

/- The kind of a value, and its number. -/
def briefOf (v : Value) : Routine Brief := do
  let vs ← itemsOf v
  match v with
  | .integer i => return .integer i
  | .list _ => return .list vs.length
  | .closure _ => return .closure vs.length

/- The texts of values, after the ones given. -/
def showOnto
    (texts : List String) :
    List Value → Routine (List String)
| [] => return texts.reverse
| v :: vs => do
    let text ← query (.render .short v)
    showOnto (text :: texts) vs

/- The texts of values, each by itself. -/
def showValues
    (vs : List Value) : Routine (List String) :=
  showOnto [] vs

/-
  Put a handle into a register of some kind, then drop what
  was there; without a register, drop the handle.
-/
def putHandle
    (registers : Std.TreeMap String Handle)
    (dst : Option String)
    (x : Handle) :
    Routine (Std.TreeMap String Handle) := do
  match dst with
  | none =>
      dropAll [x]
      return registers
  | some name =>
      dropAll registers[name]?.toList
      return registers.insert name x

/- Answer with a value and store it. -/
def putValue
    (r : Registers)
    (dst : Option String)
    (x : Handle) : Work (Reply × Registers) := do
  match ← (valueOf x : Routine (Option Value)) with
  | none => return (.nothing, r)
  | some v =>
      let brief ← (briefOf v : Routine Brief)
      let values ←
        (putHandle r.values dst x :
          Routine (Std.TreeMap String Handle))
      return (.value brief, { r with values })

/- The payload of an array. -/
def payloadOf (p : ObjectId) : Work Payload := do
  match ← (query (.payload p) : Routine (Option Payload)) with
  | some payload => return payload
  | none => throw .nothing

/- Answer with an array and store it. -/
def putArray
    (r : Registers)
    (dst : Option String)
    (x : Handle)
    (answer : Payload → Reply) :
    Work (Reply × Registers) := do
  match ← (query (.ref x) : Routine (Option Ref)) with
  | some (.array p) =>
      let payload ← payloadOf p
      let arrays ←
        (putHandle r.arrays dst x :
          Routine (Std.TreeMap String Handle))
      return (answer payload, { r with arrays })
  | _ => return (.nothing, r)

/- Answer with a code and store it. -/
def putCode
    (r : Registers)
    (name : String)
    (x : Handle) : Work (Reply × Registers) := do
  let codes ←
    (putHandle r.codes (some name) x :
      Routine (Std.TreeMap String Handle))
  return (.code, { r with codes })

/- The length and the bytes of an array. -/
def arrayReply (payload : Payload) : Reply :=
  .array payload.contents.length payload.lease.bytes

/- The same, and whether a block holds zeros only. -/
def blockReply (payload : Payload) : Reply :=
  .block payload.contents.length payload.lease.bytes
    (match payload.contents with
    | .numbers _ ns => ns.all (· == 0)
    | _ => false)

end LeasedHeap
