import LeasedHeap.Session.Work

/-
  The operations on codes, and applications.
-/

namespace LeasedHeap

open Program Work

------------------------------------------------------------
-- Codes
------------------------------------------------------------

/- A handle for the code that a code captures. -/
def CodeSpec.codes
    (r : Registers) : CodeSpec → Work (List Handle)
| .overCode _ name => do
    let x ← need (r.ownCode name)
    return [x]
| _ => return []

/-
  The behaviour of a code, and a handle for the value that
  it captures.
-/
def CodeSpec.body
    (r : Registers)
    (c : CollectorId) :
    CodeSpec → Work (Behaviour × List Handle)
| .plain b => return (b, [])
| .inCollector b => return (b c, [])
| .constant v => do
    let x ← need (v.build r c none)
    return (.constant, [x])
| .overCode b _ => return (b c, [])

/-
  Make a code.  The code that it captures is looked up, then
  the collector, and then its value is built.
-/
def codeWork
    (r : Registers)
    (c name : String)
    (spec : CodeSpec) : Work (Reply × Registers) := do
  let codes ← spec.codes r
  let (body, values) ← orDrop codes do
    let c ← needCollector r c
    spec.body r c
  let x ←
    (perform (.newCode body values codes) : Routine Handle)
  putCode r name x

/- Name the code of a closure. -/
def codeOfWork
    (r : Registers)
    (v name : String) : Work (Reply × Registers) := do
  match ← need (r.value v) with
  | .closure c =>
      match ← (perform (.clone (.code c.code)) :
          Routine (Option Handle)) with
      | some x => putCode r name x
      | none => return (.nothing, r)
  | _ => return (.nothing, r)

/- Two names stand for one code. -/
def sameCodeWork
    (r : Registers)
    (a b : String) : Work (Reply × Registers) := do
  let p ← need (r.code a)
  let q ← need (r.code b)
  return (.truth (p == q), r)

/- Drop a code. -/
def dropCodeWork
    (r : Registers)
    (name : String) : Work (Reply × Registers) := do
  match r.codes[name]? with
  | none => return (.nothing, r)
  | some x =>
      dropThese [x]
      return (.done, { r with codes := r.codes.erase name })

------------------------------------------------------------
-- Applications
------------------------------------------------------------

/- The values of handles that hold some, after the ones given. -/
def valuesOnto
    (vs : List Value) : List Handle → Routine (List Value)
| [] => return vs.reverse
| x :: xs => do
    match ← valueOf x with
    | some v => valuesOnto (v :: vs) xs
    | none => valuesOnto vs xs

/-
  Apply a value.  The arguments are built first; they are
  dropped when the application is over.
-/
def applyWork
    (r : Registers)
    (f : String)
    (args : List Spec)
    (c : String)
    (dst : Option String) : Work (Reply × Registers) := do
  let c ← needCollector r c
  let xs ← need (Spec.buildAll r c args)
  let outcome ← orDrop xs do
    let f ← need (r.value f)
    let vs ← (valuesOnto [] xs : Routine (List Value))
    (call f vs : Routine (Option Outcome))
  dropThese xs
  match outcome with
  | none => return (.nothing, r)
  | some (.error e) => return (.failed e, r)
  | some (.ok x) => putValue r dst x

------------------------------------------------------------
-- Bulk
------------------------------------------------------------

/- The last handles of a row, in the order they came. -/
structure Kept where
  count : Nat
  handles : Std.Queue Handle

namespace Kept

/- No handle at all. -/
def empty : Kept :=
  ⟨0, .empty⟩

/-
  Keep one more handle, at most as many as fit a window, and
  give up the oldest one for it.
-/
def push
    (kept : Kept)
    (window : Nat)
    (x : Handle) : Option Handle × Kept :=
  if window = 0 then
    (some x, kept)
  else if kept.count < window then
    (none, ⟨kept.count + 1, kept.handles.enqueue x⟩)
  else
    match kept.handles.dequeue? with
    | some (oldest, handles) =>
        (some oldest, ⟨kept.count, handles.enqueue x⟩)
    | none => (some x, kept)

/- The handles, the oldest first. -/
def toList (kept : Kept) : List Handle :=
  kept.handles.toArray.toList

end Kept

/-
  Rounds of making a closure over a list of integers.  The
  closures of the last rounds are kept.
-/
def churnFrom
    (c : CollectorId)
    (code : ObjectId)
    (length window round refused : Nat)
    (kept : Kept) :
    Nat → Routine (Nat × Kept)
| 0 => return (refused, kept)
| rounds + 1 => do
    match ← one with
    | none =>
        churnFrom c code length window (round + 1)
          (refused + 1) kept rounds
    | some x =>
        let (old, kept) := kept.push window x
        dropAll old.toList
        churnFrom c code length window (round + 1) refused
          kept rounds
where
  one : Routine (Option Handle) := do
    let integer := fun i =>
      Value.integer (Int64.ofNat (round + i))
    match ← counted c integer length with
    | .error _ => return none
    | .ok l =>
        match ← perform (.clone (.code code)) with
        | none => return none
        | some code =>
            match ← closureOf c code [l] with
            | .error _ => return none
            | .ok x => return some x

/- Churn, report, and drop what was kept. -/
def churnWork
    (r : Registers)
    (c : String)
    (rounds length window : Nat)
    (code : String) : Work (Reply × Registers) := do
  let c ← needCollector r c
  let q ← need (r.code code)
  let (refused, kept) ←
    (churnFrom c q length window 0 0 .empty rounds :
      Routine (Nat × Kept))
  let col ← (query (.collector c) : Routine Collector)
  dropThese kept.toList
  let report : ChurnReport :=
    ⟨refused, kept.count, col.counters.live,
      col.counters.peak⟩
  return (.churned report, r)

/- Blocks from so many requests, one after another. -/
def contendFrom
    (c : CollectorId)
    (size : UInt64)
    (held : List Handle) : Nat → Routine (List Handle)
| 0 => return held
| requests + 1 => do
    match ← perform (.allocate c size) with
    | .ok x => contendFrom c size (x :: held) requests
    | .error _ => contendFrom c size held requests

/-
  Requests of several threads that hold what they are
  granted.  However they take turns, as many are granted as
  when one thread follows the other.
-/
def contendWork
    (r : Registers)
    (c : String)
    (threads each : Nat)
    (size : UInt64) : Work (Reply × Registers) := do
  let c ← needCollector r c
  let held ←
    (contendFrom c size [] (threads * each) :
      Routine (List Handle))
  let col ← (query (.collector c) : Routine Collector)
  dropThese held.reverse
  return (.contended held.length col.counters.live, r)

end LeasedHeap
