import LeasedHeap.Accounting
import LeasedHeap.Collector
import LeasedHeap.Event
import LeasedHeap.Table
import LeasedHeap.Value

/-
  The heap: collectors, and the objects that live on their
  leases.

  A payload holds the items of an array, of a list or of an
  environment, and the lease of one collector for them.  A
  code holds what it captured when it was made.  Both count
  the handles that refer to them.

  Key definitions include:
    * `Payload`
    * `Code`
    * `Object`
    * `Heap`
    * `Heap.values`
    * `Heap.retain`
    * `Heap.perform`
-/

namespace LeasedHeap

------------------------------------------------------------
-- Objects
------------------------------------------------------------

/- The size of the items of a number array. -/
inductive Width where
| unit : Width
| byte : Width
| two : Width
| four : Width
| eight : Width
deriving DecidableEq, Repr

/- The bytes of one item. -/
def Width.bytes : Width → UInt64
| .unit => 0
| .byte => 1
| .two => 2
| .four => 4
| .eight => 8

/-
  What an item keeps of a number: as many of its low bytes as
  the item has.
-/
def Width.fit : Width → UInt64 → UInt64
| .unit, _ => 0
| .byte, n => n % 256
| .two, n => n % 65536
| .four, n => n % 4294967296
| .eight, n => n

/- The bytes of one value. -/
def Value.width : UInt64 :=
  32

/- The bytes that a payload occupies, and whose they are. -/
structure Lease where
  owner : CollectorId
  bytes : UInt64
deriving DecidableEq, Repr

/-
  The items of a payload.  The slots of a value array can be
  written while a single handle holds it; the elements of a
  list or an environment never are.
-/
inductive Contents where
| numbers : Width → Array UInt64 → Contents
| slots : List Value → Contents
| elements : List Value → Contents

namespace Contents

/- The values among the items. -/
def values : Contents → List Value
| .numbers _ _ => []
| .slots vs => vs
| .elements vs => vs

/- Apply a function to every value among the items. -/
def mapValues
    (f : Value → Value) : Contents → Contents
| .numbers w ns => .numbers w ns
| .slots vs => .slots (vs.map f)
| .elements vs => .elements (vs.map f)

/- The number of items. -/
def length : Contents → Nat
| .numbers _ ns => ns.size
| .slots vs => vs.length
| .elements vs => vs.length

end Contents

/- Items and the lease for them. -/
structure Payload where
  lease : Lease
  contents : Contents

/-
  A body, what it captured, and how often it has been run.
-/
structure Code (κ : Type) where
  body : κ
  runs : Nat
  values : List Value
  codes : List ObjectId

/- What an object is. -/
inductive Cell (κ : Type) where
| payload : Payload → Cell κ
| code : Code κ → Cell κ

namespace Cell

variable {κ : Type}

/- The values that an object holds. -/
def values : Cell κ → List Value
| .payload p => p.contents.values
| .code c => c.values

/- The codes that an object holds by themselves. -/
def codes : Cell κ → List ObjectId
| .payload _ => []
| .code c => c.codes

end Cell

/- An object and the number of handles that refer to it. -/
structure Object (κ : Type) where
  handles : Nat
  cell : Cell κ

------------------------------------------------------------
-- Heaps
------------------------------------------------------------

/-
  Collectors, objects and the trace, newest event first.
  `provides` tells how many bytes at a time the underlying
  allocator provides.
-/
structure Heap (κ : Type) where
  provides : UInt64 → Bool
  collectors : Array Collector
  objects : Table (Object κ)
  log : List Event

namespace Heap

variable {κ α : Type}

/- A heap with the common collector and nothing else. -/
def fresh (provides : UInt64 → Bool) : Heap κ where
  provides := provides
  collectors := #[.ofConfig .standard]
  objects := .empty
  log := []

/- A collector by number. -/
def collector
    (h : Heap κ)
    (c : CollectorId) : Collector :=
  h.collectors[c]?.getD (.ofConfig .standard)

/- There is a collector of that number. -/
def hasCollector
    (h : Heap κ)
    (c : CollectorId) : Bool :=
  decide (c < h.collectors.size)

/- The terms of a collector. -/
def terms
    (h : Heap κ)
    (c : CollectorId) : Terms :=
  ⟨(h.collector c).config.limit, h.provides⟩

/- The payload of an object that is one. -/
def payload?
    (h : Heap κ)
    (p : ObjectId) : Option Payload :=
  match h.objects.get? p with
  | some ⟨_, .payload payload⟩ => some payload
  | _ => none

/- The code of an object that is one. -/
def code?
    (h : Heap κ)
    (q : ObjectId) : Option (Code κ) :=
  match h.objects.get? q with
  | some ⟨_, .code code⟩ => some code
  | _ => none

/- The values that an object holds. -/
def values
    (h : Heap κ)
    (p : ObjectId) : List Value :=
  match h.objects.get? p with
  | some o => o.cell.values
  | none => []

/- The elements of a list or an environment. -/
def elements?
    (h : Heap κ)
    (p : ObjectId) : Option (List Value) :=
  match h.payload? p with
  | some ⟨_, .elements vs⟩ => some vs
  | _ => none

/- The number of handles to an object. -/
def handles
    (h : Heap κ)
    (i : ObjectId) : Nat :=
  match h.objects.get? i with
  | some o => o.handles
  | none => 0

/- A value whose payload and code are there. -/
def admits
    (h : Heap κ) : Value → Bool
| .integer _ => true
| .list p => (h.elements? p).isSome
| .closure c =>
    (h.elements? c.environment).isSome &&
      (h.code? c.code).isSome

------------------------------------------------------------
-- Handles
------------------------------------------------------------

/- Count one more handle to an object. -/
def retain
    (h : Heap κ)
    (i : ObjectId) : Heap κ :=
  match h.objects.get? i with
  | some o =>
      { h with
        objects :=
          h.objects.set i { o with handles := o.handles + 1 } }
  | none => h

/- Count one more copy of a value. -/
def retainValue
    (h : Heap κ) : Value → Heap κ
| .integer _ => h
| .list p => h.retain p
| .closure c => (h.retain c.environment).retain c.code

------------------------------------------------------------
-- Objects and Collectors
------------------------------------------------------------

/- The key of the next object. -/
def next (h : Heap κ) : ObjectId :=
  h.objects.issued

/- Make an object with a single handle. -/
def issue
    (h : Heap κ)
    (cell : Cell κ) : Heap κ :=
  { h with objects := h.objects.insert ⟨1, cell⟩ }

/- Add an event to the trace. -/
def record
    (h : Heap κ)
    (e : Event) : Heap κ :=
  { h with log := e :: h.log }

/- Carry out a call on a collector. -/
def perform
    (h : Heap κ)
    (c : CollectorId)
    (s : Steps α) : α × Heap κ :=
  let col := h.collector c
  let (a, counters, notices) := s.run col.counters []
  (a,
    { h with
      collectors :=
        h.collectors.setIfInBounds c { col with counters }
      log := notices.map (.heap c) ++ h.log })

end Heap

end LeasedHeap
