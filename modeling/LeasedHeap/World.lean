import LeasedHeap.Reclaim

/-
  A heap together with the handles that are held from the
  outside.

  A handle is a token for one counted reference.  It is given
  out when something is made or cloned and is used up when it
  is dropped or moved into an object; its number is never
  given out again.  So an object is reachable exactly from
  the handles in `held`, and a program cannot give up what it
  does not hold.

  Key definitions include:
    * `Ref`
    * `Handle`
    * `Shape`
    * `World`
    * `World.clone`
    * `World.drop`
    * `World.allocate`
    * `World.openArray`
    * `World.closeArray`
    * `World.newCode`
-/

namespace LeasedHeap

------------------------------------------------------------
-- References and Handles
------------------------------------------------------------

/- What a handle refers to. -/
inductive Ref where
| value : Value → Ref
| array : ObjectId → Ref
| code : ObjectId → Ref
deriving DecidableEq

namespace Ref

/- The frames that drop a reference. -/
def frames : Ref → List Frame
| .value v => [.value v]
| .array p => [.handle p]
| .code q => [.handle q]

end Ref

/- Count one more copy of a reference. -/
def Heap.retainRef
    {κ : Type}
    (h : Heap κ) : Ref → Heap κ
| .value v => h.retainValue v
| .array p => h.retain p
| .code q => h.retain q

/- A token for one counted reference. -/
structure Handle where
  key : Nat
deriving DecidableEq, Repr

------------------------------------------------------------
-- Shapes
------------------------------------------------------------

/-
  What an array call makes of its items: an array of numbers
  or of values, a list, or a closure with the code of a
  handle, which is moved into it.
-/
inductive Shape where
| numbers : Width → Shape
| slots : Shape
| list : Shape
| closure : Handle → Shape
deriving DecidableEq

namespace Shape

/- The bytes of one item. -/
def width : Shape → UInt64
| .numbers w => w.bytes
| _ => Value.width

/- An item is a number, or a handle that is moved in. -/
abbrev Item : Shape → Type
| .numbers _ => UInt64
| .slots => Handle
| .list => Handle
| .closure _ => Handle

/- The handles among some items. -/
def handles : (s : Shape) → List s.Item → List Handle
| .numbers _, _ => []
| .slots, xs => xs
| .list, xs => xs
| .closure _, xs => xs

/- The handles that a shape brings itself. -/
def ownHandles : Shape → List Handle
| .closure code => [code]
| _ => []

end Shape

/- What came of writing an item into an array. -/
inductive Written where
/- The array has other handles. -/
| shared : Written
/- The array has no such item. -/
| outOfRange : Written
/- The item is in its place. -/
| stored : Written
deriving DecidableEq, Repr

------------------------------------------------------------
-- Worlds
------------------------------------------------------------

/- A heap and the references held from the outside. -/
structure World (κ : Type) where
  heap : Heap κ
  held : Table Ref

namespace World

variable {κ : Type}

/- The world at the start: nothing is held. -/
def fresh (provides : UInt64 → Bool) : World κ where
  heap := .fresh provides
  held := .empty

/- What a handle refers to, while it is held. -/
def ref?
    (w : World κ)
    (x : Handle) : Option Ref :=
  w.held.get? x.key

/- The value of a handle that holds one. -/
def value?
    (w : World κ)
    (x : Handle) : Option Value :=
  match w.ref? x with
  | some (.value v) => some v
  | _ => none

/- The code of a handle that holds one. -/
def codeOf?
    (w : World κ)
    (x : Handle) : Option ObjectId :=
  match w.ref? x with
  | some (.code q) => some q
  | _ => none

/- The array of a handle that holds one. -/
def arrayOf?
    (w : World κ)
    (x : Handle) : Option ObjectId :=
  match w.ref? x with
  | some (.array p) => some p
  | _ => none

/- A reference to something that is there. -/
def admits
    (w : World κ) : Ref → Bool
| .value v => w.heap.admits v
| .array p =>
    match w.heap.payload? p with
    | some ⟨_, .elements _⟩ => false
    | some _ => true
    | none => false
| .code q => (w.heap.code? q).isSome

------------------------------------------------------------
-- Giving Out and Using Up Handles
------------------------------------------------------------

/- Give out a handle for a reference that is counted. -/
def hold
    (w : World κ)
    (r : Ref) : Handle × World κ :=
  (⟨w.held.issued⟩, { w with held := w.held.insert r })

/- Give out one more handle for something that is there. -/
def clone
    (w : World κ)
    (r : Ref) : Option Handle × World κ :=
  if w.admits r then
    let (x, w) :=
      { w with heap := w.heap.retainRef r }.hold r
    (some x, w)
  else
    (none, w)

/- Drop what a handle refers to.  Was it held? -/
def drop
    (w : World κ)
    (x : Handle) : Bool × World κ :=
  match w.ref? x with
  | none => (false, w)
  | some r =>
      (true,
        { heap := w.heap.reclaim r.frames
          held := w.held.erase x.key })

/- Drop handles in order. -/
def dropAll
    (w : World κ)
    (xs : List Handle) : World κ :=
  xs.foldl (fun w x => (w.drop x).2) w

/-
  Use up the handles that hold values, and keep the values.
  Other handles stay as they are.
-/
def takeValues
    (w : World κ) : List Handle → List Value × World κ
| [] => ([], w)
| x :: xs =>
    match w.value? x with
    | none => w.takeValues xs
    | some v =>
        let (vs, w) :=
          { w with held := w.held.erase x.key }.takeValues xs
        (v :: vs, w)

/- Use up the handles that hold codes, and keep the codes. -/
def takeCodes
    (w : World κ) : List Handle → List ObjectId × World κ
| [] => ([], w)
| x :: xs =>
    match w.codeOf? x with
    | none => w.takeCodes xs
    | some q =>
        let (qs, w) :=
          { w with held := w.held.erase x.key }.takeCodes xs
        (q :: qs, w)

/- Make an object and hold a reference to it. -/
def issue
    (w : World κ)
    (cell : Cell κ)
    (ref : ObjectId → Ref) : Handle × World κ :=
  let p := w.heap.next
  { w with heap := w.heap.issue cell }.hold (ref p)

------------------------------------------------------------
-- Collectors
------------------------------------------------------------

/- Make a collector. -/
def newCollector
    (w : World κ)
    (config : Config) : CollectorId × World κ :=
  (w.heap.collectors.size,
    { w with
      heap :=
        { w.heap with
          collectors :=
            w.heap.collectors.push (.ofConfig config) } })

/- Restart a collector's peak. -/
def resetPeak
    (w : World κ)
    (c : CollectorId) : World κ :=
  { w with heap := (w.heap.perform c Steps.resetPeak).2 }

------------------------------------------------------------
-- Arrays
------------------------------------------------------------

/- Make a block of zeros. -/
def allocate
    (w : World κ)
    (c : CollectorId)
    (size : UInt64) : Except Refusal Handle × World κ :=
  if w.heap.hasCollector c then
    match w.heap.perform c
        ((w.heap.terms c).allocate size) with
    | (.error r, heap) => (.error r, { w with heap })
    | (.ok (), heap) =>
        let (x, w) := { w with heap }.issue
          (.payload ⟨⟨c, size⟩,
            .numbers .byte (Array.replicate size.toNat 0)⟩)
          .array
        (.ok x, w)
  else
    (.error (.ofNobody size), w)

/- Reserve what the source of an array announces. -/
def openArray
    (w : World κ)
    (c : CollectorId)
    (s : Shape)
    (hint : UInt64) : Except Refusal UInt64 × World κ :=
  if w.heap.hasCollector c then
    let (r, heap) :=
      w.heap.perform c
        ((w.heap.terms c).openArray s.width hint)
    (r, { w with heap })
  else
    (.error (.ofNobody (Word.satMul hint s.width)), w)

/-
  Store items under a lease.  Without a code, the items of a
  closure make a list.
-/
def store
    (w : World κ)
    (lease : Lease) :
    (s : Shape) → List s.Item → Handle × World κ
| .numbers width, ns =>
    w.issue
      (.payload ⟨lease,
        .numbers width (ns.map width.fit).toArray⟩)
      .array
| .slots, xs =>
    let (vs, w) := w.takeValues xs
    w.issue (.payload ⟨lease, .slots vs⟩) .array
| .list, xs =>
    let (vs, w) := w.takeValues xs
    w.issue (.payload ⟨lease, .elements vs⟩)
      (fun p => .value (.list p))
| .closure code, xs =>
    let (vs, w) := w.takeValues xs
    match w.codeOf? code with
    | none =>
        w.issue (.payload ⟨lease, .elements vs⟩)
          (fun p => .value (.list p))
    | some q =>
        { w with held := w.held.erase code.key }.issue
          (.payload ⟨lease, .elements vs⟩)
          (fun p => .value (.closure ⟨p, q⟩))

/-
  Finish an array with the items that its source gave.  A
  refusal drops them in order.
-/
def closeArray
    (w : World κ)
    (c : CollectorId)
    (s : Shape)
    (hinted : UInt64)
    (items : List s.Item) :
    Except Refusal Handle × World κ :=
  match w.heap.perform c
      ((w.heap.terms c).closeArray s.width hinted
        items.length) with
  | (.error r, heap) =>
      (.error r,
        { w with heap }.dropAll
          (s.handles items ++ s.ownHandles))
  | (.ok bytes, heap) =>
      let (x, w) := { w with heap }.store ⟨c, bytes⟩ s items
      (.ok x, w)

/-
  The contents of an array that can be written: its handle
  must be the only one.
-/
def unique?
    (w : World κ)
    (x : Handle) : Option (ObjectId × Lease × Contents) :=
  match w.arrayOf? x with
  | none => none
  | some p =>
      match w.heap.objects.get? p with
      | some ⟨1, .payload ⟨lease, contents⟩⟩ =>
          some (p, lease, contents)
      | _ => none

/- Replace the contents of an array. -/
def setContents
    (w : World κ)
    (p : ObjectId)
    (lease : Lease)
    (contents : Contents) : World κ :=
  { w with
    heap :=
      { w.heap with
        objects := w.heap.objects.set p
          ⟨1, .payload ⟨lease, contents⟩⟩ } }

/- Write a number into an array. -/
def writeNumber
    (w : World κ)
    (x : Handle)
    (i : Nat)
    (n : UInt64) : Written × World κ :=
  match w.unique? x with
  | some (p, lease, .numbers width ns) =>
      if i < ns.size then
        (.stored,
          w.setContents p lease
            (.numbers width
              (ns.setIfInBounds i (width.fit n))))
      else
        (.outOfRange, w)
  | some _ => (.outOfRange, w)
  | none => (.shared, w)

/-
  Move a value into an array, and drop the one that was in
  its place.
-/
def writeValue
    (w : World κ)
    (x : Handle)
    (i : Nat)
    (item : Handle) : Written × World κ :=
  match w.unique? x with
  | some (p, lease, .slots vs) =>
      match vs[i]?, w.value? item with
      | some old, some v =>
          let w :=
            { w with held := w.held.erase item.key }.setContents
              p lease (.slots (vs.set i v))
          (.stored,
            { w with heap := w.heap.dropValue old })
      | _, _ => (.outOfRange, w)
  | some _ => (.outOfRange, w)
  | none => (.shared, w)

------------------------------------------------------------
-- Codes
------------------------------------------------------------

/- Make a code.  What it captures is moved into it. -/
def newCode
    (w : World κ)
    (body : κ)
    (values codes : List Handle) : Handle × World κ :=
  let (vs, w) := w.takeValues values
  let (qs, w) := w.takeCodes codes
  w.issue (.code ⟨body, 0, vs, qs⟩) .code

/- Count one more run of a code. -/
def countRun
    (w : World κ)
    (q : ObjectId) : World κ :=
  match w.heap.objects.get? q with
  | some ⟨n, .code code⟩ =>
      { w with
        heap :=
          { w.heap with
            objects := w.heap.objects.set q
              ⟨n, .code { code with runs := code.runs + 1 }⟩ } }
  | _ => w

/- Add an event to the trace. -/
def record
    (w : World κ)
    (e : Event) : World κ :=
  { w with heap := w.heap.record e }

/- Forget the trace. -/
def forget (w : World κ) : World κ :=
  { w with heap := { w.heap with log := [] } }

end World

end LeasedHeap
