import LeasedHeap.Session.Work

/-
  The operations on values.
-/

namespace LeasedHeap

open Program Work

------------------------------------------------------------
-- Making Values
------------------------------------------------------------

/- Build a value. -/
def buildWork
    (r : Registers)
    (c : String)
    (dst : Option String)
    (v : Spec) : Work (Reply × Registers) := do
  let c ← needCollector r c
  let x ← need (v.build r c none)
  putValue r dst x

/- Copy a value. -/
def cloneWork
    (r : Registers)
    (v : String)
    (dst : Option String) : Work (Reply × Registers) := do
  let x ← need (Spec.ownRegister r v)
  putValue r dst x

/-
  Make a list, or a closure, from items that are built while
  they are pulled, in a collector of their own.
-/
def gatherWork
    (r : Registers)
    (c inner : String)
    (dst : Option String)
    (items : List Spec)
    (hint : Option UInt64)
    (code : Option String) : Work (Reply × Registers) := do
  let c ← needCollector r c
  let inner ← needCollector r inner
  let shape ←
    match code with
    | none => pure Shape.list
    | some name => do
        let x ← need (r.ownCode name)
        pure (Shape.closure x)
  let hint := hint.getD (Word.satOfNat items.length)
  let pull := Spec.buildLenient r inner [] items
  let x ←
    match shape with
    | .closure code =>
        needGranted (makeArray c (.closure code) hint [] pull)
    | _ => needGranted (makeArray c .list hint [] pull)
  putValue r dst x

/- Make a list of equally spaced integers. -/
def rangeWork
    (r : Registers)
    (c : String)
    (dst : Option String)
    (start step : Int64)
    (count : Nat) : Work (Reply × Registers) := do
  let c ← needCollector r c
  let x ← needGranted
    (counted c
      (fun i => .integer (start + step * Int64.ofNat i))
      count)
  putValue r dst x

/-
  Nest a value: each round builds the next shape around it
  and then drops the handle that went in.
-/
def nestFrom
    (r : Registers)
    (c : CollectorId)
    (shapes : Array Spec)
    (x : Handle)
    (i : Nat) : Nat → Routine (Except Fault Handle)
| 0 => return .ok x
| depth + 1 => do
    match shapes[i % shapes.size]? with
    | none => return .ok x
    | some shape =>
        let hole ← valueOf x
        let built ← shape.build r c hole
        let _ ← perform (.drop x)
        match built with
        | .ok y => nestFrom r c shapes y (i + 1) depth
        | .error e => return .error e

/- Build a value and nest it. -/
def nestWork
    (r : Registers)
    (c : String)
    (dst : Option String)
    (v : Spec)
    (depth : Nat)
    (shapes : List Spec) : Work (Reply × Registers) := do
  let c ← needCollector r c
  let x ← need (v.build r c none)
  let y ← need (nestFrom r c shapes.toArray x 0 depth)
  putValue r dst y

------------------------------------------------------------
-- Dropping Values
------------------------------------------------------------

/- Drop a value. -/
def dropWork
    (r : Registers)
    (v : String) : Work (Reply × Registers) := do
  match r.values[v]? with
  | none => return (.nothing, r)
  | some x =>
      dropThese [x]
      return (.done, { r with values := r.values.erase v })

/- Drop all values, then all arrays, then all codes. -/
def clearWork (r : Registers) : Work (Reply × Registers) := do
  dropThese r.values.values
  dropThese r.arrays.values
  dropThese r.codes.values
  return (.done, { r with values := ∅, arrays := ∅, codes := ∅ })

------------------------------------------------------------
-- Reading Values
------------------------------------------------------------

/- The longest text of a report, in bytes. -/
def reportLength : Nat :=
  400

/- The longest text shown by itself, in bytes. -/
def textLength : Nat :=
  1000

/- Report a value. -/
def infoWork
    (r : Registers)
    (v : String) : Work (Reply × Registers) := do
  let v ← need (r.value v)
  let brief ← (briefOf v : Routine Brief)
  let display ← (query (.render .short v) : Routine String)
  let debug ← (query (.render .full v) : Routine String)
  let report : ValueReport :=
    ⟨brief, v.tag, .ofText reportLength display,
      .ofText reportLength debug⟩
  return (.report report, r)

/- Show a value in a style. -/
def renderWork
    (r : Registers)
    (v : String)
    (style : Style) : Work (Reply × Registers) := do
  let v ← need (r.value v)
  let text ← (query (.render style v) : Routine String)
  return (.text (.ofText textLength text), r)

/- Compare two values. -/
def equalWork
    (r : Registers)
    (a b : String) : Work (Reply × Registers) := do
  let v ← need (r.value a)
  let w ← need (r.value b)
  let equal ← (query (.equal [v] [w]) : Routine Bool)
  return (.equality equal, r)

/- Compare the kinds of two values. -/
def tagsWork
    (r : Registers)
    (a b : String) : Work (Reply × Registers) := do
  let v ← need (r.value a)
  let w ← need (r.value b)
  return (.tags v.tag w.tag, r)

/- Take out one item of a value. -/
def getWork
    (r : Registers)
    (v : String)
    (index : Nat)
    (dst : Option String) : Work (Reply × Registers) := do
  let v ← need (r.value v)
  let vs ← (itemsOf v : Routine (List Value))
  match vs[index]? with
  | none => return (.nothing, r)
  | some item =>
      match ← (own item : Routine (Option Handle)) with
      | none => return (.nothing, r)
      | some x => putValue r dst x

/- Show the items of a value. -/
def itemsWork
    (r : Registers)
    (v : String) : Work (Reply × Registers) := do
  let v ← need (r.value v)
  let vs ← (itemsOf v : Routine (List Value))
  let texts ← (showValues vs : Routine (List String))
  match v with
  | .integer _ => return (.nothing, r)
  | .list _ => return (.listItems texts, r)
  | .closure _ => return (.environmentItems texts, r)

------------------------------------------------------------
-- Lists from Lists
------------------------------------------------------------

/- The items of a value that is a list. -/
def listItemsOf (v : Value) : Work (List Value) := do
  match v with
  | .list p => (itemsOf (.list p) : Routine (List Value))
  | _ => throw .nothing

/- Leave out each value that equals the one kept before. -/
def dedupFrom
    (kept : List Value) :
    List Value → Routine (List Value)
| [] => return kept.reverse
| v :: vs => do
    match kept with
    | [] => dedupFrom [v] vs
    | last :: _ =>
        if ← query (.equal [v] [last]) then
          dedupFrom kept vs
        else
          dedupFrom (v :: kept) vs

/- Change a sequence. -/
def Edit.onto
    (edit : Edit)
    (vs : List Value) : Routine (List Value) :=
  match edit with
  | .keep => return vs
  | .reverse => return vs.reverse
  | .rotate => return vs.drop 1 ++ vs.take 1
  | .dedup => dedupFrom [] vs

/- Make a list of the items of a list, edited. -/
def copyWork
    (r : Registers)
    (v c : String)
    (dst : Option String)
    (edit : Edit) : Work (Reply × Registers) := do
  let v ← need (r.value v)
  let vs ← listItemsOf v
  let c ← needCollector r c
  let vs ← (edit.onto vs : Routine (List Value))
  let xs ← (ownAll vs : Routine (List Handle))
  let x ← needGranted (listOf c xs)
  putValue r dst x

/- Make a list that is longer by one item. -/
def pushWork
    (r : Registers)
    (v : String)
    (item : Spec)
    (c : String)
    (dst : Option String) : Work (Reply × Registers) := do
  let c ← needCollector r c
  let y ← need (item.build r c none)
  let vs ← orDrop [y] do
    let v ← need (r.value v)
    listItemsOf v
  let x ← needGranted (pushed c vs y)
  putValue r dst x

/- Make a list of the items of two lists. -/
def concatWork
    (r : Registers)
    (a b c : String)
    (dst : Option String) : Work (Reply × Registers) := do
  let v ← need (r.value a)
  let w ← need (r.value b)
  let vs ← listItemsOf v
  let ws ← listItemsOf w
  let c ← needCollector r c
  let x ← needGranted (Program.concat c vs ws)
  putValue r dst x

end LeasedHeap
