import LeasedHeap.Session.Work

/-
  The operations on arrays.
-/

namespace LeasedHeap

open Program Work

------------------------------------------------------------
-- Arrays
------------------------------------------------------------

/- The text of numbers, as a row. -/
def numbersText (width : Width) (ns : List UInt64) : String :=
  let shown :=
    match width with
    | .unit => ns.map (fun _ => "()")
    | _ => ns.map toString
  "[" ++ ", ".intercalate shown ++ "]"

/- All that an array holds. -/
def showArray (payload : Payload) : Routine Reply := do
  match payload.contents with
  | .numbers width ns =>
      let items : List ShownItem :=
        match width with
        | .unit => ns.toList.map (fun _ => .unit)
        | _ => ns.toList.map .number
      return .contents items (numbersText width ns.toList)
        payload.lease.bytes
  | contents =>
      let texts ← showValues contents.values
      let text ← query (.renderRow contents.values)
      return .contents (texts.map .text) text
        payload.lease.bytes

/- Whether two arrays hold equal items. -/
def equalContents
    (a b : Contents) : Routine Bool := do
  match a, b with
  | .numbers _ ns, .numbers _ ms => return ns == ms
  | a, b => query (.equal a.values b.values)

/- Make a block. -/
def blockWork
    (r : Registers)
    (c : String)
    (dst : Option String)
    (size : UInt64) : Work (Reply × Registers) := do
  let c ← needCollector r c
  let x ← needGranted (perform (.allocate c size))
  putArray r dst x blockReply

/- Make an array of numbers. -/
def numbersWork
    (r : Registers)
    (c : String)
    (dst : Option String)
    (width : Width)
    (items : List UInt64)
    (hint : Option UInt64) : Work (Reply × Registers) := do
  let c ← needCollector r c
  let hint := hint.getD (Word.satOfNat items.length)
  let x ← needGranted
    (makeArray c (.numbers width) hint [] (.done items))
  putArray r dst x arrayReply

/- Make an array of values, which are all built before. -/
def slotsWork
    (r : Registers)
    (c : String)
    (dst : Option String)
    (items : List Spec)
    (hint : Option UInt64) : Work (Reply × Registers) := do
  let c ← needCollector r c
  let xs ← need (Spec.buildAll r c items)
  let hint := hint.getD (Word.satOfNat items.length)
  let x ← needGranted
    (makeArray c .slots hint xs (.done xs))
  putArray r dst x arrayReply

/- Give an array one more handle. -/
def cloneArrayWork
    (r : Registers)
    (a : String)
    (dst : Option String) : Work (Reply × Registers) := do
  let (_, p) ← need (r.array a)
  match ← (perform (.clone (.array p)) :
      Routine (Option Handle)) with
  | none => return (.nothing, r)
  | some x => putArray r dst x arrayReply

/- Drop an array. -/
def dropArrayWork
    (r : Registers)
    (a : String) : Work (Reply × Registers) := do
  match r.arrays[a]? with
  | none => return (.nothing, r)
  | some x =>
      dropThese [x]
      return (.done, { r with arrays := r.arrays.erase a })

/- Show an array. -/
def readArrayWork
    (r : Registers)
    (a : String) : Work (Reply × Registers) := do
  let (_, p) ← need (r.array a)
  let payload ← payloadOf p
  let reply ← (showArray payload : Routine Reply)
  return (reply, r)

/-
  Write an item into an array.  For an array of values the
  item is built first, and dropped if it is not stored.
-/
def writeArrayWork
    (r : Registers)
    (a : String)
    (index : Nat)
    (item : Spec)
    (number : UInt64)
    (c : String) : Work (Reply × Registers) := do
  let (x, p) ← need (r.array a)
  let payload ← payloadOf p
  match payload.contents with
  | .numbers _ _ =>
      let written ←
        (perform (.writeNumber x index number) :
          Routine Written)
      return (.written written, r)
  | _ =>
      let c ← needCollector r c
      let y ← need (item.build r c none)
      let written ←
        (perform (.writeValue x index y) : Routine Written)
      if written ≠ .stored then
        dropThese [y]
      return (.written written, r)

/- Compare two arrays. -/
def compareArraysWork
    (r : Registers)
    (a b : String) : Work (Reply × Registers) := do
  let (_, p) ← need (r.array a)
  let (_, q) ← need (r.array b)
  let payload ← payloadOf p
  let other ← payloadOf q
  let equal ←
    (equalContents payload.contents other.contents :
      Routine Bool)
  return (.arrays (p == q) equal, r)

end LeasedHeap
