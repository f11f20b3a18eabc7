import LeasedHeap.Program

/-
  Programs that build lists and closures.

  A list is never changed; a longer list is a new one that
  shares its items with the old.  The sources used here
  announce exactly as many items as they give.

  Key definitions include:
    * `Program.own`
    * `Program.ownAll`
    * `Program.listOf`
    * `Program.closureOf`
    * `Program.counted`
    * `Program.pushed`
    * `Program.concat`
-/

namespace LeasedHeap

namespace Program

variable {κ : Type}

------------------------------------------------------------
-- Handles
------------------------------------------------------------

/- A handle for one more copy of a value. -/
def own (v : Value) : Program κ (Option Handle) :=
  perform (.clone (.value v))

/- Handles for copies of values, after the ones given. -/
def ownOnto
    (xs : List Handle) :
    List Value → Program κ (List Handle)
| [] => .done xs.reverse
| v :: vs => do
    match ← own v with
    | some x => ownOnto (x :: xs) vs
    | none => ownOnto xs vs

/- Handles for copies of values, in order. -/
def ownAll
    (vs : List Value) : Program κ (List Handle) :=
  ownOnto [] vs

/-
  Handles for values by number, after the ones given.  No
  value is made before it is pulled.
-/
def ownCounted
    (value : Nat → Value)
    (xs : List Handle)
    (i : Nat) : Nat → Program κ (List Handle)
| 0 => .done xs.reverse
| count + 1 => do
    match ← own (value i) with
    | some x => ownCounted value (x :: xs) (i + 1) count
    | none => ownCounted value xs (i + 1) count

/- Drop handles in order. -/
def dropAll : List Handle → Program κ Unit
| [] => .done ()
| x :: xs => do
    let _ ← perform (.drop x)
    dropAll xs

/- The value of a handle that holds one. -/
def valueOf (x : Handle) : Program κ (Option Value) := do
  match ← query (.ref x) with
  | some (.value v) => return some v
  | _ => return none

/-
  The items of the payload of a value, none for an integer.
-/
def itemsOf (v : Value) : Program κ (List Value) := do
  match v.payload? with
  | none => return []
  | some p =>
      match ← query (.payload p) with
      | some payload => return payload.contents.values
      | none => return []

------------------------------------------------------------
-- Lists and Closures
------------------------------------------------------------

/- A list of values that are moved into it. -/
def listOf
    (c : CollectorId)
    (xs : List Handle) :
    Program κ (Except Refusal Handle) :=
  makeArray c .list (Word.satOfNat xs.length) xs (.done xs)

/- A closure over values and a code that are moved into it. -/
def closureOf
    (c : CollectorId)
    (code : Handle)
    (xs : List Handle) :
    Program κ (Except Refusal Handle) :=
  makeArray c (.closure code) (Word.satOfNat xs.length) xs
    (.done xs)

/- A list of copies of values. -/
def copied
    (c : CollectorId)
    (vs : List Value) : Program κ (Except Refusal Handle) :=
  makeArray c .list (Word.satOfNat vs.length) [] (ownAll vs)

/- A list of values by number, as many as asked for. -/
def counted
    (c : CollectorId)
    (value : Nat → Value)
    (count : Nat) : Program κ (Except Refusal Handle) :=
  makeArray c .list (Word.satOfNat count) []
    (ownCounted value [] 0 count)

/- A list of copies of values and one more, moved in. -/
def pushed
    (c : CollectorId)
    (vs : List Value)
    (x : Handle) : Program κ (Except Refusal Handle) :=
  makeArray c .list (Word.satOfNat (vs.length + 1)) [x] do
    let xs ← ownAll vs
    return xs ++ [x]

/- A list of copies of the items of two lists. -/
def concat
    (c : CollectorId)
    (vs ws : List Value) :
    Program κ (Except Refusal Handle) :=
  copied c (vs ++ ws)

end Program

end LeasedHeap
