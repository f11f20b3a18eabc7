/-
  Values and their tags.

  An integer stands for itself; a list and a closure refer to
  a payload in the heap.  A `Value` is what a variable holds:
  copying it and counting the copy are separate matters.

  Key definitions include:
    * `Value`
    * `Value.payload?`
    * `Value.rank`
    * `Tag`
-/

namespace LeasedHeap

------------------------------------------------------------
-- Values
------------------------------------------------------------

/- Objects are named by the key under which a heap keeps them. -/
abbrev ObjectId :=
  Nat

/- A closure: a payload for its environment, and a code. -/
structure Closure where
  environment : ObjectId
  code : ObjectId
deriving DecidableEq, Repr

/- What programs compute with. -/
inductive Value where
| integer : Int64 → Value
| list : ObjectId → Value
| closure : Closure → Value
deriving DecidableEq

namespace Value

/- The payload that a value refers to. -/
def payload? : Value → Option ObjectId
| .integer _ => none
| .list p => some p
| .closure c => some c.environment

/- The code that a value refers to. -/
def code? : Value → Option ObjectId
| .closure c => some c.code
| _ => none

/- A value that refers to a payload. -/
def isNested : Value → Bool
| .integer _ => false
| _ => true

/-
  The age of a value: integers come first, and other values
  in the order in which their payloads were made.
-/
def rank : Value → Nat
| .integer _ => 0
| .list p => p + 1
| .closure c => c.environment + 1

end Value

------------------------------------------------------------
-- Tags
------------------------------------------------------------

/- The kind of a value, in the order of the kinds. -/
inductive Tag where
| integer : Tag
| closure : Tag
| list : Tag
deriving DecidableEq, Repr

namespace Tag

/- The name of a kind. -/
def name : Tag → String
| .integer => "integer"
| .closure => "closure"
| .list => "list"

/- The name of a kind, as a constructor is spelled. -/
def debug : Tag → String
| .integer => "Integer"
| .closure => "Closure"
| .list => "List"

/- The place of a kind in the order of the kinds. -/
def place : Tag → Nat
| .integer => 0
| .closure => 1
| .list => 2

/- Integers come before closures, closures before lists. -/
def precedes (a b : Tag) : Bool :=
  decide (a.place < b.place)

/- The later of two kinds. -/
def latest (a b : Tag) : Tag :=
  if a.precedes b then b else a

end Tag

namespace Value

/- The kind of a value. -/
def tag : Value → Tag
| .integer _ => .integer
| .list _ => .list
| .closure _ => .closure

end Value

end LeasedHeap
