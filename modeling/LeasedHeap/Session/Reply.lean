import LeasedHeap.Session.Excerpt
import LeasedHeap.Session.Registers

/-
  What a session answers.
-/

namespace LeasedHeap

/- The kind of a value, and the number that goes with it. -/
inductive Brief where
| integer : Int64 → Brief
| list : Nat → Brief
| closure : Nat → Brief
deriving DecidableEq, Repr

/- An item of an array, as it is shown. -/
inductive ShownItem where
| number : UInt64 → ShownItem
| unit : ShownItem
| text : String → ShownItem
deriving DecidableEq, Repr

/- Everything about a value. -/
structure ValueReport where
  brief : Brief
  tag : Tag
  display : Excerpt
  debug : Excerpt
deriving DecidableEq, Repr

/- What churning came to. -/
structure ChurnReport where
  refused : Nat
  kept : Nat
  live : UInt64
  peak : UInt64
deriving DecidableEq, Repr

/- The answer to one operation. -/
inductive Reply where
| done : Reply
/- There is nothing of the kind asked for. -/
| nothing : Reply
| fault : Fault → Reply
| failed : ApplyError → Reply
/- Applications nest deeper than a session allows. -/
| tooDeep : Reply
/- A configuration, and whether it admits some numbers. -/
| config : Config → List Bool → Reply
| collector : Limit → Reply
| shared : Reply
| truth : Bool → Reply
| number : UInt64 → Reply
| stats : Collector → Reply
| described : Collector → Reply
/- A refusal, in all the forms that it takes. -/
| refusal : Refusal → Reply
| value : Brief → Reply
/- The items and bytes of an array. -/
| array : Nat → UInt64 → Reply
/- The bytes of a block, and whether all are zero. -/
| block : Nat → UInt64 → Bool → Reply
/- The items of an array, their text, and the bytes. -/
| contents : List ShownItem → String → UInt64 → Reply
| written : Written → Reply
/- Whether two arrays are one, and whether they are equal. -/
| arrays : Bool → Bool → Reply
| equality : Bool → Reply
| tags : Tag → Tag → Reply
| report : ValueReport → Reply
| text : Excerpt → Reply
/- The items of a list, or of an environment. -/
| listItems : List String → Reply
| environmentItems : List String → Reply
| code : Reply
| churned : ChurnReport → Reply
/- Requests granted, and the bytes live with all held. -/
| contended : Nat → UInt64 → Reply
deriving DecidableEq, Repr

end LeasedHeap
