import LeasedHeap.Session.Spec

/-
  The operations of a session.

  Registers are named by strings.  `c` is always the name of
  a collector, `dst` the register for a result; without one
  the result is dropped.
-/

namespace LeasedHeap

/- What happens to a sequence before it is made a list. -/
inductive Edit where
| keep : Edit
| reverse : Edit
/- The first item goes to the end. -/
| rotate : Edit
/- Of equal neighbours the first stays. -/
| dedup : Edit
deriving DecidableEq, Repr

/- What a code is made from. -/
inductive CodeSpec where
| plain : Behaviour → CodeSpec
/- A behaviour that works in the collector. -/
| inCollector : (CollectorId → Behaviour) → CodeSpec
/- A constant, built in the collector. -/
| constant : Spec → CodeSpec
/- A behaviour that works in the collector, with a named code. -/
| overCode :
    (CollectorId → Behaviour) → String → CodeSpec

/- The operations. -/
inductive Op where
| config (settings : List Config.Setting)
    (admits : List UInt64)
| collector (name : String) (settings : List Config.Setting)
| share (c name : String)
| same (a b : String)
| stats (c : String)
| liveAllocations (allocations releases : UInt64)
| resetPeak (c : String)
| describe (c : String)
| refusal (requested live : UInt64)
    (settings : List Config.Setting)
| valueSize
| initTracing
| block (c : String) (dst : Option String) (size : UInt64)
| numbers (c : String) (dst : Option String) (width : Width)
    (items : List UInt64) (hint : Option UInt64)
| slots (c : String) (dst : Option String)
    (items : List Spec) (hint : Option UInt64)
| cloneArray (a : String) (dst : Option String)
| dropArray (a : String)
| readArray (a : String)
| writeArray (a : String) (index : Nat) (item : Spec)
    (number : UInt64) (c : String)
| compareArrays (a b : String)
| build (c : String) (dst : Option String) (v : Spec)
| clone (v : String) (dst : Option String)
| gather (c inner : String) (dst : Option String)
    (items : List Spec) (hint : Option UInt64)
    (code : Option String)
| range (c : String) (dst : Option String)
    (start step : Int64) (count : Nat)
| nest (c : String) (dst : Option String) (v : Spec)
    (depth : Nat) (shapes : List Spec)
| drop (v : String)
| clear
| info (v : String)
| render (v : String) (style : Style)
| equal (a b : String)
| tags (a b : String)
| get (v : String) (index : Nat) (dst : Option String)
| items (v : String)
| copy (v c : String) (dst : Option String) (edit : Edit)
| push (v : String) (item : Spec) (c : String)
    (dst : Option String)
| concat (a b c : String) (dst : Option String)
| code (c name : String) (spec : CodeSpec)
| codeOf (v name : String)
| sameCode (a b : String)
| dropCode (name : String)
| apply (f : String) (args : List Spec) (c : String)
    (dst : Option String)
| churn (c : String) (rounds length window : Nat)
    (code : String)
| contend (c : String) (threads each : Nat) (size : UInt64)

end LeasedHeap
