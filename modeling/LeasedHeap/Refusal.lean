import LeasedHeap.Limit

/-
  Refused requests: how much was asked for, how much was
  live, and under which limit.
-/

namespace LeasedHeap

/-
  A refused request.  `live` is what the collector held when
  the refusal was made, after its reservation was returned.
-/
structure Refusal where
  requested : UInt64
  live : UInt64
  limit : Limit
deriving DecidableEq, Repr

namespace Refusal

/- A collector that does not exist refuses everything. -/
def ofNobody (requested : UInt64) : Refusal :=
  ⟨requested, 0, ⟨some 0⟩⟩

/- The refusal in words. -/
def message (r : Refusal) : String :=
  "out of memory: failed to allocate " ++
    toString r.requested ++ " bytes | heap: " ++
    toString r.live ++ " bytes live, " ++ r.limit.text

/- The structure of a refusal, spelled out. -/
def debug (r : Refusal) : String :=
  "OutOfMemory \x7b requested: " ++ toString r.requested ++
    ", live: " ++ toString r.live ++
    ", limit: " ++ r.limit.debug ++ " \x7d"

end Refusal

end LeasedHeap
