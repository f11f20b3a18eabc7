import LeasedHeap.Counters

/-
  A collector: its configuration and its counters.
-/

namespace LeasedHeap

/- Collectors are numbered in the order they are made. -/
abbrev CollectorId :=
  Nat

/- What a collector was made with, and what it has counted. -/
structure Collector where
  config : Config
  counters : Counters
deriving DecidableEq, Repr

namespace Collector

/- A collector that has issued nothing. -/
def ofConfig (config : Config) : Collector :=
  ⟨config, .zero⟩

/- The counters and the limit, spelled out. -/
def debugStats (c : Collector) : String :=
  "HeapStats \x7b live_bytes: " ++ toString c.counters.live ++
    ", peak_bytes: " ++ toString c.counters.peak ++
    ", allocations: " ++ toString c.counters.allocations ++
    ", releases: " ++ toString c.counters.releases ++
    ", bytes_allocated: " ++ toString c.counters.allocated ++
    ", bytes_reclaimed: " ++ toString c.counters.reclaimed ++
    ", limit: " ++ c.config.limit.debug ++ " \x7d"

/- The collector, spelled out. -/
def debug (c : Collector) : String :=
  "Collector \x7b config: " ++ c.config.debug ++
    ", stats: " ++ c.debugStats ++ " \x7d"

end Collector

end LeasedHeap
