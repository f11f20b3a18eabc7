import LeasedHeap.Session.Work

/-
  The operations on collectors.
-/

namespace LeasedHeap

open Program Work

/- Describe a configuration. -/
def configReply
    (settings : List Config.Setting)
    (admits : List UInt64) : Reply :=
  let config := Config.ofSettings settings
  .config config (admits.map config.limit.admits)

/- Make a collector. -/
def collectorWork
    (r : Registers)
    (name : String)
    (settings : List Config.Setting) :
    Work (Reply × Registers) := do
  let config := Config.ofSettings settings
  let c ←
    (perform (.newCollector config) : Routine CollectorId)
  return (.collector config.limit, r.nameCollector name c)

/- Give a collector one more name. -/
def shareWork
    (r : Registers)
    (c name : String) : Work (Reply × Registers) := do
  let c ← needCollector r c
  return (.shared, r.nameCollector name c)

/- Two names stand for one collector. -/
def sameWork
    (r : Registers)
    (a b : String) : Work (Reply × Registers) := do
  let c ← needCollector r a
  let d ← needCollector r b
  return (.truth (c == d), r)

/- Answer from the state of a collector. -/
def inspectWork
    (r : Registers)
    (c : String)
    (answer : Collector → Reply) :
    Work (Reply × Registers) := do
  let c ← needCollector r c
  let col ← (query (.collector c) : Routine Collector)
  return (answer col, r)

/- Restart the peak of a collector. -/
def resetPeakWork
    (r : Registers)
    (c : String) : Work (Reply × Registers) := do
  let c ← needCollector r c
  (perform (.resetPeak c) : Routine Unit)
  return (.done, r)

end LeasedHeap
