import LeasedHeap.Session.Arrays
import LeasedHeap.Session.Codes
import LeasedHeap.Session.Collectors
import LeasedHeap.Session.Values

/-
  Sessions: a world and registers, changed by operations.

  Each operation is a program on the world.  It answers, and
  leaves in the trace what happened meanwhile; an operation
  that fails leaves the registers as they were.

  Key definitions include:
    * `Session`
    * `Op.work`
    * `Session.step`
-/

namespace LeasedHeap

open Program Work

------------------------------------------------------------
-- Operations
------------------------------------------------------------

/- What an operation does. -/
def Op.work
    (r : Registers) : Op → Work (Reply × Registers)
| .config settings admits =>
    return (configReply settings admits, r)
| .collector name settings => collectorWork r name settings
| .share c name => shareWork r c name
| .same a b => sameWork r a b
| .stats c => inspectWork r c .stats
| .liveAllocations allocations releases =>
    let counters : Counters :=
      { Counters.zero with allocations, releases }
    return (.number counters.liveAllocations, r)
| .resetPeak c => resetPeakWork r c
| .describe c => inspectWork r c .described
| .refusal requested live settings =>
    let limit := (Config.ofSettings settings).limit
    return (.refusal ⟨requested, live, limit⟩, r)
| .valueSize => return (.number Value.width, r)
| .initTracing => return (.done, r)
| .block c dst size => blockWork r c dst size
| .numbers c dst width ns hint =>
    numbersWork r c dst width ns hint
| .slots c dst specs hint => slotsWork r c dst specs hint
| .cloneArray a dst => cloneArrayWork r a dst
| .dropArray a => dropArrayWork r a
| .readArray a => readArrayWork r a
| .writeArray a index item number c =>
    writeArrayWork r a index item number c
| .compareArrays a b => compareArraysWork r a b
| .build c dst v => buildWork r c dst v
| .clone v dst => cloneWork r v dst
| .gather c inner dst specs hint name =>
    gatherWork r c inner dst specs hint name
| .range c dst start step count =>
    rangeWork r c dst start step count
| .nest c dst v depth shapes => nestWork r c dst v depth shapes
| .drop v => dropWork r v
| .clear => clearWork r
| .info v => infoWork r v
| .render v style => renderWork r v style
| .equal a b => equalWork r a b
| .tags a b => tagsWork r a b
| .get v index dst => getWork r v index dst
| .items v => itemsWork r v
| .copy v c dst edit => copyWork r v c dst edit
| .push v item c dst => pushWork r v item c dst
| .concat a b c dst => concatWork r a b c dst
| .code c name spec => codeWork r c name spec
| .codeOf v name => codeOfWork r v name
| .sameCode a b => sameCodeWork r a b
| .dropCode name => dropCodeWork r name
| .apply f args c dst => applyWork r f args c dst
| .churn c rounds length window name =>
    churnWork r c rounds length window name
| .contend c threads each size =>
    contendWork r c threads each size

/- The trace of an operation is not shown. -/
def Op.isSilent : Op → Bool
| .contend _ _ _ _ => true
| _ => false

------------------------------------------------------------
-- Sessions
------------------------------------------------------------

/- A world and what the names of a session stand for. -/
structure Session where
  world : World Behaviour
  registers : Registers

namespace Session

/- The underlying allocator provides less than this at once. -/
def tooManyBytes : UInt64 :=
  140737488355328

/- A session starts with the common collector alone. -/
def initial : Session where
  world := .fresh (fun bytes => decide (bytes < tooManyBytes))
  registers := .initial

/-
  Applications may nest this deep.  A nested application goes
  to an older closure, has fewer arguments, or counts an
  integer down, so none gets there in practice; a session
  that does starts over.
-/
def depth : Nat :=
  4611686018427387904

/- Carry out an operation: its answer, and its trace. -/
def step
    (s : Session)
    (op : Op) : Reply × List Event × Session :=
  let ⟨world, registers⟩ := s
  match World.run Behaviour.program depth
      (op.work registers).run world.forget with
  | none => (.tooDeep, [], initial)
  | some (.error reply, world) =>
      (reply, world.heap.log.reverse, { world, registers })
  | some (.ok (reply, registers), world) =>
      (reply, world.heap.log.reverse, { world, registers })

/- A collector by name. -/
def collector?
    (s : Session)
    (name : String) : Option Collector :=
  s.registers.collectors[name]?.map s.world.heap.collector

end Session

end LeasedHeap
