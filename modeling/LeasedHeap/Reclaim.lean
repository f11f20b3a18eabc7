import LeasedHeap.Heap

/-
  Dropping handles, without recursion on the nesting.

  Dropping a value starts an activation.  If the value's
  payload has no other handle, its nested items are taken
  out; then each of them, the last one first, has its own
  items taken out onto the same pending list and is dropped
  in turn.  When nothing is pending, the handle of the value
  that started the activation goes.  The last handle of a
  payload drops what it still holds and returns the lease,
  the last handle of a code drops what it captured.

  All of this is data: a list of frames, innermost first.
  `Heap.step` does the next thing of one frame and
  `Heap.reclaim` repeats it until no frame is left.

  Key definitions include:
    * `Frame`
    * `Heap.take`
    * `Heap.step`
    * `Heap.reclaim`
    * `Heap.load`

  Reclaiming ends because of:
    * `Heap.load_step_lt`
-/

namespace LeasedHeap

------------------------------------------------------------
-- Frames
------------------------------------------------------------

/- Something that is still to be given up. -/
inductive Frame where
/- A value to drop. -/
| value : Value → Frame
/-
  A value whose drop has begun, and the items that were
  taken out below it, the last one taken first.
-/
| activation : Value → List Value → Frame
/- One handle of an object. -/
| handle : ObjectId → Frame
/- A lease to return. -/
| lease : Lease → Frame

namespace Value

/- What is left where a nested value was taken out. -/
def blank : Value → Value
| .integer i => .integer i
| _ => .integer 0

/- The frames that give up the handles of a value. -/
def handleFrames : Value → List Frame
| .integer _ => []
| .list p => [.handle p]
| .closure c => [.handle c.environment, .handle c.code]

end Value

namespace Cell

variable {κ : Type}

/- The values of an object that refer to payloads. -/
def nested (cell : Cell κ) : List Value :=
  cell.values.filter Value.isNested

/- The frames that drop what an object holds. -/
def dropFrames : Cell κ → List Frame
| .payload p =>
    (p.contents.values.filter Value.isNested).map .value ++
      [.lease p.lease]
| .code c =>
    (c.values.filter Value.isNested).map .value ++
      c.codes.map .handle

end Cell

------------------------------------------------------------
-- Steps
------------------------------------------------------------

namespace Heap

variable {κ : Type}

/-
  Take the nested items out of a payload that has a single
  handle; a payload with more keeps them.
-/
def take
    (h : Heap κ)
    (p : ObjectId) : List Value × Heap κ :=
  match h.objects.get? p with
  | some ⟨1, .payload ⟨lease, contents⟩⟩ =>
      ((contents.values.filter Value.isNested).reverse,
        { h with
          objects := h.objects.set p
            ⟨1, .payload
              ⟨lease, contents.mapValues Value.blank⟩⟩ })
  | _ => ([], h)

/- Give up one handle of an object. -/
def release
    (h : Heap κ)
    (i : ObjectId) : List Frame × Heap κ :=
  match h.objects.get? i with
  | some ⟨n + 2, cell⟩ =>
      ([], { h with objects := h.objects.set i ⟨n + 1, cell⟩ })
  | some ⟨_, cell⟩ =>
      (cell.dropFrames,
        { h with objects := h.objects.erase i })
  | none => ([], h)

/-
  Do the next thing of a frame.  The answer is what remains
  of the frame, on top of what it started.
-/
def step
    (h : Heap κ) : Frame → List Frame × Heap κ
| .value v =>
    match v.payload? with
    | none => ([], h)
    | some p =>
        let (taken, h) := h.take p
        ([.activation v taken], h)
| .activation v [] => (v.handleFrames, h)
| .activation v (w :: pending) =>
    match w.payload? with
    | none => ([.activation v pending], h)
    | some p =>
        let (taken, h) := h.take p
        ([.value w, .activation v (taken ++ pending)], h)
| .handle i => h.release i
| .lease l =>
    ([], (h.perform l.owner (Steps.release l.bytes)).2)

------------------------------------------------------------
-- The Load
------------------------------------------------------------

end Heap

namespace Frame

/- The work in a frame. -/
def load : Frame → Nat
| .value _ => 6
| .activation _ pending => 5 + 7 * pending.length
| .handle _ => 2
| .lease _ => 1

/- The work in a list of frames. -/
def loads : List Frame → Nat
| [] => 0
| f :: fs => f.load + loads fs

@[simp]
theorem loads_nil : loads [] = 0 :=
  rfl

@[simp]
theorem loads_cons
    (f : Frame)
    (fs : List Frame) :
    loads (f :: fs) = f.load + loads fs :=
  rfl

@[simp]
theorem loads_append
    (fs gs : List Frame) :
    loads (fs ++ gs) = loads fs + loads gs := by
  induction fs with
  | nil => simp
  | cons f fs ih =>
      simp only [List.cons_append, loads_cons, ih]
      omega

/- Values to drop weigh six each. -/
@[simp]
theorem loads_map_value
    (vs : List Value) :
    loads (vs.map .value) = 6 * vs.length := by
  induction vs with
  | nil => rfl
  | cons v vs ih =>
      simp [ih, load]
      omega

/- Handles to give up weigh two each. -/
@[simp]
theorem loads_map_handle
    (is : List ObjectId) :
    loads (is.map .handle) = 2 * is.length := by
  induction is with
  | nil => rfl
  | cons i is ih =>
      simp [ih, load]
      omega

end Frame

/- The work that an object can still start. -/
def Object.load {κ : Type} (o : Object κ) : Nat :=
  7 * o.cell.nested.length + 2 * o.cell.codes.length

namespace Heap

variable {κ : Type}

/- The work that is left for some frames in a heap. -/
def load
    (h : Heap κ)
    (fs : List Frame) : Nat :=
  h.objects.total Object.load + Frame.loads fs

/- What was taken out of a payload is no longer in it. -/
private theorem filter_isNested_map_blank
    (vs : List Value) :
    (vs.map Value.blank).filter Value.isNested = [] := by
  induction vs with
  | nil => rfl
  | cons v vs ih =>
      cases v <;> simpa [Value.blank, Value.isNested] using ih

/- Taking items out moves their work to the pending list. -/
private theorem total_take
    (h : Heap κ)
    (p : ObjectId) :
    (h.take p).2.objects.total Object.load +
        7 * (h.take p).1.length =
      h.objects.total Object.load := by
  unfold take
  split
  · rename_i lease contents hp
    have hSet := Table.total_set Object.load hp
      ⟨1, .payload ⟨lease, contents.mapValues Value.blank⟩⟩
    cases contents <;>
      simp_all [Object.load, Cell.nested, Cell.values,
        Contents.values, Contents.mapValues, Cell.codes,
        filter_isNested_map_blank]
  · simp

/- Giving up a handle leaves less than the handle's work. -/
private theorem total_release
    (h : Heap κ)
    (i : ObjectId) :
    (h.release i).2.objects.total Object.load +
        Frame.loads (h.release i).1 ≤
      h.objects.total Object.load + 1 := by
  unfold release
  split
  · rename_i n cell hi
    have hSet := Table.total_set Object.load hi ⟨n + 1, cell⟩
    simp only [Object.load] at hSet
    simp
    omega
  · rename_i n cell hn hi
    have hErase := Table.total_erase Object.load hi
    cases cell <;>
      simp_all [Object.load, Cell.nested, Cell.values,
        Cell.codes, Cell.dropFrames, Frame.load] <;>
      omega
  · simp

/- Each step leaves less work. -/
theorem load_step_lt
    (h : Heap κ)
    (f : Frame)
    (fs : List Frame) :
    (h.step f).2.load ((h.step f).1 ++ fs) <
      h.load (f :: fs) := by
  simp only [load, Frame.loads_append, Frame.loads_cons]
  cases f with
  | value v =>
      cases hv : v.payload? with
      | none => simp [step, hv, Frame.load]
      | some p =>
          have hTake := total_take h p
          simp [step, hv, Frame.load]
          omega
  | activation v pending =>
      cases pending with
      | nil =>
          cases v <;>
            simp [step, Value.handleFrames, Frame.load]
      | cons w pending =>
          cases hw : w.payload? with
          | none => simp [step, hw, Frame.load]
          | some p =>
              have hTake := total_take h p
              simp [step, hw, Frame.load]
              omega
  | handle i =>
      have hRelease := total_release h i
      simp only [step, Frame.load]
      omega
  | lease l =>
      simp [step, perform, Frame.load]

------------------------------------------------------------
-- Reclaiming
------------------------------------------------------------

/- Work until no frame is left. -/
def reclaim
    (h : Heap κ)
    (fs : List Frame) : Heap κ :=
  match fs with
  | [] => h
  | f :: fs =>
      let next := h.step f
      next.2.reclaim (next.1 ++ fs)
termination_by h.load fs
decreasing_by exact load_step_lt h f fs

/- Drop a value. -/
def dropValue
    (h : Heap κ)
    (v : Value) : Heap κ :=
  h.reclaim [.value v]

end Heap

end LeasedHeap
