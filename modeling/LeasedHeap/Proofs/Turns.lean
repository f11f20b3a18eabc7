import LeasedHeap.Proofs.Balance
import LeasedHeap.Proofs.Moments
import LeasedHeap.Proofs.Worlds

/-
  What the moves of programs do to objects.

  A program never takes an object away: that is up to the
  reclaimer.  It makes new objects, writes into an array that
  it alone refers to, and counts the runs of codes.  All
  else that is there keeps what it holds, and no lease is
  returned.

  Main declarations:
    * `Cell.still`
    * `Heap.Turn`
    * `Moment.Written`
    * `Moment.turn_start`
-/

namespace LeasedHeap

------------------------------------------------------------
-- What Stays of an Object
------------------------------------------------------------

namespace Cell

variable {κ : Type}

/- An object without the number of its runs. -/
def still : Cell κ → Cell κ
| .payload p => .payload p
| .code c => .code { c with runs := 0 }

@[simp]
theorem objects_still
    (cell : Cell κ) :
    cell.still.objects = cell.objects := by
  cases cell <;> rfl

@[simp]
theorem values_still
    (cell : Cell κ) :
    cell.still.values = cell.values := by
  cases cell <;> rfl

/- Payloads have nothing to count. -/
theorem eq_payload_of_still
    {cell : Cell κ}
    {payload : Payload}
    (hStill : cell.still = .payload payload) :
    cell = .payload payload := by
  cases cell with
  | payload p => exact hStill
  | code c => cases hStill

end Cell

------------------------------------------------------------
-- Turns
------------------------------------------------------------

namespace Heap

variable {κ : Type}

/-
  One heap comes after another without the reclaimer: no key
  changes hands, and only what was written holds anything
  else than before.
-/
structure Turn
    (h h' : Heap κ)
    (written : ObjectId → Prop) : Prop where
  le : h.next ≤ h'.next
  gone :
    ∀ i, i < h.next → h.objects.get? i = none →
      h'.objects.get? i = none
  there :
    ∀ i o, h.objects.get? i = some o →
      ∃ o', h'.objects.get? i = some o' ∧
        o'.cell.kind = o.cell.kind ∧
        o'.cell.lease? = o.cell.lease? ∧
        (o'.cell.still = o.cell.still ∨ written i)
  returned : h'.returned = h.returned

variable {h h' h'' : Heap κ}
variable {written : ObjectId → Prop}

/- Counters and most of the trace do not matter. -/
theorem Turn.of_objects_eq
    (hObjects : h'.objects = h.objects)
    (hReturned : h'.returned = h.returned) :
    h.Turn h' written := by
  refine ⟨?_, ?_, ?_, hReturned⟩
  · unfold next
    rw [hObjects]
  · intro i _ hNone
    rw [hObjects]
    exact hNone
  · intro i o hGet
    refine ⟨o, ?_, rfl, rfl, Or.inl rfl⟩
    rw [hObjects]
    exact hGet

theorem Turn.refl
    (h : Heap κ)
    (written : ObjectId → Prop) :
    h.Turn h written :=
  .of_objects_eq rfl rfl

theorem Turn.trans
    (hFirst : h.Turn h' written)
    (hSecond : h'.Turn h'' written) :
    h.Turn h'' written := by
  refine
    ⟨Nat.le_trans hFirst.le hSecond.le, ?_, ?_,
      hSecond.returned.trans hFirst.returned⟩
  · intro i hi hNone
    exact
      hSecond.gone i (Nat.lt_of_lt_of_le hi hFirst.le)
        (hFirst.gone i hi hNone)
  · intro i o hGet
    rcases hFirst.there i o hGet with
      ⟨o', hGet', hKind', hLease', hSame'⟩
    rcases hSecond.there i o' hGet' with
      ⟨o'', hGet'', hKind'', hLease'', hSame''⟩
    refine
      ⟨o'', hGet'', hKind''.trans hKind',
        hLease''.trans hLease', ?_⟩
    rcases hSame'' with hSame'' | hWritten
    · rcases hSame' with hSame' | hWritten
      · exact Or.inl (hSame''.trans hSame')
      · exact Or.inr hWritten
    · exact Or.inr hWritten

/- An object changes its handles, its runs or is written. -/
theorem Turn.set
    {p : ObjectId}
    {old new : Object κ}
    (hOld : h.objects.get? p = some old)
    (hKind : new.cell.kind = old.cell.kind)
    (hLease : new.cell.lease? = old.cell.lease?)
    (hSame :
      new.cell.still = old.cell.still ∨ written p) :
    h.Turn { h with objects := h.objects.set p new }
      written := by
  refine ⟨?_, ?_, ?_, rfl⟩
  · simp [next]
  · intro i _ hNone
    have hNe : i ≠ p := by
      rintro rfl
      rw [hOld] at hNone
      cases hNone
    simp [Table.get?_set, hNe, hNone]
  · intro i o hGet
    by_cases hi : i = p
    · subst hi
      rw [hOld] at hGet
      cases hGet
      refine ⟨new, ?_, hKind, hLease, hSame⟩
      simp [Table.get?_set, Table.lt_issued_of_get? hOld]
    · refine ⟨o, ?_, rfl, rfl, Or.inl rfl⟩
      simp [Table.get?_set, hi, hGet]

/- An object is made. -/
theorem Turn.issue
    (h : Heap κ)
    (cell : Cell κ)
    (written : ObjectId → Prop) :
    h.Turn (h.issue cell) written := by
  refine ⟨?_, ?_, ?_, rfl⟩
  · simp [next, Heap.issue]
  · intro i hi hNone
    rw [get?_issue, if_neg (Nat.ne_of_lt hi)]
    exact hNone
  · intro i o hGet
    have hNe : i ≠ h.next :=
      Nat.ne_of_lt (Table.lt_issued_of_get? hGet)
    refine ⟨o, ?_, rfl, rfl, Or.inl rfl⟩
    rw [get?_issue, if_neg hNe]
    exact hGet

/- A handle is counted. -/
theorem Turn.retain
    (h : Heap κ)
    (i : ObjectId) :
    h.Turn (h.retain i) written := by
  unfold Heap.retain
  split
  · rename_i o hGet
    exact .set hGet rfl rfl (Or.inl rfl)
  · exact .refl h written

theorem Turn.retainRef
    (h : Heap κ)
    (r : Ref) :
    h.Turn (h.retainRef r) written := by
  cases r with
  | value v =>
      cases v with
      | integer n => exact .refl h written
      | list p => exact .retain h p
      | closure c =>
          exact (Turn.retain h _).trans (.retain _ _)
  | array p => exact .retain h p
  | code q => exact .retain h q

------------------------------------------------------------
-- Calls
------------------------------------------------------------

variable (h : Heap κ)
variable (c : CollectorId)

/- What a call told, as far as returned leases go. -/
private theorem returned_perform
    {α : Type}
    {s : Steps α}
    (hNone :
      (s.run (h.counters c) []).2.2.filterMap
        Notice.returned? = []) :
    (h.perform c s).2.returned = h.returned := by
  rw [perform_eq, returned_tally, hNone]
  rfl

theorem returned_resetPeak :
    (h.perform c Steps.resetPeak).2.returned =
      h.returned := by
  apply returned_perform
  rw [Steps.run_resetPeak]
  rfl

theorem returned_allocate
    (size : UInt64) :
    (h.perform c
      ((h.terms c).allocate size)).2.returned =
        h.returned := by
  apply returned_perform
  rw [Terms.run_allocate]
  split <;> rfl

theorem returned_openArray
    (width hint : UInt64) :
    (h.perform c
      ((h.terms c).openArray width hint)).2.returned =
        h.returned := by
  apply returned_perform
  rw [Terms.run_openArray]
  split
  · rfl
  · split <;> rfl

theorem returned_closeArray
    (width hinted : UInt64)
    (count : Nat) :
    (h.perform c
      ((h.terms c).closeArray width hinted
        count)).2.returned = h.returned := by
  apply returned_perform
  rw [Terms.run_closeArray]
  simp only
  split
  · rfl
  · split
    · split <;> rfl
    · rfl

end Heap

------------------------------------------------------------
-- Operations
------------------------------------------------------------

namespace World

variable {κ : Type}
variable {written : ObjectId → Prop}

theorem turn_newCollector
    (w : World κ)
    (config : Config) :
    w.heap.Turn (w.newCollector config).2.heap written :=
  .of_objects_eq rfl rfl

theorem turn_resetPeak
    (w : World κ)
    (c : CollectorId) :
    w.heap.Turn (w.resetPeak c).heap written :=
  .of_objects_eq rfl (Heap.returned_resetPeak _ _)

theorem turn_allocate
    (w : World κ)
    (c : CollectorId)
    (size : UInt64) :
    w.heap.Turn (w.allocate c size).2.heap written := by
  have hReturned := Heap.returned_allocate w.heap c size
  have hObjects :
      (w.heap.perform c
        ((w.heap.terms c).allocate size)).2.objects =
          w.heap.objects :=
    rfl
  unfold allocate
  split
  · split
    · rename_i r heap hCall
      rw [hCall] at hReturned hObjects
      exact .of_objects_eq hObjects hReturned
    · rename_i heap hCall
      rw [hCall] at hReturned hObjects
      exact
        (Heap.Turn.of_objects_eq hObjects hReturned).trans
          (.issue _ _ _)
  · exact .refl _ _

theorem turn_clone
    (w : World κ)
    (r : Ref) :
    w.heap.Turn (w.clone r).2.heap written := by
  unfold clone
  split
  · exact .retainRef _ _
  · exact .refl _ _

theorem turn_letGo
    (w : World κ)
    (x : Handle) :
    w.heap.Turn (w.letGo x).2.heap written := by
  unfold letGo
  split <;> exact .refl _ _

/- The array of a handle is there and has no other handle. -/
theorem unique?_eq_some
    {w : World κ}
    {x : Handle}
    {p : ObjectId}
    {lease : Lease}
    {contents : Contents}
    (hUnique : w.unique? x = some (p, lease, contents)) :
    w.ref? x = some (.array p) ∧
      w.heap.objects.get? p =
        some ⟨1, .payload ⟨lease, contents⟩⟩ := by
  unfold unique? at hUnique
  split at hUnique
  · cases hUnique
  · rename_i q hArray
    split at hUnique
    · rename_i lease' contents' hGet
      cases hUnique
      refine ⟨?_, hGet⟩
      unfold arrayOf? at hArray
      split at hArray
      · rename_i hRef
        cases hArray
        exact hRef
      · cases hArray
    · cases hUnique

/- Contents of an array that a single handle refers to. -/
theorem turn_setContents
    (w : World κ)
    {p : ObjectId}
    {lease : Lease}
    {old new : Contents}
    (hGet :
      w.heap.objects.get? p =
        some ⟨1, .payload ⟨lease, old⟩⟩)
    (hKind :
      (Cell.payload ⟨lease, new⟩ : Cell κ).kind =
        (Cell.payload ⟨lease, old⟩ : Cell κ).kind)
    (hWritten : written p) :
    w.heap.Turn (w.setContents p lease new).heap
      written :=
  .set hGet hKind rfl (Or.inr hWritten)

theorem turn_writeNumber
    (w : World κ)
    (x : Handle)
    (i : Nat)
    (n : UInt64)
    (hWritten :
      ∀ p, w.ref? x = some (.array p) →
        w.heap.handles p = 1 → written p) :
    w.heap.Turn (w.writeNumber x i n).2.heap written := by
  unfold writeNumber
  split
  · rename_i p lease width ns hUnique
    rcases unique?_eq_some hUnique with ⟨hRef, hGet⟩
    split
    · exact
        turn_setContents w hGet rfl
          (hWritten p hRef (Heap.handles_of_get? hGet))
    · exact .refl _ _
  · exact .refl _ _
  · exact .refl _ _

theorem turn_exchange
    (w : World κ)
    (x : Handle)
    (i : Nat)
    (item : Handle)
    (hWritten :
      ∀ p, w.ref? x = some (.array p) →
        w.heap.handles p = 1 → written p) :
    w.heap.Turn (w.exchange x i item).2.heap written := by
  rcases exchange_cases w x i item with
    ⟨hExchange, _⟩ |
      ⟨p, lease, vs, old, v, hUnique, _, _, hExchange, _⟩
  · rw [hExchange]
    exact .refl _ _
  · rcases unique?_eq_some hUnique with ⟨hRef, hGet⟩
    rw [hExchange]
    exact
      turn_setContents
        { w with held := w.held.erase item.key } hGet rfl
        (hWritten p hRef (Heap.handles_of_get? hGet))

theorem turn_newCode
    (w : World κ)
    (body : κ)
    (values codes : List Handle) :
    w.heap.Turn (w.newCode body values codes).2.heap
      written := by
  simp only [newCode, issue, hold, heap_takeCodes,
    heap_takeValues]
  exact .issue _ _ _

theorem turn_openArray
    (written : ObjectId → Prop)
    (w : World κ)
    (c : CollectorId)
    (s : Shape)
    (hint : UInt64) :
    w.heap.Turn (w.openArray c s hint).2.heap written := by
  unfold openArray
  split
  · exact
      .of_objects_eq rfl
        (Heap.returned_openArray _ _ _ _)
  · exact .refl _ _

/- What is stored is a payload under the lease. -/
theorem heap_store
    (w : World κ)
    (lease : Lease)
    (s : Shape)
    (items : List s.Item) :
    ∃ contents,
      (w.store lease s items).2.heap =
        w.heap.issue (.payload ⟨lease, contents⟩) := by
  cases s with
  | numbers width => exact ⟨_, rfl⟩
  | slots =>
      simp only [store, issue, hold, heap_takeValues]
      exact ⟨_, rfl⟩
  | list =>
      simp only [store, issue, hold, heap_takeValues]
      exact ⟨_, rfl⟩
  | closure code =>
      simp only [store]
      split <;>
        simp only [issue, hold, heap_takeValues] <;>
        exact ⟨_, rfl⟩

theorem turn_close
    (w : World κ)
    (c : CollectorId)
    (s : Shape)
    (hinted : UInt64)
    (items : List s.Item) :
    w.heap.Turn (w.close c s hinted items).heap written := by
  have hReturned :=
    Heap.returned_closeArray w.heap c s.width hinted
      items.length
  have hObjects :
      (w.heap.perform c
        ((w.heap.terms c).closeArray s.width hinted
          items.length)).2.objects = w.heap.objects :=
    rfl
  unfold close
  split
  · rename_i r heap hCall
    rw [hCall] at hReturned hObjects
    exact .of_objects_eq hObjects hReturned
  · rename_i bytes heap hCall
    rw [hCall] at hReturned hObjects
    rcases heap_store { w with heap } ⟨c, bytes⟩ s items with
      ⟨contents, hStore⟩
    rw [hStore]
    exact
      (Heap.Turn.of_objects_eq hObjects hReturned).trans
        (.issue _ _ _)

theorem turn_countRun
    (w : World κ)
    (q : ObjectId) :
    w.heap.Turn (w.countRun q).heap written := by
  unfold countRun
  split
  · rename_i n code hGet
    exact .set hGet rfl rfl (Or.inl rfl)
  · exact .refl _ _

theorem turn_enter
    (w : World κ)
    (c : Closure)
    (args : Nat) :
    w.heap.Turn (w.enter c args).heap written := by
  unfold enter
  split
  · rename_i env code hEnv hCode
    have hRecord :
        w.heap.Turn
          (w.record (.enter env.length args)).heap written :=
      .of_objects_eq rfl rfl
    simp only
    split
    · exact hRecord.trans (turn_countRun _ _)
    · exact .of_objects_eq rfl rfl
  · exact .refl _ _

end World

------------------------------------------------------------
-- Moves
------------------------------------------------------------

/- The handle through which a move writes. -/
def Move.target?
    {κ : Type} : Move κ → Option Handle
| .act (.writeNumber x _ _) => some x
| .act (.writeValue x _ _) => some x
| _ => none

namespace Moment

variable {κ : Type}

/-
  A move writes into an array: its handle is the only one.
-/
def Written
    (m : Moment κ)
    (v : Move κ)
    (p : ObjectId) : Prop :=
  ∃ x, v.target? = some x ∧
    m.world.ref? x = some (.array p) ∧
      m.world.heap.handles p = 1

/- What a program does to the objects. -/
theorem turn_start
    (m : Moment κ)
    (v : Move κ) :
    m.world.heap.Turn (m.start v).world.heap
      (m.Written v) := by
  cases v with
  | act a =>
      cases a with
      | newCollector config =>
          exact World.turn_newCollector _ _
      | resetPeak c => exact World.turn_resetPeak _ _
      | allocate c size => exact World.turn_allocate _ _ _
      | clone r => exact World.turn_clone _ _
      | drop x => exact World.turn_letGo _ _
      | writeNumber x i n =>
          apply World.turn_writeNumber
          intro p hRef hOne
          exact ⟨x, rfl, hRef, hOne⟩
      | writeValue x i item =>
          apply World.turn_exchange
          intro p hRef hOne
          exact ⟨x, rfl, hRef, hOne⟩
      | newCode body values codes =>
          exact World.turn_newCode _ _ _ _
  | openArray c s hint =>
      have hTurn :=
        World.turn_openArray
          (m.Written (.openArray c s hint))
          m.world c s hint
      simp only [start]
      split
      · rename_i r w hOpen
        rw [hOpen] at hTurn
        exact hTurn
      · rename_i hinted w hOpen
        rw [hOpen] at hTurn
        exact hTurn
  | closeArray k s items =>
      simp only [start]
      split
      · exact .refl _ _
      · exact World.turn_close _ _ _ _ _
  | enter c args => exact World.turn_enter _ _ _
  | exit => exact .of_objects_eq rfl rfl
  | reclaim => exact .refl _ _

end Moment

end LeasedHeap
