import LeasedHeap.Proofs.Release

/-
  What the operations of a world do to its handles.

  A world is sound if the handles of every object are the
  references to it, those held by programs included, and
  every handle refers to what it says.  While an operation
  moves references around, some are in hand: they were taken
  from a handle or from an object, and are not yet part of
  another.

  Main declarations:
    * `World.outer`
    * `World.Sound`
    * `World.Sound.letGo` and `World.Sound.hold`
    * `World.Sound.takeValues` and `World.Sound.takeCodes`
    * `World.Sound.make` and `World.Sound.replace`
    * `World.Sound.issue` and `World.Sound.store`
-/

namespace LeasedHeap

namespace World

variable {κ : Type}

------------------------------------------------------------
-- Sound Worlds
------------------------------------------------------------

/- The references to an object that programs hold. -/
def outer
    (w : World κ)
    (i : ObjectId) : Nat :=
  w.held.total (fun r => r.objects.count i)

/- The objects that programs refer to. -/
def Roots
    (w : World κ)
    (i : ObjectId) : Prop :=
  ∃ x r, w.ref? x = some r ∧ i ∈ r.objects

theorem roots_iff
    {w : World κ}
    {i : ObjectId} :
    w.Roots i ↔ 0 < w.outer i := by
  unfold Roots outer ref?
  rw [Table.total_pos_iff]
  constructor
  · rintro ⟨x, r, hGet, hMem⟩
    exact ⟨x.key, r, hGet, List.count_pos_iff.mpr hMem⟩
  · rintro ⟨k, r, hGet, hCount⟩
    exact ⟨⟨k⟩, r, hGet, List.count_pos_iff.mp hCount⟩

/-
  Counts of handles are exact, with `hand` for the references
  in hand, and references are to what they say.
-/
structure Sound
    (w : World κ)
    (hand : List Link) : Prop where
  exact :
    w.heap.Exact
      (fun i => w.outer i + (hand.map Prod.fst).count i)
  admitted :
    ∀ x r, w.ref? x = some r →
      ∀ l ∈ r.links, w.heap.kind? l.1 = some l.2
  inHand : ∀ l ∈ hand, w.heap.kind? l.1 = some l.2

variable {w : World κ}
variable {hand hand' : List Link}

/- The order of what is in hand does not matter. -/
theorem Sound.perm
    (hSound : w.Sound hand)
    (hPerm : hand.Perm hand') :
    w.Sound hand' := by
  refine ⟨?_, hSound.admitted, ?_⟩
  · refine hSound.exact.congr (fun i => ?_)
    rw [(hPerm.map Prod.fst).count_eq]
  · intro l hl
    exact hSound.inHand l (hPerm.mem_iff.mpr hl)

/- Collectors and the trace do not matter. -/
theorem Sound.of_objects_eq
    {heap : Heap κ}
    (hSound : w.Sound hand)
    (hObjects : heap.objects = w.heap.objects) :
    ({ w with heap }).Sound hand := by
  have hKind : ∀ i, heap.kind? i = w.heap.kind? i := by
    intro i
    unfold Heap.kind?
    rw [hObjects]
  refine
    ⟨hSound.exact.of_objects_eq hObjects, ?_, ?_⟩
  · intro x r hRef l hl
    rw [hKind]
    exact hSound.admitted x r hRef l hl
  · intro l hl
    rw [hKind]
    exact hSound.inHand l hl

------------------------------------------------------------
-- Handles
------------------------------------------------------------

/- A reference goes from a handle into the hand. -/
theorem Sound.letGo
    (hSound : w.Sound hand)
    {x : Handle}
    {r : Ref}
    (hRef : w.ref? x = some r) :
    ({ w with held := w.held.erase x.key }).Sound
      (r.links ++ hand) := by
  refine ⟨?_, ?_, ?_⟩
  · refine hSound.exact.congr (fun i => ?_)
    have hErase :=
      Table.total_erase
        (fun r : Ref => r.objects.count i) hRef
    simp only [outer, List.map_append, List.count_append,
      Ref.objects] at hErase ⊢
    omega
  · intro y s hGet l hl
    apply hSound.admitted y s _ l hl
    unfold ref? at hGet ⊢
    simp only [Table.get?_erase] at hGet
    split at hGet
    · cases hGet
    · exact hGet
  · intro l hl
    rcases List.mem_append.mp hl with hNow | hBefore
    · exact hSound.admitted x r hRef l hNow
    · exact hSound.inHand l hBefore

/- A reference goes from the hand into a new handle. -/
theorem Sound.hold
    {r : Ref}
    (hSound : w.Sound (r.links ++ hand)) :
    (w.hold r).2.Sound hand := by
  unfold World.hold
  refine ⟨?_, ?_, ?_⟩
  · refine hSound.exact.congr (fun i => ?_)
    unfold outer
    rw [List.map_append, List.count_append]
    simp only [Table.total_insert]
    unfold Ref.objects
    omega
  · intro x s hGet l hl
    unfold ref? at hGet
    simp only [Table.get?_insert] at hGet
    split at hGet
    · cases hGet
      exact hSound.inHand l (List.mem_append_left _ hl)
    · exact hSound.admitted x s hGet l hl
  · intro l hl
    exact hSound.inHand l (List.mem_append_right _ hl)

/- A copy of a reference to what is there is in hand. -/
theorem Sound.retain
    {r : Ref}
    (hSound : w.Sound hand)
    (hTyped :
      ∀ l ∈ r.links, w.heap.kind? l.1 = some l.2) :
    ({ w with heap := w.heap.retainRef r }).Sound
      (r.links ++ hand) := by
  refine ⟨?_, ?_, ?_⟩
  · refine
      (hSound.exact.retainRef hTyped).congr (fun i => ?_)
    simp only [outer, List.map_append, List.count_append,
      Ref.objects]
    omega
  · intro x s hGet l hl
    rw [Heap.kind?_retainRef]
    exact hSound.admitted x s hGet l hl
  · intro l hl
    rw [Heap.kind?_retainRef]
    rcases List.mem_append.mp hl with hNow | hBefore
    · exact hTyped l hNow
    · exact hSound.inHand l hBefore

/- A handle that holds a value refers to it. -/
theorem ref?_of_value?
    {x : Handle}
    {v : Value}
    (hValue : w.value? x = some v) :
    w.ref? x = some (.value v) := by
  unfold value? at hValue
  split at hValue
  · rename_i u hRef
    cases hValue
    exact hRef
  · cases hValue

/- A handle that holds a code refers to it. -/
theorem ref?_of_codeOf?
    {x : Handle}
    {q : ObjectId}
    (hCode : w.codeOf? x = some q) :
    w.ref? x = some (.code q) := by
  unfold codeOf? at hCode
  split at hCode
  · rename_i u hRef
    cases hCode
    exact hRef
  · cases hCode

/- The values of handles go into the hand. -/
theorem Sound.takeValues
    (hSound : w.Sound hand)
    (xs : List Handle) :
    (w.takeValues xs).2.Sound
      ((w.takeValues xs).1.flatMap Value.links ++
        hand) := by
  induction xs generalizing w hand with
  | nil => exact hSound
  | cons x xs ih =>
      unfold World.takeValues
      cases hValue : w.value? x with
      | none => exact ih hSound
      | some v =>
          simp only [List.flatMap_cons]
          refine
            (ih (hSound.letGo (ref?_of_value? hValue))).perm
              ?_
          simp only [Ref.links, List.append_assoc]
          exact List.perm_append_comm_assoc _ _ _

/- The codes of handles go into the hand. -/
theorem Sound.takeCodes
    (hSound : w.Sound hand)
    (xs : List Handle) :
    (w.takeCodes xs).2.Sound
      ((w.takeCodes xs).1.map (fun q => (q, .code)) ++
        hand) := by
  induction xs generalizing w hand with
  | nil => exact hSound
  | cons x xs ih =>
      unfold World.takeCodes
      cases hCode : w.codeOf? x with
      | none => exact ih hSound
      | some q =>
          refine
            (ih (hSound.letGo (ref?_of_codeOf? hCode))).perm
              ?_
          simp only [Ref.links, List.map_cons,
            List.cons_append, List.nil_append]
          exact List.perm_middle

/- Taking values changes no object. -/
@[simp]
theorem heap_takeValues
    (w : World κ)
    (xs : List Handle) :
    (w.takeValues xs).2.heap = w.heap := by
  induction xs generalizing w with
  | nil => rfl
  | cons x xs ih =>
      unfold World.takeValues
      cases w.value? x with
      | none => exact ih w
      | some v => exact ih _

/- Taking codes changes no object. -/
@[simp]
theorem heap_takeCodes
    (w : World κ)
    (xs : List Handle) :
    (w.takeCodes xs).2.heap = w.heap := by
  induction xs generalizing w with
  | nil => rfl
  | cons x xs ih =>
      unfold World.takeCodes
      cases w.codeOf? x with
      | none => exact ih w
      | some q => exact ih _

------------------------------------------------------------
-- Objects
------------------------------------------------------------

/-
  An object is made of what is in hand, and a reference to
  it is in hand instead.
-/
theorem Sound.make
    {cell : Cell κ}
    (hSound : w.Sound (cell.links ++ hand)) :
    ({ w with heap := w.heap.issue cell }).Sound
      ((w.heap.next, cell.kind) :: hand) := by
  have hTyped :
      ∀ l ∈ cell.links, w.heap.kind? l.1 = some l.2 := by
    intro l hl
    exact hSound.inHand l (List.mem_append_left _ hl)
  refine ⟨?_, ?_, ?_⟩
  · refine hSound.exact.issue hTyped (fun i => ?_)
    simp only [outer, List.map_append, List.count_append,
      List.map_cons, Cell.objects]
    by_cases hi : i = w.heap.next
    · rw [if_pos hi, hi, List.count_cons_self]
      omega
    · rw [if_neg hi, List.count_cons_of_ne (Ne.symm hi)]
      omega
  · intro x r hGet l hl
    exact
      Heap.kind?_issue cell (hSound.admitted x r hGet l hl)
  · intro l hl
    rcases List.mem_cons.mp hl with rfl | hl
    · exact
        Heap.kind?_eq_some_iff.mpr
          ⟨⟨1, cell⟩, by simp [Heap.get?_issue], rfl⟩
    · exact
        Heap.kind?_issue cell
          (hSound.inHand l (List.mem_append_right _ hl))

/-
  An array with a single handle is filled anew: what it loses
  is in hand, what it gains was.
-/
theorem Sound.replace
    {p : ObjectId}
    {old new : Cell κ}
    (hSound : w.Sound hand)
    (hGet : w.heap.objects.get? p = some ⟨1, old⟩)
    (hOld : old.kind = .array)
    (hNew : new.kind = .array)
    (hPerm :
      (new.links ++ hand').Perm (old.links ++ hand)) :
    ({ w with
        heap :=
          { w.heap with
            objects :=
              w.heap.objects.set p ⟨1, new⟩ } }).Sound
      hand' := by
  have hKind :
      ∀ j,
        ({ w.heap with
            objects :=
              w.heap.objects.set p ⟨1, new⟩ }).kind? j =
          w.heap.kind? j :=
    Heap.kind?_set hGet (hNew.trans hOld.symm)
  have hTyped :
      ∀ l ∈ new.links ++ hand',
        w.heap.kind? l.1 = some l.2 := by
    intro l hl
    rcases List.mem_append.mp (hPerm.mem_iff.mp hl) with
      hLost | hBefore
    · exact hSound.exact.typed p _ hGet l hLost
    · exact hSound.inHand l hBefore
  refine ⟨?_, ?_, ?_⟩
  · refine
      hSound.exact.replace hGet (hNew.trans hOld.symm)
        Nat.one_pos ?_ (fun hNot => absurd hNew hNot) ?_
    · intro l hl
      exact hTyped l (List.mem_append_left _ hl)
    · intro i
      have hCount := (hPerm.map Prod.fst).count_eq i
      simp only [outer, List.map_append, List.count_append,
        Cell.objects] at hCount ⊢
      omega
  · intro x r hRef l hl
    rw [hKind]
    exact hSound.admitted x r hRef l hl
  · intro l hl
    rw [hKind]
    exact hTyped l (List.mem_append_right _ hl)

/-
  An object is made of what is in hand, and held.  `more` is
  what the handle refers to besides the object.
-/
theorem Sound.issue
    {cell : Cell κ}
    {ref : ObjectId → Ref}
    (more : List Link)
    (hSound : w.Sound (cell.links ++ (more ++ hand)))
    (hRef :
      (ref w.heap.next).links =
        (w.heap.next, cell.kind) :: more) :
    (w.issue cell ref).2.Sound hand := by
  unfold World.issue
  apply Sound.hold
  rw [hRef]
  exact hSound.make

/- What handles held is stored in one payload. -/
theorem Sound.store
    (hSound : w.Sound hand)
    (lease : Lease)
    (s : Shape)
    (items : List s.Item) :
    (w.store lease s items).2.Sound hand := by
  cases s with
  | numbers width =>
      exact Sound.issue [] hSound rfl
  | slots =>
      have hTaken := hSound.takeValues items
      refine Sound.issue [] ?_ rfl
      simpa [Cell.links, Cell.values, Cell.codes,
        Contents.values] using hTaken
  | list =>
      have hTaken := hSound.takeValues items
      refine Sound.issue [] ?_ rfl
      simpa [Cell.links, Cell.values, Cell.codes,
        Contents.values] using hTaken
  | closure code =>
      have hTaken := hSound.takeValues items
      simp only [World.store]
      cases hCode :
          (w.takeValues items).2.codeOf? code with
      | none =>
          refine Sound.issue [] ?_ rfl
          simpa [Cell.links, Cell.values, Cell.codes,
            Contents.values] using hTaken
      | some q =>
          have hBoth :=
            hTaken.letGo (ref?_of_codeOf? hCode)
          refine
            Sound.issue [(q, .code)] ?_ rfl
          refine hBoth.perm ?_
          simp only [Cell.links, Cell.values, Cell.codes,
            Contents.values, Ref.links, List.map_nil,
            List.append_nil]
          exact List.perm_append_comm_assoc _ _ _

/- The runs of a code do not matter. -/
theorem Sound.countRun
    (hSound : w.Sound hand)
    (q : ObjectId) :
    (w.countRun q).Sound hand := by
  unfold World.countRun
  split
  · rename_i n code hGet
    have hKind :
        ∀ j,
          ({ w.heap with
              objects :=
                w.heap.objects.set q
                  ⟨n,
                    .code
                      { code with
                        runs := code.runs + 1 }⟩ }).kind? j =
            w.heap.kind? j :=
      Heap.kind?_set hGet rfl
    refine ⟨?_, ?_, ?_⟩
    · have hHeld := hSound.exact.held q _ hGet
      have hTyped := hSound.exact.typed q _ hGet
      have hOlder := hSound.exact.older q _ hGet
      exact
        hSound.exact.replace hGet rfl hHeld hTyped hOlder
          (fun _ => rfl)
    · intro x r hRef l hl
      rw [hKind]
      exact hSound.admitted x r hRef l hl
    · intro l hl
      rw [hKind]
      exact hSound.inHand l hl
  · exact hSound

end World

end LeasedHeap
