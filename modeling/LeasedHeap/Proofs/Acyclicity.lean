import LeasedHeap.Proofs.Pairing
import Mathlib.Logic.Relation

/-
  References never return.

  Lists, environments and codes are made of what is there and
  are never written after, so whatever they refer to is older
  than they are.  An array may be written at any time, but no
  object refers to an array.  So there is an order in which
  everything comes after what it refers to: by age, with the
  arrays at the end.  It is there between any two moves, in
  the middle of drops, array calls and applications.

  An environment goes with a code.  The code is older as well,
  since a closure is made of a handle of its code.

  Main declarations:
    * `Moment.Refers`
    * `Moment.next_start_le`
    * `Moment.Aged` and `Moment.Aged.run`
    * `Moment.Acyclic`
    * `Moment.references_are_acyclic`
-/

namespace LeasedHeap

------------------------------------------------------------
-- One Object at a Time
------------------------------------------------------------

namespace Heap

variable {κ : Type}

theorem next_issue
    (h : Heap κ)
    (cell : Cell κ) :
    (h.issue cell).next = h.next + 1 :=
  Table.issued_insert _ _

theorem next_retain
    (h : Heap κ)
    (i : ObjectId) :
    (h.retain i).next = h.next := by
  unfold retain
  split
  · exact Table.issued_set _ _ _
  · rfl

theorem next_retainRef
    (h : Heap κ)
    (r : Ref) :
    (h.retainRef r).next = h.next := by
  cases r with
  | value v =>
      cases v with
      | integer i => rfl
      | list p => exact next_retain h p
      | closure c =>
          exact
            (next_retain _ _).trans (next_retain h _)
  | array p => exact next_retain h p
  | code q => exact next_retain h q

end Heap

namespace World

variable {κ : Type}

/- Contents are replaced, and no object is made. -/
theorem next_setContents
    (w : World κ)
    (p : ObjectId)
    (lease : Lease)
    (contents : Contents) :
    (w.setContents p lease contents).heap.next =
      w.heap.next :=
  Table.issued_set _ _ _

theorem next_countRun
    (w : World κ)
    (q : ObjectId) :
    (w.countRun q).heap.next = w.heap.next := by
  unfold countRun
  split
  · exact Table.issued_set _ _ _
  · rfl

/- An action makes one object at most. -/
theorem next_begin_le
    (w : World κ)
    (a : Action κ) :
    (w.begin a).2.heap.next ≤ w.heap.next + 1 := by
  cases a with
  | newCollector config => exact Nat.le_succ _
  | resetPeak c => exact Nat.le_succ _
  | allocate c size =>
      simp only [begin, allocate]
      split
      · have hCall :
            (w.heap.perform c
              ((w.heap.terms c).allocate size)).2.next =
                w.heap.next :=
          rfl
        split
        · rename_i r heap hRefused
          rw [hRefused] at hCall
          exact Nat.le_succ_of_le (Nat.le_of_eq hCall)
        · rename_i heap hGranted
          rw [hGranted] at hCall
          rw [← hCall]
          exact Nat.le_of_eq (Heap.next_issue heap _)
      · exact Nat.le_succ _
  | clone r =>
      simp only [begin, clone]
      split
      · exact
          Nat.le_succ_of_le
            (Nat.le_of_eq (Heap.next_retainRef _ r))
      · exact Nat.le_succ _
  | drop x =>
      simp only [begin, letGo]
      split <;> exact Nat.le_succ _
  | writeNumber x i n =>
      simp only [begin, writeNumber]
      split
      · split
        · rw [next_setContents]
          exact Nat.le_succ _
        · exact Nat.le_succ _
      · exact Nat.le_succ _
      · exact Nat.le_succ _
  | writeValue x i item =>
      simp only [begin]
      rcases exchange_cases w x i item with
        ⟨hExchange, _⟩ |
          ⟨p, lease, vs, old, v, _, _, _, hExchange, _⟩
      · rw [hExchange]
        exact Nat.le_succ _
      · rw [hExchange, next_setContents]
        exact Nat.le_succ _
  | newCode body values codes =>
      simp only [begin, newCode, issue, hold, heap_takeCodes,
        heap_takeValues]
      exact Nat.le_of_eq (Heap.next_issue _ _)

/- So does an array call. -/
theorem next_close_le
    (w : World κ)
    (c : CollectorId)
    (s : Shape)
    (hinted : UInt64)
    (items : List s.Item) :
    (w.close c s hinted items).heap.next ≤
      w.heap.next + 1 := by
  have hCall :
      (w.heap.perform c
        ((w.heap.terms c).closeArray s.width hinted
          items.length)).2.next = w.heap.next :=
    rfl
  unfold close
  split
  · rename_i r heap hRefused
    rw [hRefused] at hCall
    exact Nat.le_succ_of_le (Nat.le_of_eq hCall)
  · rename_i bytes heap hGranted
    rw [hGranted] at hCall
    rcases heap_store { w with heap } ⟨c, bytes⟩ s items with
      ⟨contents, hStore⟩
    rw [hStore, ← hCall]
    exact Nat.le_of_eq (Heap.next_issue heap _)

theorem next_enter
    (w : World κ)
    (c : Closure)
    (args : Nat) :
    (w.enter c args).heap.next = w.heap.next := by
  unfold enter
  split
  · simp only
    split
    · exact next_countRun _ _
    · rfl
  · rfl

end World

namespace Moment

variable {κ : Type}
variable {m : Moment κ}

/- A program's move makes one object at most. -/
theorem next_start_le
    (m : Moment κ)
    (move : Move κ) :
    (m.start move).world.heap.next ≤
      m.world.heap.next + 1 := by
  cases move with
  | act a => exact m.world.next_begin_le a
  | openArray c s hint =>
      have hOpen :
          (m.world.openArray c s hint).2.heap.next =
            m.world.heap.next := by
        unfold World.openArray
        split <;> rfl
      simp only [start]
      split
      all_goals
        rename_i hCall
        rw [hCall] at hOpen
        exact Nat.le_succ_of_le (Nat.le_of_eq hOpen)
  | closeArray k s items =>
      simp only [start]
      split
      · exact Nat.le_succ _
      · exact m.world.next_close_le _ s _ items
  | enter c args =>
      exact
        Nat.le_succ_of_le
          (Nat.le_of_eq (m.world.next_enter c args))
  | exit => exact Nat.le_succ _
  | reclaim => exact Nat.le_succ _

------------------------------------------------------------
-- Ages of Codes
------------------------------------------------------------

/- The codes of closures are older than the environments. -/
def Aged (m : Moment κ) : Prop :=
  ∀ c, m.Around (.closure c) → c.code < c.environment

theorem aged_fresh
    (provides : UInt64 → Bool) :
    (fresh provides : Moment κ).Aged := by
  rintro c ((⟨x, hx⟩ | ⟨i, o, hGet, _⟩) | ⟨f, hf, _⟩)
  · simp [fresh, World.fresh, World.value?, World.ref?] at hx
  · simp [fresh, World.fresh, Heap.fresh] at hGet
  · cases hf

/-
  The one closure that a move can make is made of a code that
  is there.
-/
theorem Aged.start
    (hAged : m.Aged)
    (hFrames : m.frames = [])
    (move : Move κ)
    (hSound : (m.start move).Sound)
    (hCopies : m.Copies move) :
    (m.start move).Aged := by
  rcases around_start hFrames move hCopies with
    ⟨made, hMade, hAround⟩
  intro c hc
  rcases hAround _ rfl hc with hHas | hNew
  · exact hAged c (Or.inl hHas)
  · have hEnvironment :
        c.environment = m.world.heap.next :=
      Option.some.inj (hMade _ hNew)
    have hCode :
        (m.start move).world.heap.kind? c.code =
          some .code :=
      hSound.kind?_of_around hc
        (l := (c.code, .code)) (by simp [Value.links])
    have hNe : c.code ≠ c.environment :=
      hSound.ne_environment hc hCode (by simp)
    have hLt :=
      Nat.lt_of_lt_of_le (Heap.lt_next_of_kind? hCode)
        (next_start_le m move)
    rw [hEnvironment] at hNe ⊢
    exact Nat.lt_of_le_of_ne (Nat.le_of_lt_succ hLt) hNe

/- Closures keep their codes and environments. -/
theorem Aged.step
    (hAged : m.Aged)
    (hSound : m.Sound)
    (move : Move κ)
    (hCopies : m.Copies move) :
    (m.step move).Aged := by
  have hNext := hSound.step move
  rcases step_cases m move with
    ⟨hFrames, hStep⟩ | ⟨f, fs, hFrames, hStep⟩ | hStep
  · rw [hStep] at hNext ⊢
    exact hAged.start hFrames move hNext hCopies
  · rw [hStep]
    rcases m with ⟨w, gs, reserved⟩
    cases hFrames
    exact fun c hc => hAged c (around_step rfl hc)
  · rw [hStep]
    exact hAged

theorem Aged.run
    (hAged : m.Aged)
    (hSound : m.Sound)
    (moves : List (Move κ))
    (hCopied : m.Copied moves) :
    (m.run moves).Aged := by
  induction moves generalizing m with
  | nil => exact hAged
  | cons move moves ih =>
      exact
        ih (hAged.step hSound move hCopied.1)
          (hSound.step move) hCopied.2

------------------------------------------------------------
-- References
------------------------------------------------------------

/-
  An object refers to what it holds: a list, an environment or
  an array to its items, a code to what it captured.  The
  environment of a closure refers to the code of the closure.
-/
inductive Refers (m : Moment κ) : ObjectId → ObjectId → Prop where
| holds {i j : ObjectId} {o : Object κ} :
    m.world.heap.objects.get? i = some o →
    j ∈ o.cell.objects →
    Refers m i j
| binds {c : Closure} :
    m.Around (.closure c) →
    Refers m c.environment c.code

/- The place of an object: by age, with the arrays last. -/
def place
    (m : Moment κ)
    (i : ObjectId) : Nat :=
  if m.world.heap.kind? i = some .array then
    m.world.heap.next + i
  else
    i

variable {i j : ObjectId}

theorem place_of_kind?
    {k : Kind}
    (hKind : m.world.heap.kind? i = some k)
    (hNe : k ≠ .array) :
    m.place i = i := by
  unfold place
  rw [if_neg]
  rw [hKind]
  exact fun hSame => hNe (Option.some.inj hSame)

theorem place_of_array
    (hKind : m.world.heap.kind? i = some .array) :
    m.place i = m.world.heap.next + i :=
  if_pos hKind

/-
  What is referred to is there, and its place is before.
-/
theorem Aged.place_lt
    (hAged : m.Aged)
    (hSound : m.Sound)
    (hRefers : m.Refers i j) :
    (∃ o, m.world.heap.objects.get? j = some o) ∧
      m.place j < m.place i := by
  have hThere :
      ∀ {k}, m.world.heap.kind? j = some k →
        ∃ o, m.world.heap.objects.get? j = some o := by
    intro k hKind
    rcases Heap.kind?_eq_some_iff.mp hKind with ⟨o, hGet, _⟩
    exact ⟨o, hGet⟩
  cases hRefers with
  | @holds _ _ o hGet hMem =>
      rcases List.mem_map.mp hMem with ⟨l, hl, rfl⟩
      have hKind := hSound.exact.typed i o hGet l hl
      rw [place_of_kind? hKind (Cell.kind_ne_array hl)]
      refine ⟨hThere hKind, ?_⟩
      have hFrom :
          m.world.heap.kind? i = some o.cell.kind :=
        Heap.kind?_eq_some_iff.mpr ⟨o, hGet, rfl⟩
      by_cases hArray : o.cell.kind = .array
      · rw [place_of_array (hArray ▸ hFrom)]
        exact
          Nat.lt_add_right _ (Heap.lt_next_of_kind? hKind)
      · rw [place_of_kind? hFrom hArray]
        exact hSound.exact.older i o hGet hArray _ hMem
  | @binds c hc =>
      have hCode :=
        hSound.kind?_of_around hc
          (l := (c.code, .code)) (by simp [Value.links])
      have hEnvironment :=
        hSound.kind?_of_around hc
          (l := (c.environment, .elements))
          (by simp [Value.links])
      rw [place_of_kind? hCode (by simp),
        place_of_kind? hEnvironment (by simp)]
      exact ⟨hThere hCode, hAged c hc⟩

------------------------------------------------------------
-- The Order
------------------------------------------------------------

/- The objects that are there, in the order of their places. -/
def order (m : Moment κ) : List ObjectId :=
  let there :=
    (List.range m.world.heap.next).filter
      (fun i => (m.world.heap.kind? i).isSome)
  there.filter
      (fun i => m.world.heap.kind? i ≠ some .array) ++
    there.filter
      (fun i => m.world.heap.kind? i = some .array)

theorem mem_order_iff :
    i ∈ m.order ↔
      ∃ o, m.world.heap.objects.get? i = some o := by
  have hThere :
      (∃ o, m.world.heap.objects.get? i = some o) ↔
        i < m.world.heap.next ∧
          (m.world.heap.kind? i).isSome := by
    constructor
    · rintro ⟨o, hGet⟩
      refine ⟨Table.lt_issued_of_get? hGet, ?_⟩
      simp [Heap.kind?, hGet]
    · rintro ⟨_, hSome⟩
      rcases Option.isSome_iff_exists.mp hSome with
        ⟨k, hKind⟩
      rcases Heap.kind?_eq_some_iff.mp hKind with
        ⟨o, hGet, _⟩
      exact ⟨o, hGet⟩
  rw [hThere]
  simp only [order, List.mem_append, List.mem_filter,
    List.mem_range, decide_eq_true_eq]
  tauto

/- The order is that of the places. -/
theorem pairwise_order
    (m : Moment κ) :
    m.order.Pairwise
      (fun i j => m.place i < m.place j) := by
  have hPart :
      ∀ (there : ObjectId → Bool) (part : ObjectId → Bool),
        (((List.range m.world.heap.next).filter there).filter
          part).Pairwise (· < ·) :=
    fun _ _ =>
      (List.pairwise_lt_range.filter _).filter _
  refine List.pairwise_append.mpr ⟨?_, ?_, ?_⟩
  · refine (hPart _ _).imp_of_mem ?_
    intro i j hi hj hLt
    have hi := of_decide_eq_true (List.mem_filter.mp hi).2
    have hj := of_decide_eq_true (List.mem_filter.mp hj).2
    unfold place
    rw [if_neg hi, if_neg hj]
    exact hLt
  · refine (hPart _ _).imp_of_mem ?_
    intro i j hi hj hLt
    have hi := of_decide_eq_true (List.mem_filter.mp hi).2
    have hj := of_decide_eq_true (List.mem_filter.mp hj).2
    rw [place_of_array hi, place_of_array hj]
    exact Nat.add_lt_add_left hLt _
  · intro i hi j hj
    rw [List.mem_filter] at hi hj
    have hArray := of_decide_eq_true hj.2
    have hOther := of_decide_eq_true hi.2
    have hBound :=
      List.mem_range.mp (List.mem_filter.mp hi.1).1
    unfold place
    rw [if_neg hOther, if_pos hArray]
    exact Nat.lt_add_right _ hBound

/- What comes earlier in an order is before any cut behind it. -/
private theorem mem_before
    {order before after : List ObjectId}
    {place : ObjectId → Nat}
    (hOrder : order.Pairwise (fun i j => place i < place j))
    (hCut : order = before ++ i :: after)
    (hMem : j ∈ order)
    (hLt : place j < place i) :
    j ∈ before := by
  subst hCut
  rcases List.mem_append.mp hMem with hBefore | hRest
  · exact hBefore
  · exfalso
    have hLater := (List.pairwise_append.mp hOrder).2.1
    rcases List.mem_cons.mp hRest with rfl | hAfter
    · exact Nat.lt_irrefl _ hLt
    · exact
        Nat.lt_asymm hLt
          ((List.pairwise_cons.mp hLater).1 j hAfter)

/-
  The objects that are there have an order in which all that
  one refers to comes before it, and no chain of references
  comes back to where it began.
-/
structure Acyclic (m : Moment κ) : Prop where
  order :
    ∃ order : List ObjectId,
      order.Nodup ∧
        (∀ i, i ∈ order ↔
          ∃ o, m.world.heap.objects.get? i = some o) ∧
        ∀ before i after, order = before ++ i :: after →
          ∀ j, m.Refers i j → j ∈ before
  returns : ∀ i, ¬ Relation.TransGen m.Refers i i

/- Where codes are older, places go down along references. -/
theorem Aged.acyclic
    (hAged : m.Aged)
    (hSound : m.Sound) :
    m.Acyclic := by
  constructor
  · refine
      ⟨m.order, ?_, fun _ => mem_order_iff, ?_⟩
    · refine m.pairwise_order.imp ?_
      rintro i j hLt rfl
      exact Nat.lt_irrefl _ hLt
    · intro before i after hCut j hRefers
      rcases hAged.place_lt hSound hRefers with
        ⟨hThere, hLt⟩
      exact
        mem_before m.pairwise_order hCut
          (mem_order_iff.mpr hThere) hLt
  · intro i hCycle
    have hDown :
        ∀ j, Relation.TransGen m.Refers i j →
          m.place j < m.place i := by
      intro j hPath
      induction hPath with
      | single hRefers =>
          exact (hAged.place_lt hSound hRefers).2
      | tail _ hRefers ih =>
          exact
            Nat.lt_trans (hAged.place_lt hSound hRefers).2 ih
    exact Nat.lt_irrefl _ (hDown i hCycle)

/-
  At every moment of every run in which only values that are
  around are cloned, references are without cycles: while
  values are taken apart, while sources are asked for items,
  and while closures are applied.
-/
theorem references_are_acyclic
    (provides : UInt64 → Bool)
    (moves : List (Move κ))
    (hCopied : (fresh provides).Copied moves) :
    ((fresh provides).run moves).Acyclic :=
  ((aged_fresh provides).run (sound_fresh provides) moves
    hCopied).acyclic (sound_run_fresh provides moves)

/-
  A closure was written into an array, applied while an array
  call was under way, and dropped with the array.  Its items
  have been taken out of its environment: what is left refers
  to the code, and the code to the list that it captured.
-/
theorem references_are_acyclic_in_a_drop :
    ∃ m : Moment Unit,
      (fresh (fun _ => true)).run
          [.act (.clone (.value (.integer 7))),
            .openArray 0 .list 1,
            .closeArray 0 .list [⟨0⟩],
            .act (.clone (.value (.list 0))),
            .act (.newCode () [⟨1⟩] []),
            .openArray 0 (.closure ⟨3⟩) 1,
            .closeArray 0 (.closure ⟨3⟩) [⟨2⟩],
            .act (.clone (.value (.integer 9))),
            .openArray 0 .slots 1,
            .closeArray 0 .slots [⟨5⟩],
            .act (.writeValue ⟨6⟩ 0 ⟨4⟩),
            .reclaim,
            .openArray 0 .list 1,
            .enter ⟨2, 1⟩ 1,
            .act (.drop ⟨6⟩),
            .reclaim,
            .reclaim] = m ∧
        m.frames =
          [.activation (.closure ⟨2, 1⟩) [.list 0],
            .lease ⟨0, 32⟩] ∧
        m.reserved = [⟨0, 32⟩] ∧
        m.Refers 2 1 ∧ m.Refers 1 0 ∧
        ¬ Relation.TransGen m.Refers 0 2 := by
  refine ⟨_, rfl, rfl, rfl, ?_⟩
  generalize hRun : (fresh _).run _ = m
  have hAcyclic : m.Acyclic := by
    rw [← hRun]
    apply references_are_acyclic
    exact
      ⟨(fun h => by cases h), trivial, trivial,
        (fun _ => Or.inl ⟨⟨1⟩, rfl⟩), trivial, trivial,
        trivial, (fun h => by cases h), trivial, trivial,
        trivial, trivial, trivial, trivial, trivial,
        trivial, trivial, trivial⟩
  have hCode : m.Refers 2 1 := by
    refine .binds (c := ⟨2, 1⟩) (Or.inr ?_)
    rw [← hRun]
    exact
      ⟨_, List.mem_cons_self .., List.mem_cons_self ..⟩
  have hCaptured : m.Refers 1 0 := by
    rw [← hRun]
    exact .holds rfl (List.mem_cons_self ..)
  refine ⟨hCode, hCaptured, ?_⟩
  intro hBack
  exact
    hAcyclic.returns 2
      (.head hCode (.head hCaptured hBack))

end Moment

end LeasedHeap
