import LeasedHeap.Proofs.Sequences

/-
  Blocks are arrays of zeros.

  A block of zeros is reserved once.  An array of as many
  zeros reserves the bytes that it announces, and then the
  nothing that is missing from them.  What could be reserved
  is within the limit, so nothing more is not refused, and
  it finds the bytes live that the block was told of.  Hence
  the two requests come to the same in every world, whatever
  else is reserved there.

  Main declarations:
    * `Program.zeros`
    * `Terms.run_closeArray_exact`
    * `World.exec_zeros`
    * `World.Allocates`
    * `Program.itemized` and `Program.exec_itemized`
    * `World.blocks_are_arrays_of_zeros`
-/

namespace LeasedHeap

------------------------------------------------------------
-- Calls on a Collector
------------------------------------------------------------

/- As many bytes as there are bytes. -/
theorem Word.mul?_byte
    (size : UInt64) :
    mul? size (Shape.numbers .byte).width = some size :=
  mul?_eq_some_iff.mpr (Nat.mul_one _).symm

namespace Terms

variable {t : Terms}
variable {c : Counters}

/- A block announces as many items as it has bytes. -/
theorem run_openArray_byte
    (t : Terms)
    (c : Counters)
    (size : UInt64)
    (log : List Notice) :
    (t.openArray (Shape.numbers .byte).width size).run c log =
      match t.secured? c size with
      | some next => (.ok size, c.withLive next, log)
      | none =>
          (.error (t.refusal c size), c,
            .refused (t.refusal c size) :: log) := by
  cases hSecured : t.secured? c size <;>
    simp only [run_openArray, Word.mul?_byte, hSecured]

/-
  Items that take the bytes that were secured are leased
  them, and nothing else is counted.
-/
theorem run_closeArray_exact
    {size next width : UInt64}
    {count : Nat}
    (hSecured : t.secured? c size = some next)
    (hSize : size.toNat = count * width.toNat)
    (log : List Notice) :
    (t.closeArray width size count).run
        (c.withLive next) log =
      (.ok size, (c.withLive next).leased size next,
        .allocated size next :: log) := by
  have hRoom :
      (c.withLive next).room? t.limit (size - size) =
        some next := by
    unfold secured? at hSecured
    split at hSecured
    · apply Counters.room?_eq_some_iff.mpr
      refine
        ⟨?_, (Counters.room?_eq_some_iff.mp hSecured).2⟩
      rw [UInt64.sub_self]
      exact (Nat.add_zero _).symm
    · cases hSecured
  rw [run_closeArray, Word.ofNat?_eq_some_iff.mpr hSize]
  simp only
  rw [if_pos UInt64.le_rfl, hRoom]
  rfl

end Terms

------------------------------------------------------------
-- Arrays of Zeros
------------------------------------------------------------

/- Make a block of zeros, one zero after another. -/
def Program.zeros
    {κ : Type}
    (c : CollectorId)
    (size : UInt64) :
    Program κ (Except Refusal Handle) :=
  makeArray c (.numbers .byte) size []
    (.done (List.replicate size.toNat 0))

namespace World

variable {κ : Type}
variable {w : World κ}
variable {c : CollectorId}

/- The contents of a block are zeros that fit in a byte. -/
theorem store_zeros
    (w : World κ)
    (lease : Lease)
    (size : UInt64) :
    w.store lease (.numbers .byte)
        (List.replicate size.toNat 0) =
      w.issue
        (.payload ⟨lease,
          .numbers .byte (Array.replicate size.toNat 0)⟩)
        .array := by
  have hZeros :
      ((List.replicate size.toNat 0).map
          Width.byte.fit).toArray =
        Array.replicate size.toNat 0 := by
    rw [List.map_replicate, List.toArray_replicate]
    rfl
  simp only [store, hZeros]

/- To make zeros one by one is to make them at once. -/
theorem exec_zeros
    (applies : Applies κ)
    (w : World κ)
    (c : CollectorId)
    (size : UInt64) :
    (Program.zeros c size).exec applies w =
      some (w.allocate c size) := by
  simp only [Program.zeros, Program.makeArray, Program.exec,
    openArray, allocate]
  by_cases hHas : w.heap.hasCollector c = true
  · have hc := of_decide_eq_true hHas
    rw [if_pos hHas, if_pos hHas]
    simp only [Heap.perform_eq, Terms.run_openArray_byte,
      Terms.run_allocate]
    cases hSecured :
        (w.heap.terms c).secured? (w.heap.counters c)
          size with
    | none => rfl
    | some next =>
        have hCount :
            size.toNat =
              (List.replicate size.toNat (0 : UInt64)).length *
                (Shape.numbers .byte).width.toNat := by
          rw [List.length_replicate]
          exact (Nat.mul_one _).symm
        simp only [closeArray, Heap.perform_eq,
          Heap.terms_tally, Heap.counters_tally hc,
          if_true, Terms.run_closeArray_exact hSecured hCount,
          Heap.tally_tally]
        exact
          congrArg
            (fun made : Handle × World κ =>
              some (Except.ok made.1, made.2))
            (store_zeros _ ⟨c, size⟩ size)
  · have hSize :
        Word.satMul size (Shape.numbers .byte).width =
          size := by
      rw [Word.satMul, Word.mul?_byte]
      rfl
    rw [if_neg hHas, if_neg hHas, hSize]
    rfl

/-
  What a request for a block comes to.  If the bytes can be
  afforded, an array of zeros is leased them; otherwise the
  request is refused, and nothing else changes.
-/
inductive Allocates
    (w : World κ)
    (c : CollectorId)
    (size : UInt64) :
    Except Refusal Handle → World κ → Prop where
| leased
    {x : Handle}
    {w' : World κ}
    {p : ObjectId}
    {next : UInt64} :
    (w.heap.terms c).Affords (w.heap.live c) size.toNat →
    next.toNat = w.heap.live c + size.toNat →
    w'.arrayOf? x = some p →
    w'.heap.payload? p =
      some ⟨⟨c, size⟩,
        .numbers .byte (Array.replicate size.toNat 0)⟩ →
    (∀ d, w'.heap.counters d =
      if d = c then
        ((w.heap.counters c).withLive next).leased size next
      else
        w.heap.counters d) →
    w'.heap.log =
      .heap c (.allocated size next) :: w.heap.log →
    Allocates w c size (.ok x) w'
| refused
    {r : Refusal}
    {w' : World κ} :
    ¬ (w.heap.terms c).Affords (w.heap.live c) size.toNat →
    r = (w.heap.terms c).refusal (w.heap.counters c) size →
    w'.heap.counters = w.heap.counters →
    w'.heap.log = .heap c (.refused r) :: w.heap.log →
    w'.heap.objects = w.heap.objects →
    w'.held = w.held →
    Allocates w c size (.error r) w'

theorem allocates
    (hHas : w.heap.hasCollector c = true)
    (size : UInt64) :
    w.Allocates c size (w.allocate c size).1
      (w.allocate c size).2 := by
  have hc := of_decide_eq_true hHas
  simp only [allocate, if_pos hHas, Heap.perform_eq,
    Terms.run_allocate]
  cases hSecured :
      (w.heap.terms c).secured? (w.heap.counters c)
        size with
  | some next =>
      refine
        .leased
          (Terms.exists_secured_iff.mp ⟨_, hSecured⟩)
          (Terms.toNat_of_secured? hSecured)
          (p := w.heap.next) ?_ ?_ ?_ rfl
      · simp [arrayOf?, ref?, issue, hold, Heap.next,
          Heap.tally, Table.get?_insert]
      · simp [Heap.payload?, issue, hold, Heap.issue,
          Heap.next, Heap.tally, Table.get?_insert]
      · intro d
        change
          (w.heap.tally c _ [.allocated size next]).counters
            d = _
        exact Heap.counters_tally hc d
  | none =>
      refine .refused ?_ rfl ?_ rfl rfl rfl
      · intro hAffords
        rcases Terms.exists_secured_iff.mpr hAffords with
          ⟨next, hSome⟩
        rw [hSecured] at hSome
        cases hSome
      · funext d
        refine (Heap.counters_tally hc d).trans ?_
        split
        · rename_i hd
          rw [hd]
        · rfl

end World

------------------------------------------------------------
-- Programs
------------------------------------------------------------

namespace Program

variable {κ α : Type}

/- An action; a block of zeros is made one by one. -/
def itemize : (a : Action κ) → Program κ a.Reply
| .allocate c size => zeros c size
| a => perform a

/-
  A program that makes its blocks one by one, also while it
  asks its sources for items.
-/
def itemized {α : Type} : Program κ α → Program κ α
| .done a => .done a
| .ask q rest => .ask q (fun r => (rest r).itemized)
| .act a rest =>
    (itemize a).bind (fun r => (rest r).itemized)
| .array c s hint owned items rest =>
    .array c s hint owned items.itemized
      (fun r => (rest r).itemized)
| .apply f args rest =>
    .apply f args (fun r => (rest r).itemized)

theorem exec_itemize
    (applies : Applies κ)
    (a : Action κ)
    (w : World κ) :
    (itemize a).exec applies w = some (w.act a) := by
  cases a with
  | allocate c size => exact w.exec_zeros applies c size
  | _ => rfl

/- Programs do not tell the blocks from the arrays. -/
theorem exec_itemized
    (applies : Applies κ)
    (p : Program κ α)
    (w : World κ) :
    p.itemized.exec applies w = p.exec applies w := by
  induction p generalizing w with
  | done a => rfl
  | ask q rest ih => exact ih _ w
  | act a rest ih =>
      rw [itemized, exec_bind, exec_itemize]
      exact ih _ _
  | array c s hint owned items rest ihItems ih =>
      simp only [itemized, exec, ihItems, ih]
  | apply f args rest ih =>
      simp only [itemized, exec, ih]

end Program

/- Codes that make their blocks one by one. -/
def Behaves.itemized
    {κ : Type}
    (behaves : Behaves κ) : Behaves κ :=
  fun body invocation => (behaves body invocation).itemized

namespace World

variable {κ : Type}

theorem applyWithin_itemized
    (behaves : Behaves κ)
    (depth : Nat) :
    applyWithin (Behaves.itemized behaves) depth =
      applyWithin behaves depth := by
  induction depth with
  | zero => rfl
  | succ n ih =>
      funext f args w
      cases f with
      | integer i => rfl
      | list p => rfl
      | closure c =>
          simp only [applyWithin, applyClosure, ih,
            Behaves.itemized, Program.exec_itemized]

/-
  In any world a block of zeros and an array of zeros come to
  the same: the outcome, the contents, the lease, the counters
  and what was told.  So a program runs as it would if all
  blocks were made one by one, within its sources and in
  whatever it applies.
-/
theorem blocks_are_arrays_of_zeros
    {w : World κ}
    {c : CollectorId}
    (behaves : Behaves κ)
    (depth : Nat)
    (hHas : w.heap.hasCollector c = true)
    (size : UInt64) :
    (∃ r w',
      World.run behaves depth
            (.perform (.allocate c size)) w =
          some (r, w') ∧
        World.run behaves depth (.zeros c size) w =
          some (r, w') ∧
        w.Allocates c size r w') ∧
      ∀ {α : Type} (p : Program κ α),
        World.run (Behaves.itemized behaves) depth p.itemized w =
          World.run behaves depth p w := by
  constructor
  · exact
      ⟨_, _, rfl, w.exec_zeros _ c size,
        allocates hHas size⟩
  · intro α p
    unfold World.run
    rw [applyWithin_itemized, Program.exec_itemized]

/-
  While four of ten bytes are reserved, six zeros are leased
  and seven are not.
-/
theorem blocks_are_arrays_of_zeros_at_the_limit :
    ∃ (behaves : Behaves Unit) (w : World Unit),
      ((Moment.fresh (fun _ => true)).run
          [.act (.newCollector ⟨⟨some 10⟩⟩),
            .openArray 1 (.numbers .byte) 4]).world = w ∧
        (∃ x w',
          World.run behaves 0 (.zeros 1 6) w =
              some (.ok x, w') ∧
            w'.heap.live 1 = 10) ∧
        ∃ w',
          World.run behaves 0 (.zeros 1 7) w =
            some (.error ⟨7, 4, ⟨some 10⟩⟩, w') := by
  refine ⟨fun _ _ => .done (.error (.raised "")), _, rfl, ?_⟩
  generalize hRun : ((Moment.fresh _).run _).world = w
  have hHas : w.heap.hasCollector 1 = true := by
    rw [← hRun]
    rfl
  have hTerms :
      w.heap.terms 1 = ⟨⟨some 10⟩, fun _ => true⟩ := by
    rw [← hRun]
    rfl
  have hLive : w.heap.live 1 = 4 := by
    rw [← hRun]
    rfl
  constructor
  · rcases (blocks_are_arrays_of_zeros
        (fun _ _ => .done (.error (.raised ""))) 0 hHas
        6).1 with
      ⟨r, w', _, hZeros, hAllocates⟩
    cases hAllocates with
    | leased _ hNext _ _ hCounters _ =>
        refine ⟨_, w', hZeros, ?_⟩
        rw [Heap.live, hCounters, if_pos rfl]
        exact hNext.trans (by rw [hLive]; rfl)
    | refused hNot _ _ _ _ _ =>
        refine absurd ?_ hNot
        rw [hTerms, hLive]
        refine ⟨⟨by decide, ?_⟩, rfl⟩
        rintro bound ⟨⟩
        decide
  · rcases (blocks_are_arrays_of_zeros
        (fun _ _ => .done (.error (.raised ""))) 0 hHas
        7).1 with
      ⟨r, w', _, hZeros, hAllocates⟩
    cases hAllocates with
    | leased hAffords _ _ _ _ _ =>
        rw [hTerms, hLive] at hAffords
        exact
          absurd (hAffords.1.2 10 rfl) (by decide)
    | refused _ hRefusal _ _ _ _ =>
        refine ⟨w', ?_⟩
        have hWord : (w.heap.counters 1).live = 4 :=
          UInt64.toNat_inj.mp hLive
        rw [hZeros, hRefusal, Terms.refusal, hTerms, hWord]

end World

end LeasedHeap
