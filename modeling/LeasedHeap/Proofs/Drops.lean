import LeasedHeap.Proofs.Pairing
import LeasedHeap.Proofs.Plain
import LeasedHeap.Proofs.Worklist

/-
  Every drop of every run is the recursion.

  Whenever a value is to be dropped, by a program, by an
  array that goes or by a code that ends, the reclaimer's
  loop comes to its end and leaves what the recursion leaves,
  the trace included.  The objects and collectors are those
  that plain recursion would leave.

  If programs clone the values that they find, a value whose
  payload is shared loses its handles and no more: its code
  is shared as well.

  Main declarations:
    * `Moment.Drops`
    * `Moment.Spares`
    * `Moment.Sound.drops` and `Moment.Paired.spares`
-/

namespace LeasedHeap

namespace Moment

variable {κ : Type}
variable {m : Moment κ}

/-
  A value is dropped at a moment, and `h` is the heap that is
  left when it is done.
-/
structure Drops
    (m : Moment κ)
    (v : Value)
    (fs : List Frame)
    (h : Heap κ) : Prop where
  /- The loop ends, with the frames that waited before. -/
  ends :
    ∃ n,
      m.run (List.replicate n .reclaim) =
        ⟨{ m.world with heap := h }, fs, m.reserved⟩
  /- The loop leaves what the recursion leaves. -/
  settles :
    ∀ h', Heap.Settles [.drop v] m.world.heap h' ↔ h' = h
  /- Plain recursion ends as well. -/
  plain :
    ∃ h', Heap.GivesUp v.objects m.world.heap h'
  objects :
    ∀ h', Heap.GivesUp v.objects m.world.heap h' →
      h.objects = h'.objects
  collectors :
    ∀ h', Heap.GivesUp v.objects m.world.heap h' →
      h.collectors = h'.collectors

/-
  A value whose payload is shared loses its handles and no
  more, whether it is dropped or visited.
-/
structure Spares (m : Moment κ) : Prop where
  drop :
    ∀ v p fs, m.frames = .value v :: fs →
      v.payload? = some p → 2 ≤ m.world.heap.handles p →
        m.world.heap.dropValue v =
          v.objects.foldl Heap.uncount m.world.heap
  visit :
    ∀ u v p ws fs, m.frames = .activation u (v :: ws) :: fs →
      v.payload? = some p → 2 ≤ m.world.heap.handles p →
        ∃ n,
          m.run (List.replicate n .reclaim) =
            ⟨{ m.world with
                heap :=
                  v.objects.foldl Heap.uncount
                    m.world.heap },
              .activation u ws :: fs, m.reserved⟩

/- Whatever is dropped at a sound moment, the loop recurses. -/
theorem Sound.drops
    (hSound : m.Sound)
    {v : Value}
    {fs : List Frame}
    (hFrames : m.frames = .value v :: fs) :
    m.Drops v fs (m.world.heap.dropValue v) := by
  rcases m with ⟨w, gs, reserved⟩
  cases hFrames
  have hExact :
      w.heap.Exact
        (fun i =>
          (w.outer i + Frame.mentions fs i) +
            Frame.mentions [.value v] i) := by
    refine hSound.exact.congr (fun i => ?_)
    simp only [Frame.mentions_cons, Frame.mentions_nil]
    omega
  have hTyped :
      ∀ c ∈ [Chore.drop v], ∀ l ∈ c.links,
        w.heap.kind? l.1 = some l.2 := by
    intro c hc l hl
    cases List.mem_singleton.mp hc
    exact
      hSound.typed (.value v) (List.mem_cons_self ..) v
        (List.mem_singleton.mpr rfl) l hl
  have hSettles :
      Heap.Settles [.drop v] w.heap (w.heap.dropValue v) :=
    Heap.Exact.settles_reclaim hExact hTyped
  have hGiven :
      w.heap.Exact
        (fun i =>
          (w.outer i + Frame.mentions fs i) +
            v.objects.count i) :=
    hExact.congr (fun i => by simp [Frame.objects])
  have hBalanced :
      w.heap.Balanced ([.value v] ++ fs) reserved :=
    hSound.balanced
  have hLeft :
      ∀ h', Heap.GivesUp v.objects w.heap h' →
        (w.heap.dropValue v).objects = h'.objects ∧
          (w.heap.dropValue v).collectors = h'.collectors :=
    fun h' hGivesUp =>
      hGivesUp.eq_reclaim hExact
        (fun i => by simp [Frame.objects]) hBalanced rfl
  refine ⟨?_, ?_, hGiven.exists_givesUp, ?_, ?_⟩
  · exact exists_run_reclaim w [.value v] fs reserved
  · intro h'
    constructor
    · intro hOther
      exact hOther.unique hSettles
    · rintro rfl
      exact hSettles
  · exact fun h' hGivesUp => (hLeft h' hGivesUp).1
  · exact fun h' hGivesUp => (hLeft h' hGivesUp).2

/-
  Where no environment alone is to be given up first, a value
  whose payload is shared has its code shared as well.
-/
private theorem Paired.reclaim_shared
    (hPaired : m.Paired)
    (hSound : m.Sound)
    {f : Frame}
    {fs : List Frame}
    (hFrames : m.frames = f :: fs)
    {v : Value}
    (hv : v ∈ f.values)
    {p : ObjectId}
    (hPayload : v.payload? = some p)
    (hShared : 2 ≤ m.world.heap.handles p) :
    m.world.heap.reclaim [.value v] =
      v.objects.foldl Heap.uncount m.world.heap := by
  rw [Heap.reclaim_value_shared hPayload hShared]
  cases v with
  | integer i => cases hPayload
  | list q =>
      cases hPayload
      exact Heap.reclaim_nil _
  | closure c =>
      cases hPayload
      have hMem : f ∈ m.frames := by
        rw [hFrames]
        exact List.mem_cons_self ..
      have hClosure : m.Around (.closure c) :=
        Or.inr ⟨f, hMem, hv⟩
      have hCodes :
          ∀ i, .handle i ∈ m.frames →
            m.world.heap.kind? i = some .code := by
        intro i hi
        apply hPaired.codes
        rw [hFrames] at hi ⊢
        rcases List.mem_cons.mp hi with rfl | hRest
        · cases hv
        · exact hRest
      have hKind :=
        hSound.kind?_of_around hClosure
          (l := (c.code, .code)) (by simp [Value.links])
      have hNe : c.code ≠ c.environment :=
        hSound.ne_environment hClosure hKind (by simp)
      have hLe := hPaired.handles_le hSound hClosure hCodes
      have hCode :
          2 ≤ (m.world.heap.uncount c.environment).handles
            c.code := by
        rw [Heap.handles_uncount_of_ne hNe]
        exact Nat.le_trans hShared hLe
      exact
        (Heap.reclaim_handle_shared hCode []).trans
          (Heap.reclaim_nil _)

/- Where values are paired, nothing shared is lost. -/
theorem Paired.spares
    (hPaired : m.Paired)
    (hSound : m.Sound) :
    m.Spares := by
  constructor
  · intro v p fs hFrames hPayload hShared
    exact
      hPaired.reclaim_shared hSound hFrames
        (List.mem_singleton.mpr rfl) hPayload hShared
  · intro u v p ws fs hFrames hPayload hShared
    have hReclaim :=
      hPaired.reclaim_shared hSound hFrames
        (List.mem_cons_of_mem _ (List.mem_cons_self ..))
        hPayload hShared
    rcases m with ⟨w, gs, reserved⟩
    cases hFrames
    have hTake : w.heap.take p = ([], w.heap) :=
      Heap.take_eq_of_handles (Nat.ne_of_gt hShared)
    have hStep :
        Moment.step
            ⟨w, .activation u (v :: ws) :: fs, reserved⟩
            .reclaim =
          ⟨w, .value v :: .activation u ws :: fs,
            reserved⟩ := by
      simp only [Moment.step, Heap.step, hPayload, hTake,
        List.nil_append, List.cons_append]
    rcases exists_run_reclaim w [.value v]
        (.activation u ws :: fs) reserved with
      ⟨n, hRun⟩
    refine ⟨n + 1, ?_⟩
    rw [List.replicate_succ, run_cons, hStep]
    exact
      hRun.trans
        (by rw [World.reclaim, hReclaim])

/-
  At every moment of every run, whatever value is dropped is
  dropped as by the recursion, and if only values that are
  around are cloned, a value with a shared payload loses its
  handles alone.
-/
theorem worklist_is_recursion
    (provides : UInt64 → Bool)
    (moves : List (Move κ)) :
    (∀ v fs,
      ((fresh provides).run moves).frames =
          .value v :: fs →
        ((fresh provides).run moves).Drops v fs
          (((fresh provides).run moves).world.heap.dropValue
            v)) ∧
      ((fresh provides).Copied moves →
        ((fresh provides).run moves).Spares) := by
  have hSound := sound_run_fresh provides moves
  constructor
  · intro v fs hFrames
    exact hSound.drops hFrames
  · intro hCopied
    exact
      (paired_run_fresh provides moves hCopied).spares hSound

/-
  A list holds a closure of another collector, whose code has
  captured the only handle of a list.  Its first handle is
  dropped while there is another, and then that one is.
-/
theorem worklist_is_recursion_captured :
    (∃ m : Moment Unit,
      (fresh (fun _ => true)).run
          [.act (.newCollector .standard),
            .act (.clone (.value (.integer 7))),
            .openArray 0 .list 1,
            .closeArray 0 .list [⟨0⟩],
            .act (.newCode () [⟨1⟩] []),
            .act (.clone (.value (.integer 5))),
            .openArray 1 (.closure ⟨2⟩) 1,
            .closeArray 0 (.closure ⟨2⟩) [⟨3⟩],
            .openArray 0 .list 1,
            .closeArray 0 .list [⟨4⟩],
            .act (.clone (.value (.list 3))),
            .act (.drop ⟨5⟩)] = m ∧
        m.frames = [.value (.list 3)] ∧
        m.world.heap.handles 3 = 2 ∧ m.Spares) ∧
      ∃ m : Moment Unit,
        (fresh (fun _ => true)).run
            [.act (.newCollector .standard),
              .act (.clone (.value (.integer 7))),
              .openArray 0 .list 1,
              .closeArray 0 .list [⟨0⟩],
              .act (.newCode () [⟨1⟩] []),
              .act (.clone (.value (.integer 5))),
              .openArray 1 (.closure ⟨2⟩) 1,
              .closeArray 0 (.closure ⟨2⟩) [⟨3⟩],
              .openArray 0 .list 1,
              .closeArray 0 .list [⟨4⟩],
              .act (.drop ⟨5⟩)] = m ∧
          m.frames = [.value (.list 3)] ∧
          m.Drops (.list 3) []
            (m.world.heap.dropValue (.list 3)) := by
  refine ⟨⟨_, rfl, rfl, rfl, ?_⟩, ⟨_, rfl, rfl, ?_⟩⟩
  · apply (worklist_is_recursion (fun _ => true) _).2
    exact
      ⟨trivial, (fun h => by cases h), trivial, trivial,
        trivial, (fun h => by cases h), trivial, trivial,
        trivial, trivial, (fun _ => Or.inl ⟨⟨5⟩, rfl⟩),
        trivial, trivial⟩
  · exact
      (worklist_is_recursion (fun _ => true) _).1 _ _ rfl

end Moment

end LeasedHeap
