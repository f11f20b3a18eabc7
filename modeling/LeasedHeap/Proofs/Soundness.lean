import LeasedHeap.Proofs.Reach
import LeasedHeap.Proofs.Turns
import LeasedHeap.Proofs.Waning

/-
  Every moment of every run is sound.

  Between any two moves, also in the middle of a drop, the
  counts of handles are exact, every handle refers to what it
  says, and the books agree.  Each move keeps this, so every
  run does.

  Main declarations:
    * `Moment.Sound`
    * `Moment.Sound.step`
    * `Moment.Sound.run`
    * `Moment.sound_run_fresh`
-/

namespace LeasedHeap

namespace Moment

variable {κ : Type}

------------------------------------------------------------
-- Sound Moments
------------------------------------------------------------

/-
  Counts of handles are exact, with what frames are to give
  up held from outside; handles and values in frames refer to
  what they say; and the books agree.
-/
structure Sound (m : Moment κ) : Prop where
  exact :
    m.world.heap.Exact
      (fun i => m.world.outer i + Frame.mentions m.frames i)
  admitted :
    ∀ x r, m.world.ref? x = some r →
      ∀ l ∈ r.links, m.world.heap.kind? l.1 = some l.2
  typed :
    ∀ f ∈ m.frames, ∀ v ∈ f.values, ∀ l ∈ v.links,
      m.world.heap.kind? l.1 = some l.2
  balanced : m.world.heap.Balanced m.frames m.reserved

variable {w : World κ}
variable {fs : List Frame}
variable {reserved : List Lease}

/- What is in hand of a sound world goes into the frames. -/
theorem sound_of_world
    (hand : List Link)
    (hSound : w.Sound hand)
    (hHand :
      ∀ i, Frame.mentions fs i =
        (hand.map Prod.fst).count i)
    (hValues :
      ∀ f ∈ fs, ∀ v ∈ f.values, ∀ l ∈ v.links, l ∈ hand)
    (hBalanced : w.heap.Balanced fs reserved) :
    Sound ⟨w, fs, reserved⟩ := by
  refine ⟨?_, hSound.admitted, ?_, hBalanced⟩
  · exact hSound.exact.congr (fun i => by rw [hHand i])
  · intro f hf v hv l hl
    exact hSound.inHand l (hValues f hf v hv l hl)

theorem sound_of_empty
    (hSound : w.Sound [])
    (hBalanced : w.heap.Balanced [] reserved) :
    Sound ⟨w, [], reserved⟩ :=
  sound_of_world [] hSound (fun _ => rfl) (by simp) hBalanced

/- When no frame is left, nothing is in hand. -/
theorem Sound.world
    (hSound : Sound ⟨w, [], reserved⟩) :
    w.Sound [] :=
  ⟨hSound.exact, hSound.admitted, by simp⟩

/- At the start there is nothing that could be unsound. -/
theorem sound_fresh
    (provides : UInt64 → Bool) :
    (fresh provides : Moment κ).Sound := by
  have hCounters :
      ∀ c, (Heap.fresh (κ := κ) provides).counters c =
        (Collector.ofConfig .standard).counters := by
    intro c
    unfold Heap.counters Heap.collector Heap.fresh
    cases c <;> rfl
  refine ⟨⟨?_, ?_, ?_, ?_⟩, ?_, ?_, ?_⟩
  · intro i
    simp [fresh, World.fresh, Heap.fresh, Heap.handles,
      Heap.inner, World.outer]
  · intro i o hGet
    simp [fresh, World.fresh, Heap.fresh] at hGet
  · intro i o hGet
    simp [fresh, World.fresh, Heap.fresh] at hGet
  · intro i o hGet
    simp [fresh, World.fresh, Heap.fresh] at hGet
  · intro x r hRef
    simp [fresh, World.fresh, World.ref?] at hRef
  · simp [fresh]
  · have hOwing :
        ∀ f, (Heap.fresh (κ := κ) provides).owing f [] [] =
          0 := by
      intro f
      simp [Heap.owing, Heap.leased, Heap.fresh,
        Frame.leases]
    refine ⟨?_, ?_, ?_, ?_, ?_, ?_, ?_⟩
    · intro f
      exact (hOwing f).symm
    · intro c _
      exact hOwing _
    · intro c
      simp only [fresh, World.fresh, hCounters, hOwing]
      rfl
    · intro c
      simp only [fresh, World.fresh, hCounters]
      rfl
    · intro c
      simp only [fresh, World.fresh, hCounters]
      rfl
    · intro c
      simp only [fresh, World.fresh, hCounters]
      rfl
    · intro c
      simp only [fresh, World.fresh, hCounters]
      rfl

------------------------------------------------------------
-- Actions
------------------------------------------------------------

theorem Sound.newCollector
    (hSound : Sound ⟨w, [], reserved⟩)
    (config : Config) :
    Sound ⟨(w.newCollector config).2, [], reserved⟩ :=
  sound_of_empty (hSound.world.of_objects_eq rfl)
    (hSound.balanced.newCollector config)

theorem Sound.resetPeak
    (hSound : Sound ⟨w, [], reserved⟩)
    (c : CollectorId) :
    Sound ⟨w.resetPeak c, [], reserved⟩ :=
  sound_of_empty (hSound.world.of_objects_eq rfl)
    hSound.balanced.resetPeak

/- A block is made, or the call is refused. -/
theorem Sound.allocate
    (hSound : Sound ⟨w, [], reserved⟩)
    (c : CollectorId)
    (size : UInt64) :
    Sound ⟨(w.allocate c size).2, [], reserved⟩ := by
  unfold World.allocate
  split
  · rename_i hHas
    have hc : c < w.heap.collectors.size := by
      simpa [Heap.hasCollector] using hHas
    rcases hSound.balanced.allocate hc size with
      ⟨heap, hCall, hObjects, hBalanced⟩ |
        ⟨r, heap, hCall, hObjects, hBalanced⟩
    · rw [hCall]
      refine sound_of_empty ?_ hBalanced.issue
      exact
        World.Sound.issue []
          (hSound.world.of_objects_eq hObjects) rfl
    · rw [hCall]
      exact
        sound_of_empty
          (hSound.world.of_objects_eq hObjects) hBalanced
  · exact hSound

/- What is there can have one more handle. -/
theorem Sound.clone
    (hSound : Sound ⟨w, [], reserved⟩)
    (r : Ref) :
    Sound ⟨(w.clone r).2, [], reserved⟩ := by
  unfold World.clone
  split
  · rename_i hAdmits
    have hRetained :=
      hSound.world.retain (World.admits_iff.mp hAdmits)
    exact
      sound_of_empty (World.Sound.hold hRetained)
        (hSound.balanced.retainRef r)
  · exact hSound

/- What a handle held goes into the frames. -/
theorem Sound.letGo
    (hSound : Sound ⟨w, [], reserved⟩)
    (x : Handle) :
    Sound ⟨(w.letGo x).2, (w.letGo x).1, reserved⟩ := by
  unfold World.letGo
  cases hRef : w.ref? x with
  | none => exact hSound
  | some r =>
      refine
        sound_of_world _ (hSound.world.letGo hRef) ?_ ?_ ?_
      · intro i
        cases r <;>
          simp [Ref.frames, Ref.links, Frame.objects,
            Value.objects_eq]
      · cases r <;>
          simp [Ref.frames, Ref.links, Frame.values]
      · refine
          hSound.balanced.of_leased rfl rfl
            (fun _ => rfl) ?_
        cases r <;> rfl

theorem Sound.writeNumber
    (hSound : Sound ⟨w, [], reserved⟩)
    (x : Handle)
    (i : Nat)
    (n : UInt64) :
    Sound ⟨(w.writeNumber x i n).2, [], reserved⟩ := by
  unfold World.writeNumber
  split
  · rename_i p lease width ns hUnique
    rcases World.unique?_eq_some hUnique with ⟨_, hGet⟩
    split
    · refine
        sound_of_empty
          (hSound.world.replace hGet rfl rfl (.refl _)) ?_
      exact
        hSound.balanced.of_leased rfl rfl
          (fun f => Heap.leased_set f hGet rfl) rfl
    · exact hSound
  · exact hSound
  · exact hSound

/- Values with one of them replaced, and the one replaced. -/
private theorem links_set
    {vs : List Value}
    {i : Nat}
    {old : Value}
    (hOld : vs[i]? = some old)
    (v : Value) :
    ((vs.set i v).flatMap Value.links ++ old.links).Perm
      (vs.flatMap Value.links ++ v.links) := by
  rcases List.getElem?_eq_some_iff.mp hOld with ⟨hLt, rfl⟩
  have hNew :=
    (List.set_perm_cons_eraseIdx hLt v).flatMap_right
      Value.links
  have hAll :=
    (List.getElem_cons_eraseIdx_perm hLt).symm.flatMap_right
      Value.links
  rw [List.flatMap_cons] at hNew hAll
  refine (hNew.append_right _).trans ?_
  refine List.Perm.trans ?_ (hAll.symm.append_right _)
  refine List.Perm.trans ?_ List.perm_append_comm
  rw [List.append_assoc]
  exact List.perm_append_comm.append_left _

/- A value of an array is exchanged, and is to be dropped. -/
theorem Sound.exchange
    (hSound : Sound ⟨w, [], reserved⟩)
    (x : Handle)
    (i : Nat)
    (item : Handle) :
    Sound
      ⟨(w.exchange x i item).2, (w.exchange x i item).1,
        reserved⟩ := by
  rcases World.exchange_cases w x i item with
    ⟨hExchange, _⟩ |
      ⟨p, lease, vs, old, v, hUnique, hOld, hItem,
        hExchange, _⟩
  · rw [hExchange]
    exact hSound
  · rcases World.unique?_eq_some hUnique with ⟨_, hGet⟩
    rw [hExchange]
    have hTaken :=
      hSound.world.letGo (World.ref?_of_value? hItem)
    refine
      sound_of_world old.links
        (hTaken.replace hGet rfl rfl ?_) ?_ ?_ ?_
    · simpa [Cell.links, Cell.values, Cell.codes,
        Contents.values, Ref.links] using links_set hOld v
    · intro j
      simp [Frame.objects, Value.objects_eq]
    · simp [Frame.values]
    · exact
        hSound.balanced.of_leased rfl rfl
          (fun f => Heap.leased_set f hGet rfl) rfl

/- A code is made of what handles held. -/
theorem Sound.newCode
    (hSound : Sound ⟨w, [], reserved⟩)
    (body : κ)
    (values codes : List Handle) :
    Sound
      ⟨(w.newCode body values codes).2, [], reserved⟩ := by
  unfold World.newCode
  refine sound_of_empty ?_ ?_
  · have hTaken :=
      (hSound.world.takeValues values).takeCodes codes
    refine World.Sound.issue [] ?_ rfl
    refine hTaken.perm ?_
    simp only [Cell.links, Cell.values, Cell.codes,
      List.append_nil]
    exact List.perm_append_comm
  · simp only [World.issue, World.hold,
      World.heap_takeCodes, World.heap_takeValues]
    exact hSound.balanced.issue_code

/- What begins an action leaves sound frames. -/
theorem Sound.begin
    (hSound : Sound ⟨w, [], reserved⟩)
    (a : Action κ) :
    Sound ⟨(w.begin a).2, (w.begin a).1, reserved⟩ := by
  cases a with
  | newCollector config => exact hSound.newCollector config
  | resetPeak c => exact hSound.resetPeak c
  | allocate c size => exact hSound.allocate c size
  | clone r => exact hSound.clone r
  | drop x => exact hSound.letGo x
  | writeNumber x i n => exact hSound.writeNumber x i n
  | writeValue x i item => exact hSound.exchange x i item
  | newCode body values codes =>
      exact hSound.newCode body values codes

------------------------------------------------------------
-- Array Calls and Applications
------------------------------------------------------------

/- An array call reserves what was announced, or is refused. -/
theorem Sound.openArray
    (hSound : Sound ⟨w, [], reserved⟩)
    (c : CollectorId)
    (s : Shape)
    (hint : UInt64) :
    (Moment.start ⟨w, [], reserved⟩
      (.openArray c s hint)).Sound := by
  simp only [Moment.start, World.openArray]
  by_cases hHas : w.heap.hasCollector c
  · have hc : c < w.heap.collectors.size := by
      simpa [Heap.hasCollector] using hHas
    rw [if_pos hHas]
    rcases hSound.balanced.openArray hc s.width hint with
      ⟨hinted, heap, hCall, hObjects, hBalanced⟩ |
        ⟨r, heap, hCall, hObjects, hBalanced⟩
    · rw [hCall]
      exact
        sound_of_empty
          (hSound.world.of_objects_eq hObjects) hBalanced
    · rw [hCall]
      exact
        sound_of_empty
          (hSound.world.of_objects_eq hObjects) hBalanced
  · rw [if_neg hHas]
    exact hSound

/- An array call has a lease for its items, or is refused. -/
theorem Sound.close
    {k : Nat}
    {c : CollectorId}
    {hinted : UInt64}
    (hSound : Sound ⟨w, [], reserved⟩)
    (hk : reserved[k]? = some ⟨c, hinted⟩)
    (s : Shape)
    (items : List s.Item) :
    Sound
      ⟨w.close c s hinted items, [],
        reserved.eraseIdx k⟩ := by
  unfold World.close
  rcases hSound.balanced.closeArray hk s.width
      items.length with
    ⟨size, heap, hCall, hObjects, hBalanced⟩ |
      ⟨r, heap, hCall, hObjects, hBalanced⟩
  · rw [hCall]
    have hGranted :
        ({ w with heap } : World κ).Sound [] :=
      hSound.world.of_objects_eq hObjects
    refine
      sound_of_empty (hGranted.store ⟨c, size⟩ s items) ?_
    rcases World.heap_store { w with heap } ⟨c, size⟩ s
        items with
      ⟨contents, hStore⟩
    simp only
    rw [hStore]
    exact hBalanced.issue
  · rw [hCall]
    exact
      sound_of_empty
        (hSound.world.of_objects_eq hObjects) hBalanced

/- A notice of an application is about no lease. -/
theorem Sound.record
    {e : Event}
    (hSound : Sound ⟨w, [], reserved⟩)
    (hIssued : e.issued? = none)
    (hReturned : e.returned? = none) :
    Sound ⟨w.record e, [], reserved⟩ := by
  refine
    sound_of_empty (hSound.world.of_objects_eq rfl) ?_
  refine
    hSound.balanced.of_counters (Nat.le_refl _)
      (fun _ => rfl) ?_ ?_ (fun _ => rfl)
  · exact List.filterMap_cons_none hIssued
  · exact List.filterMap_cons_none hReturned

theorem Sound.countRun
    (hSound : Sound ⟨w, [], reserved⟩)
    (q : ObjectId) :
    Sound ⟨w.countRun q, [], reserved⟩ := by
  refine sound_of_empty (hSound.world.countRun q) ?_
  unfold World.countRun
  split
  · rename_i n code hGet
    exact
      hSound.balanced.of_leased rfl rfl
        (fun f => Heap.leased_set f hGet rfl) rfl
  · exact hSound.balanced

theorem Sound.enter
    (hSound : Sound ⟨w, [], reserved⟩)
    (c : Closure)
    (args : Nat) :
    Sound ⟨w.enter c args, [], reserved⟩ := by
  unfold World.enter
  split
  · rename_i env code hEnv hCode
    have hEntered :=
      hSound.record (e := .enter env.length args) rfl rfl
    simp only
    split
    · exact hEntered.countRun c.code
    · exact (hEntered.record rfl rfl).record rfl rfl
  · exact hSound

/- Whatever a program does next, it leaves a sound moment. -/
theorem Sound.start
    (hSound : Sound ⟨w, [], reserved⟩)
    (v : Move κ) :
    (Moment.start ⟨w, [], reserved⟩ v).Sound := by
  cases v with
  | act a => exact hSound.begin a
  | openArray c s hint => exact hSound.openArray c s hint
  | closeArray k s items =>
      simp only [Moment.start]
      cases hk : reserved[k]? with
      | none => exact hSound
      | some l => exact hSound.close hk s items
  | enter c args => exact hSound.enter c args
  | exit => exact hSound.record rfl rfl
  | reclaim => exact hSound

------------------------------------------------------------
-- Runs
------------------------------------------------------------

/- A step of the reclaimer leaves a sound moment. -/
theorem Sound.reclaim
    {f : Frame}
    (hSound : Sound ⟨w, f :: fs, reserved⟩) :
    Sound
      ⟨{ w with heap := (w.heap.step f).2 },
        (w.heap.step f).1 ++ fs, reserved⟩ := by
  refine
    ⟨hSound.exact.step, ?_,
      hSound.exact.typed_step hSound.typed,
      hSound.balanced.step⟩
  intro x r hRef l hl
  rcases Heap.kind?_eq_some_iff.mp
      (hSound.admitted x r hRef l hl) with
    ⟨o, hGet, hKind⟩
  have hRoot : 0 < w.outer l.1 :=
    World.roots_iff.mp
      ⟨x, r, hRef, List.mem_map_of_mem hl⟩
  rcases hSound.exact.cell_step (.root hRoot) hGet with
    ⟨o', hGet', hCell⟩
  exact
    Heap.kind?_eq_some_iff.mpr
      ⟨o', hGet', hCell ▸ hKind⟩

/- Every move leaves a sound moment. -/
theorem Sound.step
    {m : Moment κ}
    (hSound : m.Sound)
    (v : Move κ) :
    (m.step v).Sound := by
  rcases step_cases m v with
    ⟨hFrames, hStep⟩ | ⟨f, fs, hFrames, hStep⟩ | hStep
  · rw [hStep]
    rcases m with ⟨w, fs, reserved⟩
    cases hFrames
    exact hSound.start v
  · rw [hStep]
    rcases m with ⟨w, gs, reserved⟩
    cases hFrames
    exact hSound.reclaim
  · rw [hStep]
    exact hSound

theorem Sound.run
    {m : Moment κ}
    (hSound : m.Sound)
    (moves : List (Move κ)) :
    (m.run moves).Sound := by
  induction moves generalizing m with
  | nil => exact hSound
  | cons v moves ih => exact ih (hSound.step v)

/- Every moment that can be reached is sound. -/
theorem sound_run_fresh
    (provides : UInt64 → Bool)
    (moves : List (Move κ)) :
    ((fresh provides).run moves).Sound :=
  (sound_fresh provides).run moves

end Moment

end LeasedHeap
