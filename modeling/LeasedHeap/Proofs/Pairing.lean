import LeasedHeap.Proofs.Origins
import LeasedHeap.Proofs.Soundness

/-
  An environment is never without its code.

  Values that refer to one payload are one value: a list or
  closure is made with a payload of its own, and after that
  programs clone the values that they find.  So whoever
  counts a handle of an environment counts one of the code as
  well, and a code is not given up for good as long as the
  environment is shared.

  Key definitions include:
    * `Moment.Around`
    * `Moment.Copied`
    * `Moment.Paired`

  Main declarations:
    * `Moment.Paired.run`
    * `Moment.Paired.handles_le`
-/

namespace LeasedHeap

namespace Moment

variable {κ : Type}
variable {m : Moment κ}

------------------------------------------------------------
-- Values around a Moment
------------------------------------------------------------

/- A value that a handle, an object or a frame has. -/
def Around
    (m : Moment κ)
    (v : Value) : Prop :=
  m.world.Has v ∨ ∃ f ∈ m.frames, v ∈ f.values

/- A value that is cloned is one that is around. -/
def Copies
    (m : Moment κ) : Move κ → Prop
| .act (.clone (.value v)) => v.isNested → m.world.Has v
| _ => True

/- All values that are cloned in a run are around then. -/
def Copied
    (m : Moment κ) : List (Move κ) → Prop
| [] => True
| v :: vs => m.Copies v ∧ (m.step v).Copied vs

/-
  Values around that refer to one payload are one value, and
  among the frames that wait only codes are given up without
  a value.
-/
structure Paired (m : Moment κ) : Prop where
  one :
    ∀ v w p, m.Around v → m.Around w →
      v.payload? = some p → w.payload? = some p → v = w
  codes :
    ∀ i, .handle i ∈ m.frames.tail →
      m.world.heap.kind? i = some .code

theorem paired_fresh
    (provides : UInt64 → Bool) :
    (fresh provides : Moment κ).Paired := by
  constructor
  · rintro v w p ((⟨x, hx⟩ | ⟨i, o, hGet, _⟩) | ⟨f, hf, _⟩)
    · simp [fresh, World.fresh, World.value?, World.ref?]
        at hx
    · simp [fresh, World.fresh, Heap.fresh] at hGet
    · cases hf
  · intro i hi
    cases hi

/- What is around refers to what it says. -/
theorem Sound.kind?_of_around
    (hSound : m.Sound)
    {v : Value}
    (hAround : m.Around v)
    {l : Link}
    (hl : l ∈ v.links) :
    m.world.heap.kind? l.1 = some l.2 := by
  rcases hAround with (⟨x, hx⟩ | ⟨i, o, hGet, hMem⟩) |
    ⟨f, hf, hv⟩
  · exact
      hSound.admitted x _ (World.ref?_of_value? hx) l hl
  · refine hSound.exact.typed i o hGet l ?_
    exact
      List.mem_append_left _
        (List.mem_flatMap.mpr ⟨v, hMem, hl⟩)
  · exact hSound.typed f hf v hv l hl

------------------------------------------------------------
-- Moves of Programs
------------------------------------------------------------

/- What frames are left to drop was had before. -/
private theorem around_of_brings
    {w w' : World κ}
    {fs : List Frame}
    {made : Option Value}
    (hBrings : w.Brings w' made.toList)
    (hFrames : ∀ f ∈ fs, ∀ v ∈ f.values, w.Has v)
    (reserved : List Lease)
    {v : Value}
    (hv : v.isNested)
    (hAround : Around ⟨w', fs, reserved⟩ v) :
    w.Has v ∨ v ∈ made := by
  rcases hAround with hHas | ⟨f, hf, hMem⟩
  · exact
      (hBrings v hv hHas).imp id Option.mem_toList.mp
  · exact Or.inl (hFrames f hf v hMem)

/- No action makes a value but copies of those that it finds. -/
private theorem around_act
    {w : World κ}
    {reserved : List Lease}
    (a : Action κ)
    (hCopies : (⟨w, [], reserved⟩ : Moment κ).Copies (.act a))
    {v : Value}
    (hv : v.isNested)
    (hAround :
      (start ⟨w, [], reserved⟩ (.act a)).Around v) :
    w.Has v := by
  have hOld :
      ∀ w' fs', w.Brings w' (none : Option Value).toList →
        (∀ f ∈ fs', ∀ v ∈ f.values, w.Has v) →
          Around ⟨w', fs', reserved⟩ v → w.Has v :=
    fun w' fs' hBrings hValues hNow =>
      (around_of_brings hBrings hValues reserved hv
        hNow).resolve_right (by simp)
  have hNone :
      ∀ f ∈ ([] : List Frame), ∀ v ∈ f.values, w.Has v :=
    fun f hf => by cases hf
  cases a with
  | drop x =>
      exact
        hOld _ _ (World.brings_letGo [] w x).1
          (World.brings_letGo [] w x).2 hAround
  | writeValue x i item =>
      exact
        hOld _ _ (World.brings_exchange [] w x i item).1
          (World.brings_exchange [] w x i item).2 hAround
  | newCollector config =>
      exact
        hOld _ _ (World.brings_of_eq rfl rfl) hNone hAround
  | resetPeak c =>
      exact
        hOld _ _ (World.brings_of_eq rfl rfl) hNone hAround
  | allocate c size =>
      exact
        hOld _ _ (World.brings_allocate w c size) hNone
          hAround
  | clone r =>
      have hClone : w.Brings (w.clone r).2 [] := by
        apply World.brings_clone
        rintro v rfl
        exact hCopies
      exact hOld _ _ hClone hNone hAround
  | writeNumber x i n =>
      exact
        hOld _ _ (World.brings_writeNumber w x i n) hNone
          hAround
  | newCode body values codes =>
      exact
        hOld _ _ (World.brings_newCode w body values codes)
          hNone hAround

/-
  After a program's move, what is around was there before, or
  is the one value that the move has made.
-/
theorem around_start
    (hFrames : m.frames = [])
    (move : Move κ)
    (hCopies : m.Copies move) :
    ∃ made : Option Value,
      (∀ v ∈ made,
          v.payload? = some m.world.heap.next) ∧
        ∀ v, v.isNested → (m.start move).Around v →
          m.world.Has v ∨ v ∈ made := by
  rcases m with ⟨w, fs, reserved⟩
  cases hFrames
  have hNone :
      ∀ f ∈ ([] : List Frame), ∀ v ∈ f.values, w.Has v :=
    fun f hf => by cases hf
  have hOld :
      ∀ w' reserved', w.Brings w' [] →
        ∃ made : Option Value,
          (∀ v ∈ made,
              v.payload? = some w.heap.next) ∧
            ∀ v, v.isNested →
              Around ⟨w', [], reserved'⟩ v →
                w.Has v ∨ v ∈ made :=
    fun w' reserved' hBrings =>
      ⟨none, by simp, fun v hv hAround =>
        around_of_brings hBrings hNone reserved' hv hAround⟩
  cases move with
  | act a =>
      exact
        ⟨none, by simp, fun v hv hAround =>
          Or.inl (around_act a hCopies hv hAround)⟩
  | openArray c s hint =>
      have hOpen :=
        World.brings_openArray [] w c s hint
      simp only [start]
      split
      · rename_i r w' hCall
        rw [hCall] at hOpen
        exact hOld _ _ hOpen
      · rename_i hinted w' hCall
        rw [hCall] at hOpen
        exact hOld _ _ hOpen
  | closeArray k s items =>
      simp only [start]
      cases hk : reserved[k]? with
      | none => exact hOld _ _ (.refl w _)
      | some l =>
          rcases World.brings_close w l.owner s l.bytes items
            with ⟨made, hMade, hClose⟩
          exact
            ⟨made, hMade, fun v hv hAround =>
              around_of_brings hClose hNone _ hv hAround⟩
  | enter c args =>
      exact hOld _ _ (World.brings_enter w c args)
  | exit =>
      exact hOld _ _ (World.brings_of_eq rfl rfl)
  | reclaim => exact hOld _ _ (.refl w _)

/- A value with a payload is nested. -/
private theorem isNested_of_payload?
    {v : Value}
    {p : ObjectId}
    (hv : v.payload? = some p) :
    v.isNested := by
  cases v with
  | integer i => cases hv
  | list q => rfl
  | closure c => rfl

/- A value that is around has a payload from before. -/
private theorem Sound.lt_next_of_around
    (hSound : m.Sound)
    {v : Value}
    {p : ObjectId}
    (hAround : m.Around v)
    (hv : v.payload? = some p) :
    p < m.world.heap.next := by
  have hKind :=
    hSound.kind?_of_around hAround (l := (p, .elements))
      (by
        rw [Value.links_eq hv]
        exact List.mem_cons_self ..)
  exact Heap.lt_next_of_kind? hKind

/- A program's move makes no second value of a payload. -/
theorem Paired.start
    (hPaired : m.Paired)
    (hSound : m.Sound)
    (hFrames : m.frames = [])
    (move : Move κ)
    (hCopies : m.Copies move) :
    (m.start move).Paired := by
  rcases around_start hFrames move hCopies with
    ⟨made, hMade, hAround⟩
  constructor
  · intro v w p hv hw hvp hwp
    have hNew :
        ∀ {u}, u ∈ made → u.payload? = some p →
          p = m.world.heap.next := by
      intro u hu hup
      exact
        Option.some.inj (hup.symm.trans (hMade u hu))
    have hOld :
        ∀ {u}, m.world.Has u → u.payload? = some p →
          p ≠ m.world.heap.next := by
      intro u hu hup hEq
      have hLt :=
        hSound.lt_next_of_around (Or.inl hu) hup
      exact Nat.lt_irrefl _ (hEq ▸ hLt)
    rcases hAround v (isNested_of_payload? hvp) hv with
        hv | hv <;>
      rcases hAround w (isNested_of_payload? hwp) hw with
        hw | hw
    · exact
        hPaired.one v w p (Or.inl hv) (Or.inl hw) hvp hwp
    · exact absurd (hNew hw hwp) (hOld hv hvp)
    · exact absurd (hNew hv hvp) (hOld hw hwp)
    · exact Option.some.inj (hv.symm.trans hw)
  · intro i hi
    rcases frames_start hFrames move with
      hNone | ⟨r, hLeft⟩
    · rw [hNone] at hi
      cases hi
    · rw [hLeft] at hi
      cases r <;> cases hi

------------------------------------------------------------
-- Moves of the Reclaimer
------------------------------------------------------------

/- Handles that wait after a step are of codes. -/
private theorem Sound.handle_step
    {w : World κ}
    {f : Frame}
    {fs : List Frame}
    {reserved : List Lease}
    (hSound : Sound ⟨w, f :: fs, reserved⟩)
    {i : ObjectId}
    (hi : .handle i ∈ (w.heap.step f).1.tail) :
    w.heap.kind? i = some .code := by
  cases f with
  | value v =>
      cases hv : v.payload? with
      | none =>
          simp only [Heap.step, hv] at hi
          cases hi
      | some p =>
          simp only [Heap.step, hv] at hi
          cases hi
  | activation v pending =>
      cases pending with
      | nil =>
          cases v with
          | integer n => cases hi
          | list p => cases hi
          | closure c =>
              cases List.mem_singleton.mp hi
              exact
                hSound.typed _ (List.mem_cons_self ..) _
                  (List.mem_cons_self ..) (c.code, .code)
                  (by simp [Value.links])
      | cons u pending =>
          cases hu : u.payload? with
          | none =>
              simp only [Heap.step, hu] at hi
              cases hi
          | some p =>
              simp only [Heap.step, hu, List.tail_cons] at hi
              cases List.mem_singleton.mp hi
  | handle j =>
      simp only [Heap.step] at hi
      have hMem := List.mem_of_mem_tail hi
      rcases Heap.release_cases w.heap j with
        ⟨_, hRelease⟩ | ⟨n, cell, _, hRelease⟩ |
          ⟨n, cell, hGet, _, hRelease⟩
      · rw [hRelease] at hMem
        cases hMem
      · rw [hRelease] at hMem
        cases hMem
      · rw [hRelease] at hMem
        refine
          hSound.exact.typed j _ hGet (i, .code) ?_
        cases cell with
        | payload payload =>
            simp [Cell.dropFrames] at hMem
        | code code =>
            have hCode : i ∈ code.codes := by
              simpa [Cell.dropFrames] using hMem
            exact
              List.mem_append_right _
                (List.mem_map_of_mem hCode)
  | lease l => cases hi

/- A step of the reclaimer moves values and makes none. -/
theorem around_step
    {w : World κ}
    {f : Frame}
    {fs : List Frame}
    {reserved : List Lease}
    {v : Value}
    (hv : v.isNested)
    (hAround :
      Around
        ⟨{ w with heap := (w.heap.step f).2 },
          (w.heap.step f).1 ++ fs, reserved⟩ v) :
    Around ⟨w, f :: fs, reserved⟩ v := by
  have hWanes := Heap.Wanes.step w.heap f
  rcases hAround with (hHeld | hHolds) | ⟨g, hg, hMem⟩
  · exact Or.inl (Or.inl hHeld)
  · exact Or.inl (Or.inr (hWanes.holds hv hHolds))
  · rcases List.mem_append.mp hg with hNew | hRest
    · rcases Heap.values_step hNew hMem with
        hFrame | hHolds
      · exact Or.inr ⟨f, List.mem_cons_self .., hFrame⟩
      · exact Or.inl (Or.inr hHolds)
    · exact Or.inr ⟨g, List.mem_cons_of_mem _ hRest, hMem⟩

/- A step of the reclaimer leaves values paired. -/
theorem Paired.reclaim
    {w : World κ}
    {f : Frame}
    {fs : List Frame}
    {reserved : List Lease}
    (hPaired : Paired ⟨w, f :: fs, reserved⟩)
    (hSound : Sound ⟨w, f :: fs, reserved⟩) :
    Paired
      ⟨{ w with heap := (w.heap.step f).2 },
        (w.heap.step f).1 ++ fs, reserved⟩ := by
  have hWanes := Heap.Wanes.step w.heap f
  constructor
  · intro v u p hv hu hvp hup
    exact
      hPaired.one v u p
        (around_step (isNested_of_payload? hvp) hv)
        (around_step (isNested_of_payload? hup) hu) hvp hup
  · intro i hi
    have hPos :
        0 < Frame.mentions ((w.heap.step f).1 ++ fs) i := by
      refine
        List.count_pos_iff.mpr
          (List.mem_flatMap.mpr
            ⟨.handle i, List.mem_of_mem_tail hi, ?_⟩)
      exact List.mem_singleton.mpr rfl
    have hThere :=
      hSound.exact.step.exists_of_pos
        (Nat.add_pos_right _ (Nat.add_pos_right _ hPos))
    apply hWanes.kind?_eq hThere
    simp only at hi
    cases hNew : (w.heap.step f).1 with
    | nil =>
        rw [hNew, List.nil_append] at hi
        exact hPaired.codes i (List.mem_of_mem_tail hi)
    | cons g gs =>
        rw [hNew, List.cons_append, List.tail_cons] at hi
        rcases List.mem_append.mp hi with hStep | hRest
        · apply hSound.handle_step
          rw [hNew]
          exact hStep
        · exact hPaired.codes i hRest

/- Every move leaves values paired with their payloads. -/
theorem Paired.step
    (hPaired : m.Paired)
    (hSound : m.Sound)
    (move : Move κ)
    (hCopies : m.Copies move) :
    (m.step move).Paired := by
  rcases step_cases m move with
    ⟨hFrames, hStep⟩ | ⟨f, fs, hFrames, hStep⟩ | hStep
  · rw [hStep]
    exact hPaired.start hSound hFrames move hCopies
  · rw [hStep]
    rcases m with ⟨w, gs, reserved⟩
    cases hFrames
    exact hPaired.reclaim hSound
  · rw [hStep]
    exact hPaired

theorem Paired.run
    (hPaired : m.Paired)
    (hSound : m.Sound)
    (moves : List (Move κ))
    (hCopied : m.Copied moves) :
    (m.run moves).Paired := by
  induction moves generalizing m with
  | nil => exact hPaired
  | cons move moves ih =>
      exact
        ih (hPaired.step hSound move hCopied.1)
          (hSound.step move) hCopied.2

/- All that a run of copying moves reaches is paired. -/
theorem paired_run_fresh
    (provides : UInt64 → Bool)
    (moves : List (Move κ))
    (hCopied : (fresh provides).Copied moves) :
    ((fresh provides).run moves).Paired :=
  (paired_fresh provides).run (sound_fresh provides) moves
    hCopied

------------------------------------------------------------
-- Environments and Codes
------------------------------------------------------------

variable {c : Closure}

/- Nothing but elements is an environment. -/
theorem Sound.ne_environment
    (hSound : m.Sound)
    (hClosure : m.Around (.closure c))
    {i : ObjectId}
    {k : Kind}
    (hKind : m.world.heap.kind? i = some k)
    (hNe : k ≠ .elements) :
    i ≠ c.environment := by
  rintro rfl
  have hElements :=
    hSound.kind?_of_around hClosure
      (l := (c.environment, .elements)) (by simp [Value.links])
  exact hNe (Option.some.inj (hKind.symm.trans hElements))

/- A value counts the code if it counts the environment. -/
private theorem Paired.count_le
    (hPaired : m.Paired)
    (hSound : m.Sound)
    (hClosure : m.Around (.closure c))
    {v : Value}
    (hAround : m.Around v) :
    v.objects.count c.environment ≤
      v.objects.count c.code := by
  have hNeCode :
      ∀ d, m.Around (.closure d) →
        d.code ≠ c.environment := by
    intro d hd
    have hKind :=
      hSound.kind?_of_around hd (l := (d.code, .code))
        (by simp [Value.links])
    exact hSound.ne_environment hClosure hKind (by simp)
  cases v with
  | integer i => exact Nat.le_refl _
  | list p =>
      by_cases hp : p = c.environment
      · subst hp
        cases hPaired.one _ _ _ hAround hClosure rfl rfl
      · simp [Value.objects, hp]
  | closure d =>
      by_cases hd : d.environment = c.environment
      · cases
          hPaired.one _ _ _ hAround hClosure
            (congrArg some hd) rfl
        simp [Value.objects, List.count_cons,
          hNeCode c hClosure]
      · simp [Value.objects, List.count_cons,
          hNeCode d hAround, hd]

private theorem Paired.count_flatMap_le
    (hPaired : m.Paired)
    (hSound : m.Sound)
    (hClosure : m.Around (.closure c))
    (vs : List Value)
    (hAround : ∀ v ∈ vs, m.Around v) :
    (vs.flatMap Value.objects).count c.environment ≤
      (vs.flatMap Value.objects).count c.code := by
  induction vs with
  | nil => exact Nat.le_refl _
  | cons v vs ih =>
      rw [List.flatMap_cons, List.count_append,
        List.count_append]
      exact
        Nat.add_le_add
          (hPaired.count_le hSound hClosure
            (hAround v (List.mem_cons_self ..)))
          (ih (fun u hu =>
            hAround u (List.mem_cons_of_mem _ hu)))

/- Objects refer to the code as often. -/
private theorem Paired.inner_le
    (hPaired : m.Paired)
    (hSound : m.Sound)
    (hClosure : m.Around (.closure c)) :
    m.world.heap.inner c.environment ≤
      m.world.heap.inner c.code := by
  apply Table.total_le_total
  intro i o hGet
  have hValues :=
    hPaired.count_flatMap_le hSound hClosure o.cell.values
      (fun v hv => Or.inl (Or.inr ⟨i, o, hGet, hv⟩))
  have hCodes : o.cell.codes.count c.environment = 0 := by
    apply List.count_eq_zero.mpr
    intro hMem
    have hKind :=
      hSound.exact.typed i o hGet (c.environment, .code)
        (List.mem_append_right _ (List.mem_map_of_mem hMem))
    exact hSound.ne_environment hClosure hKind (by simp) rfl
  rw [Cell.objects_eq, List.count_append, List.count_append]
  omega

/- Programs refer to the code as often. -/
private theorem Paired.outer_le
    (hPaired : m.Paired)
    (hSound : m.Sound)
    (hClosure : m.Around (.closure c)) :
    m.world.outer c.environment ≤ m.world.outer c.code := by
  apply Table.total_le_total
  intro k r hGet
  have hRef : m.world.ref? ⟨k⟩ = some r := hGet
  have hOther :
      ∀ i kind, r.links = [(i, kind)] → kind ≠ .elements →
        r.objects.count c.environment = 0 := by
    intro i kind hLinks hNe
    have hKind :=
      hSound.admitted _ _ hRef (i, kind) (by simp [hLinks])
    have hNotHere :=
      hSound.ne_environment hClosure hKind hNe
    simp [Ref.objects, hLinks, hNotHere]
  cases r with
  | value v =>
      have hValue : m.world.value? ⟨k⟩ = some v := by
        unfold World.value?
        rw [hRef]
      have hLe :=
        hPaired.count_le hSound hClosure
          (Or.inl (Or.inl ⟨_, hValue⟩))
      simpa [Ref.objects, Ref.links, Value.objects_eq]
        using hLe
  | array p =>
      rw [hOther p .array rfl (by simp)]
      exact Nat.zero_le _
  | code q =>
      rw [hOther q .code rfl (by simp)]
      exact Nat.zero_le _

/- Frames are to give up the code as often. -/
private theorem Paired.mentions_le
    (hPaired : m.Paired)
    (hSound : m.Sound)
    (hClosure : m.Around (.closure c))
    (hFrames :
      ∀ i, .handle i ∈ m.frames →
        m.world.heap.kind? i = some .code)
    {fs : List Frame}
    (hSub : ∀ f ∈ fs, f ∈ m.frames) :
    Frame.mentions fs c.environment ≤
      Frame.mentions fs c.code := by
  induction fs with
  | nil => exact Nat.le_refl _
  | cons f fs ih =>
      have hRest :=
        ih (fun g hg => hSub g (List.mem_cons_of_mem _ hg))
      have hMem := hSub f (List.mem_cons_self ..)
      rw [Frame.mentions_cons, Frame.mentions_cons]
      refine Nat.add_le_add ?_ hRest
      cases f with
      | value v =>
          exact
            hPaired.count_le hSound hClosure
              (Or.inr ⟨_, hMem, List.mem_singleton.mpr rfl⟩)
      | activation v pending =>
          exact
            hPaired.count_flatMap_le hSound hClosure
              (v :: pending)
              (fun u hu => Or.inr ⟨_, hMem, hu⟩)
      | handle i =>
          have hNe :=
            hSound.ne_environment hClosure (hFrames i hMem)
              (by simp)
          simp [Frame.objects, hNe]
      | lease l => exact Nat.le_refl _

/-
  A code has as many handles as an environment that it goes
  with, while no frame is to give up that environment alone.
-/
theorem Paired.handles_le
    (hPaired : m.Paired)
    (hSound : m.Sound)
    (hClosure : m.Around (.closure c))
    (hFrames :
      ∀ i, .handle i ∈ m.frames →
        m.world.heap.kind? i = some .code) :
    m.world.heap.handles c.environment ≤
      m.world.heap.handles c.code := by
  have hInner := hPaired.inner_le hSound hClosure
  have hOuter := hPaired.outer_le hSound hClosure
  have hMentions :=
    hPaired.mentions_le hSound hClosure hFrames
      (fun _ hf => hf)
  rw [hSound.exact.counted, hSound.exact.counted]
  omega

end Moment

end LeasedHeap
