import LeasedHeap.Proofs.Interleaving
import LeasedHeap.Proofs.Reach
import LeasedHeap.Proofs.Waning

/-
  The handles of threads that share a heap.

  A thread has the handles of the values that it holds, those
  that it has counted for a clone which is not done, and
  those that it is still to give up: pending items and drops
  that are half done.  With all of these held from outside
  the counts of handles are exact after every turn, so an
  object whose single handle a thread finds is referred to by
  no object, by nobody else and by that thread only once.

  Key definitions include:
    * `Hand.handles` and `Crew.handles`
    * `Hand.Acts`
    * `Crew.Shares`
    * `Crew.Sole`

  Main declarations:
    * `Hand.acts_step`
    * `Hand.Acts.exact` and `Hand.Acts.cell`
    * `Crew.Shares.step` and `Crew.Shares.run`
    * `Crew.Shares.cell_step`
-/

namespace LeasedHeap

------------------------------------------------------------
-- Handles of a Thread
------------------------------------------------------------

namespace Hand

variable {κ : Type}

/- The handles of an object counted for a clone under way. -/
def copied
    (th : Hand)
    (i : ObjectId) : Nat :=
  match th.cloning with
  | none => 0
  | some (v, is) => v.objects.count i - is.count i

/- The handles of an object that a thread keeps for now. -/
def kept
    (th : Hand)
    (i : ObjectId) : Nat :=
  (th.values.flatMap Value.objects).count i + th.copied i

/- The handles of an object that a thread has. -/
def handles
    (th : Hand)
    (i : ObjectId) : Nat :=
  th.kept i + Frame.mentions th.frames i

/-
  What a thread refers to is what it says, and what is being
  cloned is held, with some of its handles left to count.
-/
structure Typed
    (h : Heap κ)
    (th : Hand) : Prop where
  values :
    ∀ v ∈ th.values, ∀ l ∈ v.links,
      h.kind? l.1 = some l.2
  frames :
    ∀ f ∈ th.frames, ∀ v ∈ f.values, ∀ l ∈ v.links,
      h.kind? l.1 = some l.2
  cloning :
    ∀ v is, th.cloning = some (v, is) →
      v ∈ th.values ∧ is <:+ v.objects

/- What a thread holds when it starts are its values. -/
theorem handles_ofErrands
    (values : List Value)
    (errands : List Errand)
    (i : ObjectId) :
    (ofErrands values errands).handles i =
      (values.flatMap Value.objects).count i := by
  simp [handles, kept, copied, ofErrands]

/- A value that is held has its handles kept. -/
theorem kept_pos
    {th : Hand}
    {v : Value}
    {l : Link}
    (hv : v ∈ th.values)
    (hl : l ∈ v.links) :
    0 < th.kept l.1 := by
  have hMem : l.1 ∈ v.objects := by
    rw [Value.objects_eq]
    exact List.mem_map_of_mem hl
  have hCount :
      0 < (th.values.flatMap Value.objects).count l.1 :=
    List.count_pos_iff.mpr
      (List.mem_flatMap.mpr ⟨v, hv, hMem⟩)
  unfold kept
  omega

/-
  A thread refers to what it says as long as what it has
  handles of is of the same kind.
-/
theorem Typed.of_kinds
    {h h' : Heap κ}
    {th : Hand}
    (hTyped : th.Typed h)
    (hKinds :
      ∀ l : Link, 0 < th.handles l.1 →
        h.kind? l.1 = some l.2 → h'.kind? l.1 = some l.2) :
    th.Typed h' := by
  refine ⟨?_, ?_, hTyped.cloning⟩
  · intro v hv l hl
    have hPos := kept_pos hv hl
    apply hKinds l _ (hTyped.values v hv l hl)
    unfold handles
    omega
  · intro f hf v hv l hl
    have hPos : 0 < Frame.mentions th.frames l.1 :=
      List.count_pos_iff.mpr
        (List.mem_flatMap.mpr
          ⟨f, hf, Frame.mem_objects hv hl⟩)
    apply hKinds l _ (hTyped.frames f hf v hv l hl)
    unfold handles
    omega

------------------------------------------------------------
-- Turns
------------------------------------------------------------

/-
  What a thread may do in its turn: end the return of a lease
  or go on with it, begin one, do the next thing of a frame,
  count a handle of a clone, have the clone, or start an
  errand.
-/
inductive Acts
    (h : Heap κ)
    (th : Hand) : Heap κ → Hand → Prop where
| ends (c : CollectorId) :
    th.returning = some (c, .done ()) →
      Acts h th h { th with returning := none }
| advances (c : CollectorId) (s : Steps Unit) :
    th.returning = some (c, s) → s ≠ .done () →
      Acts h th (h.advance c s).2
        { th with returning := some (c, (h.advance c s).1) }
| returns (l : Lease) (fs : List Frame) :
    th.returning = none → th.frames = .lease l :: fs →
      Acts h th h
        { th with
          frames := fs
          returning :=
            some (l.owner, Steps.release l.bytes) }
| reclaims (f : Frame) (fs : List Frame) :
    th.returning = none → th.frames = f :: fs →
      (∀ l, f ≠ .lease l) →
        Acts h th (h.step f).2
          { th with frames := (h.step f).1 ++ fs }
| counts (v : Value) (i : ObjectId) (is : List ObjectId) :
    th.returning = none → th.frames = [] →
      th.cloning = some (v, i :: is) →
        Acts h th (h.retain i)
          { th with cloning := some (v, is) }
| clones (v : Value) :
    th.returning = none → th.frames = [] →
      th.cloning = some (v, []) →
        Acts h th h
          { th with
            values := th.values ++ [v]
            cloning := none }
| starts :
    th.returning = none → th.frames = [] →
      th.cloning = none →
        Acts h th h th.start

/- Every turn of a thread is one of these. -/
theorem acts_step
    (h : Heap κ)
    (th : Hand) :
    th.Acts h (th.step h).1 (th.step h).2 := by
  rcases hReturning : th.returning with _ | ⟨c, s⟩
  · simp only [step, hReturning]
    rcases hFrames : th.frames with _ | ⟨f, fs⟩
    · simp only [reclaim, hFrames]
      rcases hCloning : th.cloning with _ | ⟨v, is⟩
      · simp only [clone, hCloning]
        exact .starts hReturning hFrames hCloning
      · cases is with
        | nil =>
            simp only [clone, hCloning]
            exact .clones v hReturning hFrames hCloning
        | cons i is =>
            simp only [clone, hCloning]
            exact .counts v i is hReturning hFrames hCloning
    · cases f with
      | lease l =>
          simp only [reclaim, hFrames]
          exact .returns l fs hReturning hFrames
      | value v =>
          simp only [reclaim, hFrames]
          exact
            .reclaims (.value v) fs hReturning hFrames
              (fun _ h => by cases h)
      | activation v pending =>
          simp only [reclaim, hFrames]
          exact
            .reclaims (.activation v pending) fs hReturning hFrames
              (fun _ h => by cases h)
      | handle i =>
          simp only [reclaim, hFrames]
          exact
            .reclaims (.handle i) fs hReturning hFrames
              (fun _ h => by cases h)
  · cases s with
    | done u =>
        simp only [step, hReturning]
        exact .ends c hReturning
    | act op rest =>
        simp only [step, hReturning]
        exact
          .advances c (.act op rest) hReturning
            (fun h => by cases h)
    | note n rest =>
        simp only [step, hReturning]
        exact
          .advances c (.note n rest) hReturning
            (fun h => by cases h)

end Hand

------------------------------------------------------------
-- What a Turn Does to Objects
------------------------------------------------------------

namespace Heap

variable {κ : Type}
variable {h h' : Heap κ}

/- A call on a collector changes no object. -/
@[simp]
theorem objects_advance
    {α : Type}
    (h : Heap κ)
    (c : CollectorId)
    (s : Steps α) :
    (h.advance c s).2.objects = h.objects := by
  cases s <;> rfl

/- An object keeps its cell if it gets one more handle. -/
theorem cell_retain
    {i : ObjectId}
    {o : Object κ}
    (j : ObjectId)
    (hGet : h.objects.get? i = some o) :
    ∃ o', (h.retain j).objects.get? i = some o' ∧
      o'.cell = o.cell := by
  unfold retain
  split
  · rename_i old hOld
    simp only [Table.get?_set]
    split
    · rename_i hi
      rw [hi.1, hOld] at hGet
      cases hGet
      exact ⟨_, rfl, rfl⟩
    · exact ⟨o, hGet, rfl⟩
  · exact ⟨o, hGet, rfl⟩

/- Only a payload with a single handle is taken apart. -/
private theorem cell_take
    {i : ObjectId}
    {o : Object κ}
    (p : ObjectId)
    (hGet : h.objects.get? i = some o) :
    (∃ o', (h.take p).2.objects.get? i = some o' ∧
        o'.cell = o.cell) ∨
      (i = p ∧ h.handles i = 1) := by
  by_cases hOne : h.handles p = 1
  · by_cases hi : i = p
    · exact Or.inr ⟨hi, hi ▸ hOne⟩
    · exact
        Or.inl
          ⟨o, by rw [get?_take_of_ne hi, hGet], rfl⟩
  · exact Or.inl ⟨o, by rw [take_eq_of_handles hOne, hGet], rfl⟩

/- Only an object with a single handle goes. -/
private theorem cell_release
    {i : ObjectId}
    {o : Object κ}
    (p : ObjectId)
    (hGet : h.objects.get? i = some o)
    (hHeld : 0 < o.handles) :
    (∃ o', (h.release p).2.objects.get? i = some o' ∧
        o'.cell = o.cell) ∨
      (i = p ∧ h.handles i = 1) := by
  rcases release_cases h p with
    ⟨_, hRelease⟩ | ⟨n, cell, hOld, hRelease⟩ |
      ⟨n, cell, hOld, hLast, hRelease⟩
  · rw [hRelease]
    exact Or.inl ⟨o, hGet, rfl⟩
  · rw [hRelease]
    simp only [Table.get?_set]
    split
    · rename_i hi
      rw [hi.1, hOld] at hGet
      cases hGet
      exact Or.inl ⟨_, rfl, rfl⟩
    · exact Or.inl ⟨o, hGet, rfl⟩
  · rw [hRelease]
    simp only [Table.get?_erase]
    split
    · rename_i hi
      refine Or.inr ⟨hi, ?_⟩
      rw [hi, hOld] at hGet
      cases hGet
      rw [hi, handles_of_get? hOld]
      exact Nat.le_antisymm hLast hHeld
    · exact Or.inl ⟨o, hGet, rfl⟩

/-
  What a step of the reclaimer takes apart or erases has a
  single handle, and the frame mentions it.
-/
theorem cell_or_last_step
    {f : Frame}
    {i : ObjectId}
    {o : Object κ}
    (hGet : h.objects.get? i = some o)
    (hHeld : 0 < o.handles) :
    (∃ o', (h.step f).2.objects.get? i = some o' ∧
        o'.cell = o.cell) ∨
      (h.handles i = 1 ∧ 0 < f.objects.count i) := by
  have hSame :
      ∃ o', h.objects.get? i = some o' ∧ o'.cell = o.cell :=
    ⟨o, hGet, rfl⟩
  cases f with
  | value v =>
      cases hv : v.payload? with
      | none =>
          simp only [Heap.step, hv]
          exact Or.inl hSame
      | some p =>
          simp only [Heap.step, hv]
          refine (cell_take p hGet).imp_right ?_
          rintro ⟨rfl, hOne⟩
          exact
            ⟨hOne,
              List.count_pos_iff.mpr
                (Value.mem_objects_of_payload? hv)⟩
  | activation v pending =>
      cases pending with
      | nil => exact Or.inl hSame
      | cons w pending =>
          cases hw : w.payload? with
          | none =>
              simp only [Heap.step, hw]
              exact Or.inl hSame
          | some p =>
              simp only [Heap.step, hw]
              refine (cell_take p hGet).imp_right ?_
              rintro ⟨rfl, hOne⟩
              refine ⟨hOne, List.count_pos_iff.mpr ?_⟩
              refine List.mem_append_right _ ?_
              exact
                List.mem_flatMap.mpr
                  ⟨w, List.mem_cons_self ..,
                    Value.mem_objects_of_payload? hw⟩
  | handle p =>
      refine (cell_release p hGet hHeld).imp_right ?_
      rintro ⟨rfl, hOne⟩
      exact ⟨hOne, by simp [Frame.objects]⟩
  | lease l => exact Or.inl hSame

end Heap

namespace Hand

variable {κ : Type}
variable {h h' : Heap κ}
variable {th th' : Hand}
variable {outer : ObjectId → Nat}

/-
  An object that a turn takes apart or erases has a single
  handle, which the thread is about to give up.
-/
theorem Acts.cell
    (hActs : th.Acts h h' th')
    (hExact : h.Exact (fun i => outer i + th.handles i))
    {i : ObjectId}
    {o : Object κ}
    (hGet : h.objects.get? i = some o) :
    (∃ o', h'.objects.get? i = some o' ∧
        o'.cell = o.cell) ∨
      (h.handles i = 1 ∧
        0 < Frame.mentions th.frames i) := by
  cases hActs with
  | ends c _ => exact Or.inl ⟨o, hGet, rfl⟩
  | advances c s _ _ =>
      rw [Heap.objects_advance]
      exact Or.inl ⟨o, hGet, rfl⟩
  | returns l fs _ _ => exact Or.inl ⟨o, hGet, rfl⟩
  | reclaims f fs _ hFrames _ =>
      refine
        (Heap.cell_or_last_step hGet
          (hExact.held i o hGet)).imp_right ?_
      rintro ⟨hOne, hCount⟩
      refine ⟨hOne, ?_⟩
      rw [hFrames, Frame.mentions_cons]
      omega
  | counts v j is _ _ _ => exact Or.inl (Heap.cell_retain j hGet)
  | clones v _ _ _ => exact Or.inl ⟨o, hGet, rfl⟩
  | starts _ _ _ => exact Or.inl ⟨o, hGet, rfl⟩

/- What others reach keeps its cell in a thread's turn. -/
theorem Acts.cell_of_reaches
    (hActs : th.Acts h h' th')
    (hExact : h.Exact (fun i => outer i + th.handles i))
    {i : ObjectId}
    {o : Object κ}
    (hReach : h.Reaches (fun j => 0 < outer j) i)
    (hGet : h.objects.get? i = some o) :
    ∃ o', h'.objects.get? i = some o' ∧
      o'.cell = o.cell := by
  rcases hActs.cell hExact hGet with hSame | ⟨hOne, hPos⟩
  · exact hSame
  · have hCounted := hExact.counted i
    rw [hOne, handles] at hCounted
    exact
      absurd hReach
        (Heap.not_reaches (by omega) (by omega))

/-
  What others refer to, or the thread keeps for now, is of
  the kind that it was.
-/
theorem Acts.kind?_eq
    (hActs : th.Acts h h' th')
    (hExact : h.Exact (fun i => outer i + th.handles i))
    {i : ObjectId}
    {k : Kind}
    (hPos : 0 < outer i + th.kept i)
    (hKind : h.kind? i = some k) :
    h'.kind? i = some k := by
  rcases Heap.kind?_eq_some_iff.mp hKind with ⟨o, hGet, rfl⟩
  rcases hActs.cell hExact hGet with
    ⟨o', hGet', hCell⟩ | ⟨hOne, hMention⟩
  · exact
      Heap.kind?_eq_some_iff.mpr
        ⟨o', hGet', congrArg Cell.kind hCell⟩
  · have hCounted := hExact.counted i
    rw [hOne, handles] at hCounted
    omega

------------------------------------------------------------
-- What a Turn Does to Handles
------------------------------------------------------------

/- A value that leaves a list leaves it with its handles. -/
private theorem count_eraseIdx
    {vs : List Value}
    {k : Nat}
    {v : Value}
    (hk : vs[k]? = some v)
    (i : ObjectId) :
    (vs.flatMap Value.objects).count i =
      ((vs.eraseIdx k).flatMap Value.objects).count i +
        v.objects.count i := by
  rcases List.getElem?_eq_some_iff.mp hk with ⟨hLt, rfl⟩
  have hPerm :=
    (List.getElem_cons_eraseIdx_perm hLt).flatMap_right
      Value.objects
  have hCount := hPerm.count_eq i
  rw [List.flatMap_cons, List.count_append] at hCount
  omega

/- To start an errand moves handles within a thread. -/
private theorem handles_start
    (hFrames : th.frames = [])
    (hCloning : th.cloning = none)
    (i : ObjectId) :
    th.start.handles i = th.handles i := by
  rcases hErrands : th.errands with _ | ⟨e, errands⟩
  · simp only [start, hErrands]
  · cases e with
    | clone k =>
        simp only [start, hErrands, handles, kept, copied,
          hCloning]
        cases th.values[k]? <;> simp
    | drop k =>
        simp only [start, hErrands, handles, kept, copied,
          hCloning, hFrames]
        cases hk : th.values[k]? with
        | none =>
            rw [List.eraseIdx_of_length_le
              (List.getElem?_eq_none_iff.mp hk)]
            rfl
        | some v =>
            have hErase := count_eraseIdx hk i
            simp [Frame.objects]
            omega

/- Handles that are still to be counted are of the value. -/
private theorem count_suffix
    {js is : List ObjectId}
    (hSuffix : js <:+ is)
    (i : ObjectId) :
    js.count i ≤ is.count i :=
  hSuffix.sublist.count_le i

/- What a thread keeps is held from outside its frames. -/
private theorem exact_frames
    {fs : List Frame}
    (hExact : h.Exact (fun i => outer i + th.handles i))
    (hFrames : th.frames = fs) :
    h.Exact
      (fun i =>
        (outer i + th.kept i) + Frame.mentions fs i) :=
  hExact.congr (fun i => by
    rw [handles, hFrames, Nat.add_assoc])

/- The counts stay exact in a thread's turn. -/
theorem Acts.exact
    (hActs : th.Acts h h' th')
    (hExact : h.Exact (fun i => outer i + th.handles i))
    (hTyped : th.Typed h) :
    h'.Exact (fun i => outer i + th'.handles i) := by
  cases hActs with
  | ends c _ => exact hExact
  | advances c s _ _ =>
      exact hExact.of_objects_eq (Heap.objects_advance ..)
  | returns l fs _ hFrames =>
      refine hExact.congr (fun i => ?_)
      simp [handles, kept, copied, hFrames, Frame.objects]
  | reclaims f fs _ hFrames _ =>
      refine
        (exact_frames hExact hFrames).step.congr
          (fun i => ?_)
      rw [handles, Nat.add_assoc]
      rfl
  | counts v i is _ hFrames hCloning =>
      rcases hTyped.cloning v (i :: is) hCloning with
        ⟨hMem, hSuffix⟩
      have hObject : i ∈ v.objects :=
        hSuffix.subset (List.mem_cons_self ..)
      rw [Value.objects_eq] at hObject
      rcases List.mem_map.mp hObject with ⟨l, hl, rfl⟩
      refine
        (hExact.retain
          ⟨l.2, hTyped.values v hMem l hl⟩).congr ?_
      intro j
      have hCount := count_suffix hSuffix j
      simp only [handles, kept, copied, hCloning,
        List.count_cons, List.count_nil] at hCount ⊢
      omega
  | clones v _ _ hCloning =>
      refine hExact.congr (fun i => ?_)
      simp [handles, kept, copied, hCloning]
  | starts _ hFrames hCloning =>
      exact
        hExact.congr
          (fun i => by rw [handles_start hFrames hCloning])

/- An errand starts with what the thread refers to. -/
private theorem typed_start
    (hTyped : th.Typed h)
    (hCloning : th.cloning = none) :
    th.start.Typed h := by
  rcases hErrands : th.errands with _ | ⟨e, errands⟩
  · simpa only [start, hErrands] using hTyped
  · cases e with
    | clone k =>
        simp only [start, hErrands]
        refine ⟨hTyped.values, hTyped.frames, ?_⟩
        intro v is hSome
        rcases Option.map_eq_some_iff.mp hSome with
          ⟨u, hu, hEq⟩
        cases hEq
        exact ⟨List.mem_of_getElem? hu, List.suffix_refl _⟩
    | drop k =>
        simp only [start, hErrands]
        refine ⟨?_, ?_, ?_⟩
        · intro v hv
          exact hTyped.values v (List.mem_of_mem_eraseIdx hv)
        · intro f hf v hv
          rcases List.mem_map.mp hf with ⟨u, hu, rfl⟩
          rcases List.mem_singleton.mp hv with rfl
          have hSome : th.values[k]? = some v :=
            Option.mem_toList.mp hu
          exact hTyped.values v (List.mem_of_getElem? hSome)
        · intro v is hSome
          simp only [hCloning] at hSome
          cases hSome

/- What a thread refers to stays what it says. -/
theorem Acts.typed
    (hActs : th.Acts h h' th')
    (hExact : h.Exact (fun i => outer i + th.handles i))
    (hTyped : th.Typed h) :
    th'.Typed h' := by
  have hValues :
      ∀ v ∈ th.values, ∀ l ∈ v.links,
        h'.kind? l.1 = some l.2 := by
    intro v hv l hl
    have hPos := kept_pos hv hl
    exact
      hActs.kind?_eq hExact (by omega)
        (hTyped.values v hv l hl)
  cases hActs with
  | ends c _ => exact ⟨hValues, hTyped.frames, hTyped.cloning⟩
  | advances c s _ _ =>
      refine ⟨hValues, ?_, hTyped.cloning⟩
      intro f hf v hv l hl
      unfold Heap.kind?
      rw [Heap.objects_advance]
      exact hTyped.frames f hf v hv l hl
  | returns l fs _ hFrames =>
      refine ⟨hValues, ?_, hTyped.cloning⟩
      intro f hf
      apply hTyped.frames f
      rw [hFrames]
      exact List.mem_cons_of_mem _ hf
  | reclaims f fs _ hFrames _ =>
      refine ⟨hValues, ?_, hTyped.cloning⟩
      apply (exact_frames hExact hFrames).typed_step
      rw [← hFrames]
      exact hTyped.frames
  | counts v i is _ hFrames hCloning =>
      rcases hTyped.cloning v (i :: is) hCloning with
        ⟨hMem, hSuffix⟩
      refine ⟨hValues, ?_, ?_⟩
      · intro f hf
        simp only [hFrames] at hf
        cases hf
      · intro u js hSome
        cases hSome
        exact ⟨hMem, (List.suffix_cons i is).trans hSuffix⟩
  | clones v _ hFrames hCloning =>
      have hMem := (hTyped.cloning v [] hCloning).1
      refine ⟨?_, hTyped.frames, ?_⟩
      · intro u hu
        rcases List.mem_append.mp hu with hOld | hNew
        · exact hValues u hOld
        · rcases List.mem_singleton.mp hNew with rfl
          exact hValues u hMem
      · intro u is hNone
        cases hNone
  | starts _ _ hCloning => exact typed_start hTyped hCloning

end Hand

------------------------------------------------------------
-- Handles of All Threads
------------------------------------------------------------

namespace Crew

variable {κ : Type}
variable {crew : Crew κ}
variable {outer : ObjectId → Nat}
variable {k : Nat}
variable {th : Hand}

/- The handles of an object that some threads have. -/
def sumHandles
    (hands : List Hand)
    (i : ObjectId) : Nat :=
  (hands.map (fun th => th.handles i)).sum

/- The handles of an object that the threads have. -/
def handles
    (crew : Crew κ)
    (i : ObjectId) : Nat :=
  sumHandles crew.hands i

/- Those that the other threads have. -/
def others
    (crew : Crew κ)
    (k : Nat)
    (i : ObjectId) : Nat :=
  sumHandles (crew.hands.eraseIdx k) i

/- What a thread has comes to what the others have. -/
theorem handles_eq_others
    (hk : crew.hands[k]? = some th)
    (i : ObjectId) :
    crew.handles i = crew.others k i + th.handles i := by
  rcases List.getElem?_eq_some_iff.mp hk with ⟨hLt, rfl⟩
  have hPerm :=
    (List.getElem_cons_eraseIdx_perm hLt).map
      (fun th => th.handles i)
  have hSum := hPerm.sum_eq
  rw [List.map_cons, List.sum_cons] at hSum
  unfold handles others sumHandles
  omega

/- A thread other than one has what the others have. -/
theorem le_others
    {j : Nat}
    (hNe : j ≠ k)
    (hj : crew.hands[j]? = some th)
    (i : ObjectId) :
    th.handles i ≤ crew.others k i := by
  have hMem : th ∈ crew.hands.eraseIdx k := by
    rw [List.mem_eraseIdx_iff_getElem?]
    exact ⟨j, hNe, hj⟩
  exact
    List.single_le_sum (by simp) _
      (List.mem_map_of_mem hMem)

/-
  The counts of handles are exact, with what the threads have
  held from outside as well, and every thread refers to what
  it says.
-/
structure Shares
    (crew : Crew κ)
    (outer : ObjectId → Nat) : Prop where
  exact :
    crew.heap.Exact (fun i => outer i + crew.handles i)
  typed : ∀ th ∈ crew.hands, th.Typed crew.heap

/-
  A thread has the one handle of an object: no object refers
  to it, nobody outside and no other thread.
-/
structure Sole
    (crew : Crew κ)
    (outer : ObjectId → Nat)
    (k : Nat)
    (i : ObjectId) : Prop where
  handles : crew.heap.handles i = 1
  inner : crew.heap.inner i = 0
  outside : outer i = 0
  threads :
    ∀ j th, crew.hands[j]? = some th →
      th.handles i = if j = k then 1 else 0

/- The counts, with all others held from outside. -/
theorem Shares.exact_others
    (hShares : crew.Shares outer)
    (hk : crew.hands[k]? = some th) :
    crew.heap.Exact
      (fun i =>
        (outer i + crew.others k i) + th.handles i) :=
  hShares.exact.congr (fun i => by
    rw [handles_eq_others hk, Nat.add_assoc])

/- Who has a handle of an object with one has the only one. -/
theorem Shares.sole
    (hShares : crew.Shares outer)
    (hk : crew.hands[k]? = some th)
    {i : ObjectId}
    (hPos : 0 < th.handles i)
    (hOne : crew.heap.handles i = 1) :
    crew.Sole outer k i := by
  have hCounted := (hShares.exact_others hk).counted i
  refine ⟨hOne, by omega, by omega, ?_⟩
  intro j th' hj
  split
  · rename_i hEq
    rw [hEq, hk] at hj
    cases hj
    omega
  · rename_i hNe
    have hLe := le_others hNe hj i
    omega

/- A turn of a thread that is there. -/
theorem step_eq
    (hk : crew.hands[k]? = some th) :
    crew.step k =
      ⟨(th.step crew.heap).1,
        crew.hands.set k (th.step crew.heap).2⟩ := by
  simp only [step, hk]

/- A turn of a thread that is not there. -/
theorem step_eq_self
    (hk : crew.hands[k]? = none) :
    crew.step k = crew := by
  simp only [step, hk]

/- The turn of one thread is not a turn of the others. -/
theorem others_step
    (hk : crew.hands[k]? = some th)
    (i : ObjectId) :
    (crew.step k).others k i = crew.others k i := by
  rw [step_eq hk]
  unfold others
  simp only [List.eraseIdx_set_eq]

/- Every turn of every thread keeps the counts exact. -/
theorem Shares.step
    (hShares : crew.Shares outer)
    (k : Nat) :
    (crew.step k).Shares outer := by
  cases hk : crew.hands[k]? with
  | none =>
      rw [step_eq_self hk]
      exact hShares
  | some th =>
      have hExact := hShares.exact_others hk
      have hMem := List.mem_of_getElem? hk
      have hActs := th.acts_step crew.heap
      have hTyped := hShares.typed th hMem
      have hLt := (List.getElem?_eq_some_iff.mp hk).1
      have hNow :
          (crew.step k).hands[k]? =
            some (th.step crew.heap).2 := by
        rw [step_eq hk]
        exact List.getElem?_set_self hLt
      have hNext :
          (crew.step k).heap.Exact
            (fun i =>
              (outer i + crew.others k i) +
                (th.step crew.heap).2.handles i) := by
        rw [step_eq hk]
        exact hActs.exact hExact hTyped
      refine ⟨?_, ?_⟩
      · refine hNext.congr (fun i => ?_)
        rw [handles_eq_others hNow, others_step hk,
          Nat.add_assoc]
      · rw [step_eq hk]
        intro th' hMem'
        rcases List.mem_iff_getElem?.mp hMem' with ⟨j, hj⟩
        by_cases hNe : j = k
        · subst hNe
          rw [List.getElem?_set_self hLt] at hj
          cases hj
          exact hActs.typed hExact hTyped
        · rw [List.getElem?_set_ne (Ne.symm hNe)] at hj
          have hOther :=
            hShares.typed th' (List.mem_of_getElem? hj)
          refine hOther.of_kinds (fun l hPos hKind => ?_)
          have hLe := le_others hNe hj l.1
          exact hActs.kind?_eq hExact (by omega) hKind

/- Every schedule keeps the counts exact. -/
theorem Shares.run
    (hShares : crew.Shares outer)
    (schedule : List Nat) :
    (crew.run schedule).Shares outer := by
  induction schedule generalizing crew with
  | nil => exact hShares
  | cons k schedule ih => exact ih (hShares.step k)

/-
  What is taken apart or erased in a thread's turn has one
  handle, and it is that thread's.
-/
theorem Shares.cell_step
    (hShares : crew.Shares outer)
    (k : Nat)
    {i : ObjectId}
    {o : Object κ}
    (hGet : crew.heap.objects.get? i = some o) :
    (∃ o', (crew.step k).heap.objects.get? i = some o' ∧
        o'.cell = o.cell) ∨
      crew.Sole outer k i := by
  cases hk : crew.hands[k]? with
  | none =>
      rw [step_eq_self hk]
      exact Or.inl ⟨o, hGet, rfl⟩
  | some th =>
      have hExact := hShares.exact_others hk
      rw [step_eq hk]
      refine
        ((th.acts_step crew.heap).cell hExact hGet).imp_right
          ?_
      rintro ⟨hOne, hMention⟩
      exact
        hShares.sole hk (Nat.lt_add_left _ hMention) hOne

/-
  What the outside or the other threads can reach keeps its
  cell in a thread's turn.
-/
theorem Shares.cell_of_reaches
    (hShares : crew.Shares outer)
    (k : Nat)
    {i : ObjectId}
    {o : Object κ}
    (hReach :
      crew.heap.Reaches
        (fun j => 0 < outer j + crew.others k j) i)
    (hGet : crew.heap.objects.get? i = some o) :
    ∃ o', (crew.step k).heap.objects.get? i = some o' ∧
      o'.cell = o.cell := by
  cases hk : crew.hands[k]? with
  | none =>
      rw [step_eq_self hk]
      exact ⟨o, hGet, rfl⟩
  | some th =>
      rw [step_eq hk]
      exact
        (th.acts_step crew.heap).cell_of_reaches
          (hShares.exact_others hk) hReach hGet

end Crew

end LeasedHeap
