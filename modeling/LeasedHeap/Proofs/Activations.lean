import LeasedHeap.Proofs.Reclaiming
import LeasedHeap.Proofs.Soundness

/-
  How many activations there can be at a time.

  A value that is visited has had its items taken out, so the
  activation that its own drop starts finds nothing pending,
  and the handle of its payload drops no value.  The handle
  of its code can: what a code captured is dropped while the
  activation that visited the closure is still active.  But
  the code is gone then.  So there are never more than two
  activations, and one for each code with captured values
  that went since the drop began.

  Main declarations:
    * `Frame.activations`
    * `Heap.capturing`
    * `Heap.Nests` and `Heap.Nests.step`
    * `Moment.Nests.reclaim`
    * `Moment.activations_add_capturing_le`
-/

namespace LeasedHeap

------------------------------------------------------------
-- Activations and Captures
------------------------------------------------------------

namespace Frame

/- A drop that has begun and is not over. -/
def isActivation : Frame → Bool
| .activation _ _ => true
| _ => false

/- The activations among some frames. -/
def activations (fs : List Frame) : Nat :=
  fs.countP isActivation

@[simp]
theorem activations_nil :
    activations [] = 0 :=
  rfl

@[simp]
theorem activations_value
    (v : Value)
    (fs : List Frame) :
    activations (.value v :: fs) = activations fs := by
  simp [activations, isActivation]

@[simp]
theorem activations_activation
    (v : Value)
    (pending : List Value)
    (fs : List Frame) :
    activations (.activation v pending :: fs) =
      activations fs + 1 :=
  List.countP_cons_of_pos rfl

@[simp]
theorem activations_handle
    (i : ObjectId)
    (fs : List Frame) :
    activations (.handle i :: fs) = activations fs := by
  simp [activations, isActivation]

@[simp]
theorem activations_lease
    (l : Lease)
    (fs : List Frame) :
    activations (.lease l :: fs) = activations fs := by
  simp [activations, isActivation]

end Frame

/- Whether an object is a code that captured nested values. -/
def Object.capturing {κ : Type} (o : Object κ) : Nat :=
  match o.cell with
  | .payload _ => 0
  | .code c => if c.values.any Value.isNested then 1 else 0

namespace Heap

variable {κ : Type}
variable {h h' : Heap κ}
variable {outer : ObjectId → Nat}
variable {bound : Nat}
variable {fs : List Frame}

/- The codes that captured nested values. -/
def capturing (h : Heap κ) : Nat :=
  h.objects.total Object.capturing

/- Drops make no code that captures anything. -/
theorem Wanes.capturing_le
    (hWanes : h.Wanes h') :
    h'.capturing ≤ h.capturing := by
  apply hWanes.total_le
  rintro ⟨n, cell⟩ ⟨n', cell'⟩ _ hFades
  cases hFades with
  | same => exact Nat.le_refl _
  | blank lease contents => exact Nat.le_refl _

/- A code that captured nested values is counted. -/
theorem capturing_discard
    {q : ObjectId}
    {o : Object κ}
    (hGet : h.objects.get? q = some o) :
    (h.discard q).capturing + o.capturing = h.capturing :=
  Table.total_erase Object.capturing hGet

------------------------------------------------------------
-- Objects that Drop No Values
------------------------------------------------------------

/- A payload, if it is there, without nested values. -/
def Drained
    (h : Heap κ)
    (p : ObjectId) : Prop :=
  ∀ o, h.objects.get? p = some o →
    ∃ lease, o.cell.dropFrames = [.lease lease]

/- A code, if it is there. -/
def Coded
    (h : Heap κ)
    (q : ObjectId) : Prop :=
  ∀ o, h.objects.get? q = some o → ∃ c, o.cell = .code c

/- An object whose handle drops no value. -/
def Spent
    (h : Heap κ)
    (p : ObjectId) : Prop :=
  (h.release p).1 = [] ∨
    ∃ lease, (h.release p).1 = [.lease lease]

theorem Drained.wane
    (hWanes : h.Wanes h')
    {p : ObjectId}
    (hDrained : h.Drained p) :
    h'.Drained p := by
  intro o' hGet'
  rcases hWanes.old p o' hGet' with ⟨o, hGet, _, hFades⟩
  have hDrops := hDrained o hGet
  rcases o with ⟨n, cell⟩
  rcases o' with ⟨n', cell'⟩
  cases hFades with
  | same => exact hDrops
  | blank lease contents =>
      exact ⟨lease, Cell.dropFrames_blank lease contents⟩

theorem Coded.wane
    (hWanes : h.Wanes h')
    {q : ObjectId}
    (hCoded : h.Coded q) :
    h'.Coded q := by
  intro o' hGet'
  rcases hWanes.old q o' hGet' with ⟨o, hGet, _, hFades⟩
  rcases hCoded o hGet with ⟨c, hCode⟩
  rw [hCode] at hFades
  generalize o'.cell = cell' at hFades ⊢
  cases hFades
  exact ⟨c, rfl⟩

theorem Coded.of_kind?
    {q : ObjectId}
    (hKind : h.kind? q = some .code) :
    h.Coded q := by
  intro o hGet
  rcases kind?_eq_some_iff.mp hKind with ⟨_, hGet', hCode⟩
  rw [hGet] at hGet'
  cases hGet'
  rcases o with ⟨n, ⟨lease, contents⟩ | c⟩
  · cases contents <;> cases hCode
  · exact ⟨c, rfl⟩

theorem Drained.spent
    {p : ObjectId}
    (hDrained : h.Drained p) :
    h.Spent p := by
  unfold Spent
  rcases release_cases h p with
    ⟨_, hRelease⟩ | ⟨n, cell, _, hRelease⟩ |
      ⟨n, cell, hGet, _, hRelease⟩
  · exact Or.inl (by rw [hRelease])
  · exact Or.inl (by rw [hRelease])
  · right
    rw [hRelease]
    exact hDrained _ hGet

/-
  Once its items were taken out, the payload of a value drops
  no value: it is empty, or others hold it.
-/
theorem Exact.take_spent
    (hExact : h.Exact outer)
    {p : ObjectId}
    (hKind : h.kind? p = some .elements) :
    (h.take p).2.Drained p ∨
      (h.take p).1 = [] ∧ (h.take p).2.Spent p := by
  rcases kind?_eq_some_iff.mp hKind with
    ⟨⟨n, cell⟩, hGet, hElements⟩
  by_cases hOne : n = 1
  · subst hOne
    rcases cell with ⟨lease, contents⟩ | c
    · left
      rw [take_last hGet]
      intro o hEmptied
      rw [get?_emptied hGet] at hEmptied
      cases hEmptied
      exact ⟨lease, Cell.dropFrames_blank lease contents⟩
    · cases hElements
  · right
    have hHeld := hExact.held p _ hGet
    have hHandles := handles_of_get? hGet
    simp only at hHeld hHandles
    have hNe : h.handles p ≠ 1 := by omega
    have hShared : 2 ≤ h.handles p := by omega
    rw [take_eq_of_handles hNe]
    refine ⟨rfl, Or.inl ?_⟩
    simp only [release_shared hShared]

/- Nothing can be taken out of what drops no value. -/
theorem Spent.take
    {p : ObjectId}
    (hSpent : h.Spent p) :
    (h.take p).1 = [] := by
  rcases take_cases h p with
    ⟨lease, contents, hGet, hTake⟩ | ⟨_, hTake⟩
  · rw [hTake]
    rcases hSpent with hNone | ⟨_, hLease⟩
    · rw [release_last hGet] at hNone
      simp [Cell.dropFrames] at hNone
    · rw [release_last hGet] at hLease
      have hLength := congrArg List.length hLease
      simp only [Cell.dropFrames, List.length_append,
        List.length_map, List.length_singleton] at hLength
      apply List.eq_nil_of_length_eq_zero
      rw [Contents.pending, List.length_reverse]
      omega
  · rw [hTake]

theorem Exact.spent_take
    (hExact : h.Exact outer)
    {p : ObjectId}
    (hKind : h.kind? p = some .elements) :
    (h.take p).2.Spent p :=
  (hExact.take_spent hKind).elim Drained.spent And.right

------------------------------------------------------------
-- Frames below a Bound
------------------------------------------------------------

/-
  The room that a frame needs above others: two activations
  for a value, one for a visit in an activation, one for the
  code of a closure that is about to go.
-/
def Allows
    (h : Heap κ)
    (bound : Nat)
    (fs : List Frame) : Frame → Prop
| .value _ =>
    Frame.activations fs + h.capturing + 2 ≤ bound
| .activation v _ =>
    Frame.activations fs + h.capturing + 2 ≤ bound ∧
      ∀ p, v.payload? = some p → h.Drained p
| .handle i =>
    Frame.activations fs + h.capturing + 2 ≤ bound ∨
      Frame.activations fs + h.capturing + 1 ≤ bound ∧
        h.Coded i
| .lease _ => True

/- Every frame has room above those below it. -/
def Fits
    (h : Heap κ)
    (bound : Nat) : List Frame → Prop
| [] => h.capturing + 2 ≤ bound
| f :: fs => h.Allows bound fs f ∧ h.Fits bound fs

/-
  Frames fit, or the first of them is about to give up a
  value or a payload that drops no value.  These need less
  room.
-/
inductive Nests
    (h : Heap κ)
    (bound : Nat) : List Frame → Prop where
| fits {fs : List Frame} :
    h.Fits bound fs → Nests h bound fs
| value {v : Value} {fs : List Frame} :
    (∀ p, v.payload? = some p → h.Spent p) →
    Frame.activations fs + h.capturing + 1 ≤ bound →
    h.Fits bound fs → Nests h bound (.value v :: fs)
| activation {v : Value} {fs : List Frame} :
    (∀ p, v.payload? = some p → h.Spent p) →
    Frame.activations fs + h.capturing + 1 ≤ bound →
    h.Fits bound fs → Nests h bound (.activation v [] :: fs)
| payload {p : ObjectId} {fs : List Frame} :
    h.Spent p → h.Fits bound fs →
    Nests h bound (.handle p :: fs)

theorem Fits.le
    (hFits : h.Fits bound fs) :
    Frame.activations fs + h.capturing ≤ bound := by
  induction fs with
  | nil =>
      have hRoom : h.capturing + 2 ≤ bound := hFits
      simp
      omega
  | cons f fs ih =>
      have hBelow := ih hFits.2
      have hAllows := hFits.1
      cases f with
      | value v => simpa using hBelow
      | activation v pending =>
          have hRoom := hAllows.1
          simp
          omega
      | handle i => simpa using hBelow
      | lease l => simpa using hBelow

/- Nested frames leave room for codes that can still go. -/
theorem Nests.le
    (hNests : h.Nests bound fs) :
    Frame.activations fs + h.capturing ≤ bound := by
  cases hNests with
  | fits hFits => exact hFits.le
  | value _ _ hFits => simpa using hFits.le
  | activation _ hRoom _ =>
      simp
      omega
  | payload _ hFits => simpa using hFits.le

/- Frames fit after other drops if they fitted before. -/
theorem Fits.wane
    (hWanes : h.Wanes h')
    (hFits : h.Fits bound fs) :
    h'.Fits bound fs := by
  have hLe := hWanes.capturing_le
  induction fs with
  | nil =>
      have hRoom : h.capturing + 2 ≤ bound := hFits
      change h'.capturing + 2 ≤ bound
      omega
  | cons f fs ih =>
      refine ⟨?_, ih hFits.2⟩
      have hAllows := hFits.1
      cases f with
      | value v =>
          simp only [Allows] at hAllows ⊢
          omega
      | activation v pending =>
          rcases hAllows with ⟨hRoom, hDrained⟩
          refine ⟨by omega, fun p hp => ?_⟩
          exact (hDrained p hp).wane hWanes
      | handle i =>
          rcases hAllows with hRoom | ⟨hRoom, hCoded⟩
          · exact Or.inl (by omega)
          · exact Or.inr ⟨by omega, hCoded.wane hWanes⟩
      | lease l => trivial

/- Values are dropped one after another in the same room. -/
theorem Fits.values
    (hFits : h.Fits bound fs)
    (hRoom :
      Frame.activations fs + h.capturing + 2 ≤ bound)
    (vs : List Value) :
    h.Fits bound (vs.map .value ++ fs) ∧
      Frame.activations (vs.map .value ++ fs) =
        Frame.activations fs := by
  induction vs with
  | nil => exact ⟨hFits, rfl⟩
  | cons v vs ih =>
      rcases ih with ⟨hRest, hSame⟩
      rw [List.map_cons, List.cons_append]
      refine ⟨⟨?_, hRest⟩, ?_⟩
      · simp only [Allows, hSame]
        exact hRoom
      · simpa using hSame

/- So are codes. -/
theorem Fits.codes
    (hFits : h.Fits bound fs)
    (hRoom :
      Frame.activations fs + h.capturing + 1 ≤ bound)
    {qs : List ObjectId}
    (hCoded : ∀ q ∈ qs, h.Coded q) :
    h.Fits bound (qs.map .handle ++ fs) ∧
      Frame.activations (qs.map .handle ++ fs) =
        Frame.activations fs := by
  induction qs with
  | nil => exact ⟨hFits, rfl⟩
  | cons q qs ih =>
      rcases ih (fun r hr => hCoded r (.tail q hr)) with
        ⟨hRest, hSame⟩
      rw [List.map_cons, List.cons_append]
      refine ⟨⟨Or.inr ⟨?_, hCoded q (.head qs)⟩, hRest⟩, ?_⟩
      · rw [hSame]
        exact hRoom
      · simpa using hSame

------------------------------------------------------------
-- Steps
------------------------------------------------------------

/- A code drops what it captured, and is gone. -/
private theorem Fits.discard_code
    (hExact : h.Exact outer)
    {q : ObjectId}
    {n : Nat}
    {c : Code κ}
    (hGet : h.objects.get? q = some ⟨n, .code c⟩)
    (hRoom :
      Frame.activations fs + h.capturing + 1 ≤ bound)
    (hFits : h.Fits bound fs) :
    (h.discard q).Fits bound
      ((Cell.code c : Cell κ).dropFrames ++ fs) := by
  have hWanes := Wanes.discard h q
  have hLess := capturing_discard hGet
  have hCodes : ∀ r ∈ c.codes, (h.discard q).Coded r := by
    intro r hr
    refine Coded.wane hWanes (.of_kind? ?_)
    refine hExact.typed q _ hGet (r, .code) ?_
    exact
      List.mem_append_right _
        (List.mem_map_of_mem
          (f := fun q => ((q, .code) : Link)) hr)
  have hLe := hWanes.capturing_le
  rcases (hFits.wane hWanes).codes (by omega) hCodes with
    ⟨hBelow, hSame⟩
  rw [Cell.dropFrames, List.append_assoc]
  by_cases hAny : c.values.any Value.isNested
  · simp only [Object.capturing, hAny, if_true] at hLess
    exact (hBelow.values (by omega) _).1
  · have hNone : c.values.filter Value.isNested = [] := by
      simpa using hAny
    rw [hNone]
    exact hBelow

/- A payload drops its values one after another. -/
private theorem Fits.discard_payload
    {p : ObjectId}
    {payload : Payload}
    (hRoom :
      Frame.activations fs + h.capturing + 2 ≤ bound)
    (hFits : h.Fits bound fs) :
    (h.discard p).Fits bound
      ((Cell.payload payload : Cell κ).dropFrames ++ fs) := by
  have hWanes := Wanes.discard h p
  have hLe := hWanes.capturing_le
  have hLease :
      (h.discard p).Fits bound (.lease payload.lease :: fs) :=
    ⟨trivial, hFits.wane hWanes⟩
  rw [Cell.dropFrames, List.append_assoc]
  refine (hLease.values ?_ _).1
  simp
  omega

/- A handle that has room is given up. -/
private theorem Nests.handle
    (hExact : h.Exact outer)
    {i : ObjectId}
    (hFits : h.Fits bound (.handle i :: fs)) :
    (h.release i).2.Nests bound ((h.release i).1 ++ fs) := by
  rcases hFits with ⟨hAllows, hBelow⟩
  have hWanes := Wanes.release h i
  rcases release_cases h i with
    ⟨_, hRelease⟩ | ⟨n, cell, _, hRelease⟩ |
      ⟨n, cell, hGet, _, hRelease⟩
  · rw [hRelease] at hWanes ⊢
    exact .fits hBelow
  · rw [hRelease] at hWanes ⊢
    exact .fits (hBelow.wane hWanes)
  · rw [hRelease]
    cases cell with
    | code c =>
        refine .fits (hBelow.discard_code hExact hGet ?_)
        rcases hAllows with hRoom | ⟨hRoom, _⟩
        · omega
        · exact hRoom
    | payload payload =>
        rcases hAllows with hRoom | ⟨_, hCoded⟩
        · exact .fits (hBelow.discard_payload hRoom)
        · rcases hCoded _ hGet with ⟨c, hCode⟩
          cases hCode

/- A payload that drops no value is given up. -/
private theorem Nests.spent
    {p : ObjectId}
    (hSpent : h.Spent p)
    (hFits : h.Fits bound fs) :
    (h.release p).2.Nests bound ((h.release p).1 ++ fs) := by
  have hBelow := hFits.wane (Wanes.release h p)
  rcases hSpent with hNone | ⟨lease, hLease⟩
  · rw [hNone]
    exact .fits hBelow
  · rw [hLease]
    exact .fits ⟨trivial, hBelow⟩

/- When nothing is pending, the handles of a value go. -/
private theorem Nests.handleFrames
    {v : Value}
    (hTyped : ∀ l ∈ v.links, h.kind? l.1 = some l.2)
    (hSpent : ∀ p, v.payload? = some p → h.Spent p)
    (hRoom :
      Frame.activations fs + h.capturing + 1 ≤ bound)
    (hFits : h.Fits bound fs) :
    h.Nests bound (v.handleFrames ++ fs) := by
  cases v with
  | integer i => exact .fits hFits
  | list p => exact .payload (hSpent p rfl) hFits
  | closure c =>
      refine .payload (hSpent c.environment rfl) ?_
      refine ⟨Or.inr ⟨hRoom, .of_kind? ?_⟩, hFits⟩
      exact
        hTyped (c.code, .code)
          (List.mem_cons_of_mem _ (List.mem_singleton_self _))

/- A value's payload is one of elements. -/
private theorem kind?_payload
    {v : Value}
    {p : ObjectId}
    (hp : v.payload? = some p)
    (hTyped : ∀ l ∈ v.links, h.kind? l.1 = some l.2) :
    h.kind? p = some .elements := by
  rw [Value.links_eq hp] at hTyped
  exact hTyped (p, .elements) (List.mem_cons_self)

/- A value whose payload is spent becomes an activation. -/
private theorem Nests.step_spent
    {v : Value}
    (hExact : h.Exact outer)
    (hTyped : ∀ l ∈ v.links, h.kind? l.1 = some l.2)
    (hSpent : ∀ p, v.payload? = some p → h.Spent p)
    (hRoom :
      Frame.activations fs + h.capturing + 1 ≤ bound)
    (hFits : h.Fits bound fs) :
    (h.step (.value v)).2.Nests bound
      ((h.step (.value v)).1 ++ fs) := by
  cases hp : v.payload? with
  | none =>
      simp only [Heap.step, hp]
      exact .fits hFits
  | some p =>
      have hWanes := Wanes.take h p
      have hLe := hWanes.capturing_le
      simp only [Heap.step, hp, (hSpent p hp).take,
        List.singleton_append]
      refine .activation ?_ (by omega) (hFits.wane hWanes)
      rintro q hq
      cases hp.symm.trans hq
      exact hExact.spent_take (kind?_payload hp hTyped)

/- So does one whose payload may still hold something. -/
private theorem Nests.step_value
    {v : Value}
    (hExact : h.Exact outer)
    (hTyped : ∀ l ∈ v.links, h.kind? l.1 = some l.2)
    (hFits : h.Fits bound (.value v :: fs)) :
    (h.step (.value v)).2.Nests bound
      ((h.step (.value v)).1 ++ fs) := by
  rcases hFits with ⟨hRoom, hBelow⟩
  simp only [Allows] at hRoom
  cases hp : v.payload? with
  | none =>
      simp only [Heap.step, hp]
      exact .fits hBelow
  | some p =>
      have hWanes := Wanes.take h p
      have hLe := hWanes.capturing_le
      simp only [Heap.step, hp, List.singleton_append]
      rcases hExact.take_spent (kind?_payload hp hTyped) with
        hDrained | ⟨hNone, hSpent⟩
      · refine .fits ⟨⟨by omega, ?_⟩, hBelow.wane hWanes⟩
        rintro q hq
        cases hp.symm.trans hq
        exact hDrained
      · rw [hNone]
        refine .activation ?_ (by omega) (hBelow.wane hWanes)
        rintro q hq
        cases hp.symm.trans hq
        exact hSpent

/- An activation takes the next of its pending values. -/
private theorem Nests.step_pending
    {v w : Value}
    {pending : List Value}
    (hExact : h.Exact outer)
    (hTyped : ∀ l ∈ w.links, h.kind? l.1 = some l.2)
    (hFits :
      h.Fits bound (.activation v (w :: pending) :: fs)) :
    (h.step (.activation v (w :: pending))).2.Nests bound
      ((h.step (.activation v (w :: pending))).1 ++ fs) := by
  rcases hFits with ⟨⟨hRoom, hDrained⟩, hBelow⟩
  cases hp : w.payload? with
  | none =>
      simp only [Heap.step, hp]
      exact .fits ⟨⟨hRoom, hDrained⟩, hBelow⟩
  | some p =>
      have hWanes := Wanes.take h p
      have hLe := hWanes.capturing_le
      simp only [Heap.step, hp, List.cons_append,
        List.nil_append]
      refine
        .value ?_ ?_ ⟨⟨by omega, ?_⟩, hBelow.wane hWanes⟩
      · rintro q hq
        cases hp.symm.trans hq
        exact hExact.spent_take (kind?_payload hp hTyped)
      · simp
        omega
      · intro q hq
        exact (hDrained q hq).wane hWanes

/-
  No step of reclaiming takes more room than there is.  The
  room for the second activation is given back when the
  visited value goes, and what its code captured is dropped
  in the room of the code.
-/
theorem Nests.step
    {f : Frame}
    (hExact : h.Exact outer)
    (hTyped :
      ∀ v ∈ f.values, ∀ l ∈ v.links,
        h.kind? l.1 = some l.2)
    (hNests : h.Nests bound (f :: fs)) :
    (h.step f).2.Nests bound ((h.step f).1 ++ fs) := by
  cases hNests with
  | value hSpent hRoom hFits =>
      rename_i v
      exact
        .step_spent hExact
          (hTyped v (List.mem_singleton_self v)) hSpent hRoom
          hFits
  | activation hSpent hRoom hFits =>
      rename_i v
      exact
        .handleFrames (hTyped v (List.mem_singleton_self v))
          hSpent hRoom hFits
  | payload hSpent hFits => exact .spent hSpent hFits
  | fits hFits =>
      cases f with
      | value v =>
          exact
            .step_value hExact
              (hTyped v (List.mem_singleton_self v)) hFits
      | activation v pending =>
          cases pending with
          | nil =>
              rcases hFits with ⟨⟨hRoom, hDrained⟩, hBelow⟩
              have hCodeRoom :
                  Frame.activations fs + h.capturing + 1 ≤
                    bound := by
                omega
              exact
                .handleFrames
                  (hTyped v (List.mem_singleton_self v))
                  (fun p hp => (hDrained p hp).spent)
                  hCodeRoom hBelow
          | cons w pending =>
              exact
                .step_pending hExact
                  (hTyped w
                    (List.mem_cons_of_mem v
                      List.mem_cons_self))
                  hFits
      | handle i => exact .handle hExact hFits
      | lease l =>
          exact .fits (hFits.2.wane (Wanes.giveBack h l))

end Heap

------------------------------------------------------------
-- Runs
------------------------------------------------------------

namespace Moment

variable {κ : Type}
variable {m : Moment κ}
variable {bound : Nat}

/- The frames of a moment nest within a bound. -/
def Nests
    (m : Moment κ)
    (bound : Nat) : Prop :=
  m.world.heap.Nests bound m.frames

/- Each move of the reclaimer stays within the bound. -/
theorem Nests.step
    (hSound : m.Sound)
    (hNests : m.Nests bound) :
    (m.step .reclaim).Nests bound := by
  rcases m with ⟨w, fs, reserved⟩
  cases fs with
  | nil => exact hNests
  | cons f fs =>
      exact
        Heap.Nests.step hSound.exact
          (hSound.typed f List.mem_cons_self) hNests

/- So do all of its moves. -/
theorem Nests.reclaim
    (hSound : m.Sound)
    (hNests : m.Nests bound)
    (n : Nat) :
    (m.run (List.replicate n .reclaim)).Nests bound := by
  induction n generalizing m with
  | zero => exact hNests
  | succ n ih =>
      rw [List.replicate_succ, run_cons]
      exact ih (hSound.step .reclaim) (hNests.step hSound)

/- When no frame is left, the program makes its move. -/
theorem step_eq_start
    (hFrames : m.frames = [])
    (v : Move κ) :
    m.step v = m.start v := by
  unfold step
  rw [hFrames]

/- A move begins to drop one reference, or nothing. -/
theorem nests_step
    (hFrames : m.frames = [])
    (v : Move κ) :
    (m.step v).Nests
      (2 + (m.step v).world.heap.capturing) := by
  rw [step_eq_start hFrames]
  refine .fits ?_
  have hRoom :
      (m.start v).world.heap.capturing + 2 ≤
        2 + (m.start v).world.heap.capturing := by
    omega
  rcases frames_start hFrames v with hNone | ⟨r, hRef⟩
  · rw [hNone]
    exact hRoom
  · rw [hRef]
    cases r with
    | value w => exact ⟨by simpa [Heap.Allows] using hRoom, hRoom⟩
    | array p => exact ⟨Or.inl (by simpa using hRoom), hRoom⟩
    | code q => exact ⟨Or.inl (by simpa using hRoom), hRoom⟩

/- A move of a program, and then so many of the reclaimer. -/
def after
    (m : Moment κ)
    (v : Move κ)
    (n : Nat) : Moment κ :=
  (m.step v).run (List.replicate n .reclaim)

/-
  At every moment of whatever a move of a program drops,
  there are at most two activations, and one for each code
  with captured values that went since the drop began.
-/
theorem activations_add_capturing_le
    (provides : UInt64 → Bool)
    (moves : List (Move κ))
    (v : Move κ)
    (n : Nat)
    (hStart : ((fresh provides).run moves).frames = []) :
    let m := (fresh provides).run moves
    Frame.activations (m.after v n).frames +
        (m.after v n).world.heap.capturing ≤
      2 + (m.step v).world.heap.capturing :=
  ((nests_step hStart v).reclaim
    ((sound_run_fresh provides moves).step v) n).le

/-
  A list holds a closure whose code captured a list with
  another closure.  When what the code captured is visited,
  there are three activations, and the code is gone.
-/
theorem activations_add_capturing_le_captured :
    let moves : List (Move Unit) :=
      [.act (.newCode () [] []),
        .openArray 0 (.closure ⟨0⟩) 0,
        .closeArray 0 (.closure ⟨0⟩) [],
        .openArray 0 .list 1,
        .closeArray 0 .list [⟨1⟩],
        .act (.newCode () [⟨2⟩] []),
        .openArray 0 (.closure ⟨3⟩) 0,
        .closeArray 0 (.closure ⟨3⟩) [],
        .openArray 0 .list 1,
        .closeArray 0 .list [⟨4⟩]]
    let m := (fresh (fun _ => true)).run moves
    (m.frames = [] ∧
        Frame.activations (m.after (.act (.drop ⟨5⟩)) 10).frames =
          3) ∧
      Frame.activations (m.after (.act (.drop ⟨5⟩)) 10).frames +
          (m.after (.act (.drop ⟨5⟩)) 10).world.heap.capturing ≤
        2 + (m.step (.act (.drop ⟨5⟩))).world.heap.capturing :=
  ⟨⟨rfl, rfl⟩,
    activations_add_capturing_le (fun _ => true) _
      (.act (.drop ⟨5⟩)) 10 rfl⟩

end Moment

end LeasedHeap
