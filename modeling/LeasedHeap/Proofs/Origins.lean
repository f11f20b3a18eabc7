import LeasedHeap.Proofs.Turns
import LeasedHeap.Proofs.Waning

/-
  Where the values of a world come from.

  Programs move the values that they find: what handles and
  objects have after an operation they had before, in other
  places.  The exceptions are a list or closure that is made,
  and a value that is cloned.

  Key definitions include:
    * `World.Has`
    * `World.Brings`
-/

namespace LeasedHeap

------------------------------------------------------------
-- Values of a World
------------------------------------------------------------

namespace Heap

variable {κ : Type}
variable {h h' : Heap κ}
variable {v : Value}

theorem holds_of_objects_eq
    (hObjects : h'.objects = h.objects)
    (hHolds : h'.Holds v) :
    h.Holds v := by
  rcases hHolds with ⟨i, o, hGet, hv⟩
  exact ⟨i, o, hObjects ▸ hGet, hv⟩

/- A new object holds what it was made of. -/
theorem holds_issue
    {cell : Cell κ}
    (hHolds : (h.issue cell).Holds v) :
    h.Holds v ∨ v ∈ cell.values := by
  rcases hHolds with ⟨i, o, hGet, hv⟩
  rw [get?_issue] at hGet
  split at hGet
  · cases hGet
    exact Or.inr hv
  · exact Or.inl ⟨i, o, hGet, hv⟩

/- An object that is replaced holds what its new cell does. -/
theorem holds_set
    {p : ObjectId}
    {new : Object κ}
    (hHolds :
      ({ h with objects := h.objects.set p new }).Holds v) :
    h.Holds v ∨ v ∈ new.cell.values := by
  rcases hHolds with ⟨i, o, hGet, hv⟩
  simp only [Table.get?_set] at hGet
  split at hGet
  · cases hGet
    exact Or.inr hv
  · exact Or.inl ⟨i, o, hGet, hv⟩

theorem holds_retain
    {i : ObjectId}
    (hHolds : (h.retain i).Holds v) :
    h.Holds v := by
  unfold retain at hHolds
  cases hGet : h.objects.get? i with
  | none =>
      rw [hGet] at hHolds
      exact hHolds
  | some o =>
      rw [hGet] at hHolds
      rcases holds_set hHolds with hOld | hNew
      · exact hOld
      · exact ⟨i, o, hGet, hNew⟩

theorem holds_retainRef
    {r : Ref}
    (hHolds : (h.retainRef r).Holds v) :
    h.Holds v := by
  cases r with
  | value w =>
      cases w with
      | integer i => exact hHolds
      | list p => exact holds_retain hHolds
      | closure c => exact holds_retain (holds_retain hHolds)
  | array p => exact holds_retain hHolds
  | code q => exact holds_retain hHolds

/- While values are dropped no object gets one. -/
theorem Wanes.holds
    (hWanes : h.Wanes h')
    (hv : v.isNested)
    (hHolds : h'.Holds v) :
    h.Holds v := by
  rcases hHolds with ⟨i, o', hGet', hMem⟩
  rcases hWanes.old i o' hGet' with ⟨o, hGet, _, hFades⟩
  refine ⟨i, o, hGet, ?_⟩
  generalize o.cell = a at hFades ⊢
  generalize o'.cell = b at hFades hMem
  cases hFades with
  | same => exact hMem
  | blank lease contents =>
      have hBlank :
          v ∈ contents.values.map Value.blank := by
        cases contents with
        | numbers width ns => cases hMem
        | slots vs => exact hMem
        | elements vs => exact hMem
      rcases List.mem_map.mp hBlank with ⟨w, _, rfl⟩
      cases w <;> cases hv

end Heap

namespace World

variable {κ : Type}
variable {w w' w'' : World κ}
variable {us vs : List Value}

/- Some handle or some object has a value. -/
def Has
    (w : World κ)
    (v : Value) : Prop :=
  (∃ x, w.value? x = some v) ∨ w.heap.Holds v

/-
  The nested values of a world are those that another one
  had, and some new ones.
-/
def Brings
    (w w' : World κ)
    (us : List Value) : Prop :=
  ∀ v, v.isNested → w'.Has v → w.Has v ∨ v ∈ us

theorem Brings.refl
    (w : World κ)
    (us : List Value) :
    w.Brings w us :=
  fun _ _ hHas => Or.inl hHas

/- What is brought later may be what was had before. -/
theorem Brings.trans
    (hFirst : w.Brings w' us)
    (hSecond : w'.Brings w'' vs)
    (hAbsorb : ∀ v ∈ vs, v.isNested → w.Has v ∨ v ∈ us) :
    w.Brings w'' us := by
  intro v hv hHas
  rcases hSecond v hv hHas with hBefore | hNew
  · exact hFirst v hv hBefore
  · exact hAbsorb v hNew hv

/- Only the handles and the objects matter. -/
theorem brings_of_eq
    (hHeld : w'.held = w.held)
    (hObjects : w'.heap.objects = w.heap.objects) :
    w.Brings w' us := by
  rintro v _ (⟨x, hx⟩ | hHolds)
  · left
    left
    refine ⟨x, ?_⟩
    unfold value? ref? at hx ⊢
    rwa [hHeld] at hx
  · exact
      Or.inl
        (Or.inr (Heap.holds_of_objects_eq hObjects hHolds))

/- A value of a handle that is left was there before. -/
theorem value?_of_erase
    {k : Nat}
    {x : Handle}
    {v : Value}
    (hx :
      ({ w with held := w.held.erase k }).value? x =
        some v) :
    w.value? x = some v := by
  have hRef := ref?_of_value? hx
  simp only [ref?, Table.get?_erase] at hRef
  split at hRef
  · cases hRef
  · unfold value? ref?
    rw [hRef]

theorem brings_erase
    (us : List Value)
    (w : World κ)
    (k : Nat) :
    w.Brings { w with held := w.held.erase k } us := by
  rintro v _ (⟨x, hx⟩ | hHolds)
  · exact Or.inl (Or.inl ⟨x, value?_of_erase hx⟩)
  · exact Or.inl (Or.inr hHolds)

/- A handle that is given out brings its value. -/
theorem has_hold
    {r : Ref}
    {v : Value}
    (hHas : (w.hold r).2.Has v) :
    w.Has v ∨ r = .value v := by
  rcases hHas with ⟨x, hx⟩ | hHolds
  · have hRef := ref?_of_value? hx
    simp only [hold, ref?, Table.get?_insert] at hRef
    split at hRef
    · cases hRef
      exact Or.inr rfl
    · refine Or.inl (Or.inl ⟨x, ?_⟩)
      unfold value? ref?
      rw [hRef]
  · exact Or.inl (Or.inr hHolds)

/-
  An object that is made of what a world had brings no more
  than its own handle.
-/
theorem Brings.issue
    (hBrings : w.Brings w' us)
    {cell : Cell κ}
    {ref : ObjectId → Ref}
    (hCell : ∀ v ∈ cell.values, w.Has v)
    (hRef : ∀ v, ref w'.heap.next = .value v → v ∈ us) :
    w.Brings (w'.issue cell ref).2 us := by
  intro v hv hHas
  rcases has_hold hHas with (hHeld | hHolds) | hMade
  · exact hBrings v hv (Or.inl hHeld)
  · rcases Heap.holds_issue hHolds with hOld | hMem
    · exact hBrings v hv (Or.inr hOld)
    · exact Or.inl (hCell v hMem)
  · exact Or.inr (hRef v hMade)

/- What is taken from handles was had. -/
theorem has_takeValues
    (us : List Value)
    (w : World κ)
    (xs : List Handle) :
    w.Brings (w.takeValues xs).2 us ∧
      ∀ v ∈ (w.takeValues xs).1, w.Has v := by
  induction xs generalizing w with
  | nil => exact ⟨.refl w us, fun v hv => by cases hv⟩
  | cons x xs ih =>
      unfold takeValues
      cases hx : w.value? x with
      | none => exact ih w
      | some u =>
          rcases ih { w with held := w.held.erase x.key } with
            ⟨hBrings, hTaken⟩
          refine
            ⟨(brings_erase us w x.key).trans hBrings
              (fun v hv _ => Or.inr hv), ?_⟩
          intro v hv
          rcases List.mem_cons.mp hv with rfl | hMem
          · exact Or.inl ⟨x, hx⟩
          · rcases hTaken v hMem with ⟨y, hy⟩ | hHolds
            · exact Or.inl ⟨y, value?_of_erase hy⟩
            · exact Or.inr hHolds

theorem brings_takeCodes
    (us : List Value)
    (w : World κ)
    (xs : List Handle) :
    w.Brings (w.takeCodes xs).2 us := by
  induction xs generalizing w with
  | nil => exact .refl w us
  | cons x xs ih =>
      unfold takeCodes
      cases hx : w.codeOf? x with
      | none => exact ih w
      | some q =>
          exact
            (brings_erase us w x.key).trans (ih _)
              (fun v hv _ => Or.inr hv)

/- What is held is let go, and may be brought back. -/
theorem brings_exchange
    (us : List Value)
    (w : World κ)
    (x : Handle)
    (i : Nat)
    (item : Handle) :
    w.Brings (w.exchange x i item).2 us ∧
      ∀ f ∈ (w.exchange x i item).1, ∀ v ∈ f.values,
        w.Has v := by
  rcases exchange_cases w x i item with
    ⟨hExchange, _⟩ |
      ⟨p, lease, vs, old, v, hUnique, hOld, hItem,
        hExchange, _⟩
  · rw [hExchange]
    exact ⟨.refl w us, fun f hf => by cases hf⟩
  · rcases unique?_eq_some hUnique with ⟨_, hGet⟩
    have hSlots : ∀ u ∈ vs, w.Has u :=
      fun u hu => Or.inr ⟨p, _, hGet, hu⟩
    rw [hExchange]
    constructor
    · rintro u hu (⟨y, hy⟩ | hHolds)
      · exact Or.inl (Or.inl ⟨y, value?_of_erase hy⟩)
      · rcases Heap.holds_set hHolds with hBefore | hNew
        · exact Or.inl (Or.inr hBefore)
        · left
          rcases List.mem_or_eq_of_mem_set hNew with
            hMem | rfl
          · exact hSlots u hMem
          · exact Or.inl ⟨item, hItem⟩
    · intro f hf u hu
      rcases List.mem_singleton.mp hf with rfl
      rcases List.mem_singleton.mp hu with rfl
      exact hSlots u (List.mem_of_getElem? hOld)

theorem brings_writeNumber
    (w : World κ)
    (x : Handle)
    (i : Nat)
    (n : UInt64) :
    w.Brings (w.writeNumber x i n).2 us := by
  unfold writeNumber
  split
  · split
    · rintro v _ (hHeld | hHolds)
      · exact Or.inl (Or.inl hHeld)
      · rcases Heap.holds_set hHolds with hOld | hNew
        · exact Or.inl (Or.inr hOld)
        · cases hNew
    · exact .refl w us
  · exact .refl w us
  · exact .refl w us

theorem brings_newCode
    (w : World κ)
    (body : κ)
    (values codes : List Handle) :
    w.Brings (w.newCode body values codes).2 us := by
  rcases has_takeValues us w values with
    ⟨hBrings, hTaken⟩
  have hTakes :
      w.Brings
        ((w.takeValues values).2.takeCodes codes).2 us :=
    hBrings.trans
      (brings_takeCodes us _ codes)
      (fun v hv _ => Or.inr hv)
  exact hTakes.issue hTaken (fun v hv => by cases hv)

/- Elements bring the value that is made with them. -/
private theorem Brings.made
    {lease : Lease}
    (hBrings : w.Brings w' [])
    (made : ObjectId → Value)
    (hNext : w'.heap.next = w.heap.next)
    (hItems : ∀ v ∈ vs, w.Has v)
    (hMade : ∀ p, (made p).payload? = some p) :
    ∃ u : Option Value,
      (∀ v ∈ u, v.payload? = some w.heap.next) ∧
        w.Brings
          (w'.issue (.payload ⟨lease, .elements vs⟩)
            (fun p => .value (made p))).2
          u.toList := by
  refine ⟨some (made w.heap.next), ?_, ?_⟩
  · intro v hv
    cases hv
    exact hMade _
  · have hMore : w.Brings w' [made w.heap.next] :=
      fun v hv hHas =>
        (hBrings v hv hHas).imp id (fun hMem => by cases hMem)
    refine hMore.issue hItems (fun v hv => ?_)
    rw [hNext] at hv
    cases hv
    exact List.mem_singleton.mpr rfl

/- An array call brings the value that it makes, if any. -/
theorem brings_store
    (w : World κ)
    (lease : Lease)
    (s : Shape)
    (items : List s.Item) :
    ∃ made : Option Value,
      (∀ v ∈ made, v.payload? = some w.heap.next) ∧
        w.Brings (w.store lease s items).2 made.toList := by
  have hNext :
      ∀ xs, (w.takeValues xs).2.heap.next = w.heap.next := by
    intro xs
    rw [heap_takeValues]
  have hTake :=
    fun xs => has_takeValues [] w xs
  cases s with
  | numbers width =>
      refine ⟨none, by simp, ?_⟩
      exact
        (Brings.refl w _).issue (fun v hv => by cases hv)
          (fun v hv => by cases hv)
  | slots =>
      refine ⟨none, by simp, ?_⟩
      exact
        (hTake items).1.issue (hTake items).2
          (fun v hv => by cases hv)
  | list =>
      exact
        (hTake items).1.made .list (hNext items)
          (hTake items).2 (fun _ => rfl)
  | closure code =>
      simp only [World.store]
      cases hCode : (w.takeValues items).2.codeOf? code with
      | none =>
          exact
            (hTake items).1.made .list
              (hNext items) (hTake items).2 (fun _ => rfl)
      | some q =>
          have hErase :=
            (hTake items).1.trans
              (brings_erase [] _ code.key)
              (fun v hv => by cases hv)
          exact
            hErase.made (fun p => .closure ⟨p, q⟩)
              (hNext items) (hTake items).2 (fun _ => rfl)

/- A handle that is let go leaves its value to be dropped. -/
theorem brings_letGo
    (us : List Value)
    (w : World κ)
    (x : Handle) :
    w.Brings (w.letGo x).2 us ∧
      ∀ f ∈ (w.letGo x).1, ∀ v ∈ f.values, w.Has v := by
  unfold letGo
  cases hRef : w.ref? x with
  | none => exact ⟨.refl w us, fun f hf => by cases hf⟩
  | some r =>
      refine ⟨brings_erase us w x.key, ?_⟩
      intro f hf v hv
      left
      refine ⟨x, ?_⟩
      unfold value?
      rw [hRef]
      cases r with
      | value u =>
          rcases List.mem_singleton.mp hf with rfl
          rcases List.mem_singleton.mp hv with rfl
          rfl
      | array p =>
          rcases List.mem_singleton.mp hf with rfl
          cases hv
      | code q =>
          rcases List.mem_singleton.mp hf with rfl
          cases hv

/- A clone of a value that is there brings nothing. -/
theorem brings_clone
    (w : World κ)
    {r : Ref}
    (hr : ∀ v, r = .value v → v.isNested → w.Has v) :
    w.Brings (w.clone r).2 us := by
  unfold clone
  split
  · intro v hv hHas
    rcases has_hold hHas with (hHeld | hHolds) | hCloned
    · exact Or.inl (Or.inl hHeld)
    · exact Or.inl (Or.inr (Heap.holds_retainRef hHolds))
    · exact Or.inl (hr v hCloned hv)
  · exact .refl w us

theorem brings_allocate
    (w : World κ)
    (c : CollectorId)
    (size : UInt64) :
    w.Brings (w.allocate c size).2 us := by
  unfold allocate
  split
  · have hCall :
        ∀ heap : Heap κ,
          heap.objects = w.heap.objects →
            w.Brings { w with heap } us :=
      fun heap hObjects => brings_of_eq rfl hObjects
    split
    · rename_i r heap hPerform
      apply hCall
      exact (congrArg (·.2.objects) hPerform).symm
    · rename_i heap hPerform
      refine
        (hCall heap ?_).issue (fun v hv => by cases hv)
          (fun v hv => by cases hv)
      exact (congrArg (·.2.objects) hPerform).symm
  · exact .refl w us

/- A run that is counted leaves what the code captured. -/
theorem brings_countRun
    (w : World κ)
    (q : ObjectId) :
    w.Brings (w.countRun q) us := by
  unfold countRun
  split
  · rename_i n code hGet
    rintro v _ (hHeld | hHolds)
    · exact Or.inl (Or.inl hHeld)
    · rcases Heap.holds_set hHolds with hOld | hNew
      · exact Or.inl (Or.inr hOld)
      · exact Or.inl (Or.inr ⟨q, _, hGet, hNew⟩)
  · exact .refl w us

theorem brings_openArray
    (us : List Value)
    (w : World κ)
    (c : CollectorId)
    (s : Shape)
    (hint : UInt64) :
    w.Brings (w.openArray c s hint).2 us := by
  unfold openArray
  split
  · exact brings_of_eq rfl rfl
  · exact .refl w us

/- A refused array call brings nothing. -/
theorem brings_close
    (w : World κ)
    (c : CollectorId)
    (s : Shape)
    (hinted : UInt64)
    (items : List s.Item) :
    ∃ made : Option Value,
      (∀ v ∈ made, v.payload? = some w.heap.next) ∧
        w.Brings (w.close c s hinted items) made.toList := by
  unfold close
  split
  · rename_i r heap hCall
    have hObjects : heap.objects = w.heap.objects :=
      (congrArg (·.2.objects) hCall).symm
    refine ⟨none, by simp, ?_⟩
    exact brings_of_eq rfl hObjects
  · rename_i bytes heap hCall
    have hObjects : heap.objects = w.heap.objects :=
      (congrArg (·.2.objects) hCall).symm
    have hNext : heap.next = w.heap.next := by
      unfold Heap.next
      rw [hObjects]
    rcases brings_store { w with heap } ⟨c, bytes⟩ s
        items with
      ⟨made, hMade, hStore⟩
    refine ⟨made, ?_, ?_⟩
    · intro v hv
      rw [hMade v hv]
      exact congrArg some hNext
    · have hGranted :
          w.Brings { w with heap } made.toList :=
        brings_of_eq rfl hObjects
      exact
        hGranted.trans hStore (fun v hv _ => Or.inr hv)

theorem brings_enter
    (w : World κ)
    (c : Closure)
    (args : Nat) :
    w.Brings (w.enter c args) us := by
  unfold enter
  split
  · rename_i env code _ _
    have hEntered :
        w.Brings (w.record (.enter env.length args)) us :=
      brings_of_eq rfl rfl
    simp only
    split
    · exact
        hEntered.trans (brings_countRun _ _)
          (fun v hv _ => Or.inr hv)
    · exact brings_of_eq rfl rfl
  · exact .refl w us

end World

end LeasedHeap
