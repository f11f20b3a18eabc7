import LeasedHeap.Crew
import LeasedHeap.World
import LeasedHeap.Proofs.Entries

/-
  What objects, values and frames refer to.

  A link names an object and says what it is expected to be:
  elements, an array that can be written, or a code.  Counts
  of handles are about the objects alone, admission is about
  the kinds as well.

  Key definitions include:
    * `Kind`
    * `Value.links`
    * `Cell.links`
    * `Frame.objects`
    * `Heap.inner`

  Admission is about links because of:
    * `Heap.admits_iff`
    * `World.admits_iff`
-/

namespace LeasedHeap

------------------------------------------------------------
-- Links
------------------------------------------------------------

/- What an object is to those who refer to it. -/
inductive Kind where
/- The items of a list or of an environment. -/
| elements : Kind
/- An array that its only holder may write. -/
| array : Kind
| code : Kind
deriving DecidableEq, Repr

/- An object, and what it is expected to be. -/
abbrev Link :=
  ObjectId × Kind

/- What a value refers to. -/
def Value.links : Value → List Link
| .integer _ => []
| .list p => [(p, .elements)]
| .closure c =>
    [(c.environment, .elements), (c.code, .code)]

namespace Cell

variable {κ : Type}

/- What an object is. -/
def kind : Cell κ → Kind
| .payload ⟨_, .elements _⟩ => .elements
| .payload _ => .array
| .code _ => .code

/- What an object refers to. -/
def links (cell : Cell κ) : List Link :=
  cell.values.flatMap Value.links ++
    cell.codes.map (fun q => (q, .code))

/- The objects that an object refers to. -/
def objects (cell : Cell κ) : List ObjectId :=
  cell.links.map Prod.fst

end Cell

namespace Ref

/- What a reference refers to. -/
def links : Ref → List Link
| .value v => v.links
| .array p => [(p, .array)]
| .code q => [(q, .code)]

/- The objects whose handles a reference counts. -/
def objects (r : Ref) : List ObjectId :=
  r.links.map Prod.fst

end Ref

/- The objects whose handles a frame is to give up. -/
def Frame.objects : Frame → List ObjectId
| .value v => v.objects
| .activation v pending =>
    v.objects ++ pending.flatMap Value.objects
| .handle i => [i]
| .lease _ => []

/- The values that a frame is to give up. -/
def Frame.values : Frame → List Value
| .value v => [v]
| .activation v pending => v :: pending
| .handle _ => []
| .lease _ => []

------------------------------------------------------------
-- Objects of Links
------------------------------------------------------------

/- The objects of a value are those of its links. -/
theorem Value.objects_eq
    (v : Value) :
    v.objects = v.links.map Prod.fst := by
  cases v <;> rfl

/- What a value refers to: its payload, and then its code. -/
theorem Value.links_eq
    {v : Value}
    {p : ObjectId}
    (hv : v.payload? = some p) :
    v.links =
      (p, .elements) ::
        v.code?.toList.map (fun q => (q, .code)) := by
  cases v with
  | integer i => cases hv
  | list q =>
      cases hv
      rfl
  | closure c =>
      cases hv
      rfl

/- The objects of values are those of their links. -/
theorem Value.flatMap_objects_eq
    (vs : List Value) :
    vs.flatMap Value.objects =
      (vs.flatMap Value.links).map Prod.fst := by
  rw [List.map_flatMap]
  exact congrArg (vs.flatMap ·)
    (funext Value.objects_eq)

/- The objects of an object: those of its values, its codes. -/
theorem Cell.objects_eq
    {κ : Type}
    (cell : Cell κ) :
    cell.objects =
      cell.values.flatMap Value.objects ++ cell.codes := by
  unfold Cell.objects Cell.links
  rw [List.map_append, Value.flatMap_objects_eq,
    List.map_map]
  simp [Function.comp_def]

/- A frame is to give up what its values refer to. -/
theorem Frame.mem_objects
    {f : Frame}
    {v : Value}
    {l : Link}
    (hv : v ∈ f.values)
    (hl : l ∈ v.links) :
    l.1 ∈ f.objects := by
  have hMem : l.1 ∈ v.objects := by
    rw [Value.objects_eq]
    exact List.mem_map_of_mem hl
  cases f with
  | value w =>
      rcases List.mem_singleton.mp hv with rfl
      exact hMem
  | activation w pending =>
      rcases List.mem_cons.mp hv with rfl | hPending
      · exact List.mem_append_left _ hMem
      · exact
          List.mem_append_right _
            (List.mem_flatMap.mpr ⟨v, hPending, hMem⟩)
  | handle i => cases hv
  | lease l => cases hv

/- Integers refer to nothing. -/
theorem Value.flatMap_objects_filter
    (vs : List Value) :
    (vs.filter Value.isNested).flatMap Value.objects =
      vs.flatMap Value.objects := by
  induction vs with
  | nil => rfl
  | cons v vs ih =>
      cases v with
      | integer i =>
          rw [List.filter_cons_of_neg (by simp [isNested]), ih]
          rfl
      | list p =>
          rw [List.filter_cons_of_pos rfl,
            List.flatMap_cons, ih]
          rfl
      | closure c =>
          rw [List.filter_cons_of_pos rfl,
            List.flatMap_cons, ih]
          rfl

/- What was taken out of a payload refers to nothing. -/
theorem Value.flatMap_links_blank
    (vs : List Value) :
    (vs.map Value.blank).flatMap Value.links = [] := by
  induction vs with
  | nil => rfl
  | cons v vs ih =>
      cases v <;> simpa [Value.blank, Value.links] using ih

/- No value refers to an array. -/
theorem Value.kind_ne_array
    {v : Value}
    {l : Link}
    (hl : l ∈ v.links) :
    l.2 ≠ .array := by
  cases v with
  | integer i => simp [Value.links] at hl
  | list p => simp_all [Value.links]
  | closure c =>
      rcases (by simpa [Value.links] using hl :
          l = (c.environment, .elements) ∨
            l = (c.code, .code)) with
        hEnvironment | hCode
      · simp [hEnvironment]
      · simp [hCode]

/- No object refers to an array. -/
theorem Cell.kind_ne_array
    {κ : Type}
    {cell : Cell κ}
    {l : Link}
    (hl : l ∈ cell.links) :
    l.2 ≠ .array := by
  unfold Cell.links at hl
  rcases List.mem_append.mp hl with hValue | hCode
  · rcases List.mem_flatMap.mp hValue with ⟨v, _, hv⟩
    exact Value.kind_ne_array hv
  · rcases List.mem_map.mp hCode with ⟨q, _, hq⟩
    simp [← hq]

------------------------------------------------------------
-- Kinds
------------------------------------------------------------

namespace Heap

variable {κ : Type}

/- What an object is, if it is there. -/
def kind?
    (h : Heap κ)
    (i : ObjectId) : Option Kind :=
  (h.objects.get? i).map (·.cell.kind)

/- The references to an object that other objects hold. -/
def inner
    (h : Heap κ)
    (i : ObjectId) : Nat :=
  h.objects.total (fun o => o.cell.objects.count i)

theorem kind?_eq_some_iff
    {h : Heap κ}
    {i : ObjectId}
    {k : Kind} :
    h.kind? i = some k ↔
      ∃ o, h.objects.get? i = some o ∧ o.cell.kind = k := by
  simp [kind?]

/- The elements of an object are there if it has elements. -/
theorem elements?_isSome_iff
    {h : Heap κ}
    {p : ObjectId} :
    (h.elements? p).isSome ↔
      h.kind? p = some .elements := by
  unfold elements? payload? kind?
  cases hGet : h.objects.get? p with
  | none => simp
  | some o =>
      rcases o with ⟨n, ⟨lease, contents⟩ | code⟩
      · cases contents <;> simp [Cell.kind]
      · simp [Cell.kind]

/- The code of an object is there if it is a code. -/
theorem code?_isSome_iff
    {h : Heap κ}
    {q : ObjectId} :
    (h.code? q).isSome ↔ h.kind? q = some .code := by
  unfold code? kind?
  cases hGet : h.objects.get? q with
  | none => simp
  | some o =>
      rcases o with ⟨n, ⟨lease, contents⟩ | code⟩
      · cases contents <;> simp [Cell.kind]
      · simp [Cell.kind]

/- A value is admitted if its links are what they expect. -/
theorem admits_iff
    {h : Heap κ}
    {v : Value} :
    h.admits v ↔
      ∀ l ∈ v.links, h.kind? l.1 = some l.2 := by
  cases v with
  | integer i => simp [admits, Value.links]
  | list p =>
      simp [admits, Value.links, elements?_isSome_iff]
  | closure c =>
      simp [admits, Value.links, elements?_isSome_iff,
        code?_isSome_iff]

end Heap

/- An array is there if something that is one can be read. -/
private theorem array_admitted_iff
    {κ : Type}
    {h : Heap κ}
    {p : ObjectId} :
    (match h.payload? p with
      | some ⟨_, .elements _⟩ => false
      | some _ => true
      | none => false) = true ↔
      h.kind? p = some .array := by
  unfold Heap.payload? Heap.kind?
  cases hGet : h.objects.get? p with
  | none => simp
  | some o =>
      rcases o with ⟨n, ⟨lease, contents⟩ | code⟩
      · cases contents <;> simp [Cell.kind]
      · simp [Cell.kind]

/- A reference is admitted if its links are as expected. -/
theorem World.admits_iff
    {κ : Type}
    {w : World κ}
    {r : Ref} :
    w.admits r ↔
      ∀ l ∈ r.links, w.heap.kind? l.1 = some l.2 := by
  cases r with
  | value v =>
      simp only [World.admits, Ref.links]
      exact Heap.admits_iff
  | array p =>
      simp only [World.admits, Ref.links,
        List.forall_mem_singleton]
      exact array_admitted_iff
  | code q =>
      simp [World.admits, Ref.links,
        Heap.code?_isSome_iff]

end LeasedHeap
