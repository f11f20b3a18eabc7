import LeasedHeap.Proofs.Recursion

/-
  What chores refer to, and what they leave of a heap.

  A chore is done by a frame, and gives up what the frame
  does.  Each way in which an object loses a handle or goes
  keeps the counts exact, and two heaps that differ in some
  objects only still do when the same happens to both.

  Key definitions include:
    * `Chore.frame`
    * `Chore.mentions`
    * `Heap.Beside`
-/

namespace LeasedHeap

------------------------------------------------------------
-- Chores as Frames
------------------------------------------------------------

namespace Chore

/- The frame that does a chore. -/
def frame : Chore → Frame
| .drop v => .value v
| .visit v => .visit v
| .code q => .handle q

/- The value that a chore is about. -/
def value? : Chore → Option Value
| .drop v => some v
| .visit v => some v
| .code _ => none

/- What a chore refers to. -/
def links : Chore → List Link
| .drop v => v.links
| .visit v => v.links
| .code q => [(q, .code)]

/- The work in a chore. -/
def load : Chore → Nat
| .drop _ => 6
| .visit _ => 7
| .code _ => 2

/- How often some chores are to give up an object. -/
def mentions
    (cs : List Chore)
    (i : ObjectId) : Nat :=
  Frame.mentions (cs.map frame) i

variable {c : Chore}
variable {cs : List Chore}
variable {v : Value}

@[simp]
theorem mentions_cons
    (c : Chore)
    (cs : List Chore)
    (i : ObjectId) :
    mentions (c :: cs) i =
      (c.links.map Prod.fst).count i + mentions cs i := by
  unfold mentions
  rw [List.map_cons, Frame.mentions_cons]
  cases c <;>
    simp [frame, links, Frame.objects, Frame.visit,
      Value.objects_eq, Value.links]

@[simp]
theorem mentions_append
    (cs ds : List Chore)
    (i : ObjectId) :
    mentions (cs ++ ds) i =
      mentions cs i + mentions ds i := by
  unfold mentions
  rw [List.map_append, Frame.mentions_append]

/- What is mentioned is in a link. -/
theorem mentions_pos
    {l : Link}
    (hc : c ∈ cs)
    (hl : l ∈ c.links) :
    0 < mentions cs l.1 := by
  induction cs with
  | nil => cases hc
  | cons d cs ih =>
      rw [mentions_cons]
      rcases List.mem_cons.mp hc with rfl | hRest
      · have hPos :=
          List.count_pos_iff.mpr
            (List.mem_map_of_mem (f := Prod.fst) hl)
        omega
      · have hPos := ih hRest
        omega

theorem links_eq
    (hc : c.value? = some v) :
    c.links = v.links := by
  cases c <;> cases hc <;> rfl

end Chore

/- A chore about a value is about its payload. -/
theorem Chore.mentions_payload_pos
    {c : Chore}
    {v : Value}
    {p : ObjectId}
    (hc : c.value? = some v)
    (hv : v.payload? = some p)
    (cs : List Chore) :
    0 < mentions (c :: cs) p := by
  have hLink : (p, Kind.elements) ∈ c.links := by
    rw [links_eq hc, Value.links_eq hv]
    exact List.mem_cons_self ..
  exact mentions_pos (List.mem_cons_self ..) hLink

namespace Value

theorem map_frame_codeChores
    (v : Value) :
    v.codeChores.map Chore.frame =
      v.code?.toList.map .handle := by
  unfold codeChores
  rw [List.map_map]
  rfl

theorem mentions_codeChores
    (v : Value)
    (i : ObjectId) :
    Chore.mentions v.codeChores i =
      v.code?.toList.count i := by
  unfold Chore.mentions
  rw [map_frame_codeChores, Frame.mentions_map_handle]

/- A value gives up its payload, and then its code. -/
theorem count_objects_eq
    {v : Value}
    {p : ObjectId}
    (hv : v.payload? = some p)
    (i : ObjectId) :
    (v.links.map Prod.fst).count i =
      [p].count i + Chore.mentions v.codeChores i := by
  rw [mentions_codeChores, links_eq hv, List.map_cons,
    List.map_map]
  simp [List.count_cons, Function.comp_def]
  omega

end Value

namespace Contents

theorem map_frame_visits
    (contents : Contents) :
    contents.visits.map Chore.frame =
      contents.pending.map Frame.visit := by
  unfold visits
  rw [List.map_map]
  rfl

/- The visits are to what the payload refers to. -/
theorem mentions_visits
    {κ : Type}
    (lease : Lease)
    (contents : Contents)
    (i : ObjectId) :
    Chore.mentions contents.visits i =
      (Cell.payload ⟨lease, contents⟩ :
        Cell κ).objects.count i := by
  rw [← count_pending]
  unfold Chore.mentions visits
  induction contents.pending with
  | nil => rfl
  | cons w ws ih =>
      simp only [List.map_cons, Frame.mentions_cons, ih,
        List.flatMap_cons, List.count_append]
      simp [Chore.frame, Frame.visit, Frame.objects,
        Value.objects]

/- What is visited was an item. -/
theorem links_visits
    {κ : Type}
    (lease : Lease)
    {contents : Contents}
    {c : Chore}
    {l : Link}
    (hc : c ∈ contents.visits)
    (hl : l ∈ c.links) :
    l ∈ (Cell.payload ⟨lease, contents⟩ : Cell κ).links := by
  rcases List.mem_map.mp hc with ⟨w, hw, rfl⟩
  unfold pending at hw
  rw [List.mem_reverse, List.mem_filter] at hw
  exact
    List.mem_append_left _
      (List.mem_flatMap.mpr ⟨w, hw.1, hl⟩)

theorem load_visits
    (contents : Contents) :
    (contents.visits.map Chore.load).sum =
      7 * contents.pending.length := by
  unfold visits
  induction contents.pending with
  | nil => rfl
  | cons w ws ih =>
      simp only [List.map_cons, List.sum_cons, ih,
        List.length_cons, Chore.load]
      omega

end Contents

namespace Code

variable {κ : Type}

theorem map_frame_chores
    (c : Code κ) :
    c.chores.map Chore.frame = (Cell.code c).dropFrames := by
  unfold chores Cell.dropFrames
  rw [List.map_append, List.map_map, List.map_map]
  rfl

/- A code gives up what it refers to. -/
theorem mentions_chores
    (c : Code κ)
    (i : ObjectId) :
    Chore.mentions c.chores i =
      (Cell.code c).objects.count i := by
  unfold Chore.mentions
  rw [map_frame_chores, Frame.mentions_dropFrames]

theorem links_chores
    {c : Code κ}
    {d : Chore}
    {l : Link}
    (hd : d ∈ c.chores)
    (hl : l ∈ d.links) :
    l ∈ (Cell.code c).links := by
  rcases List.mem_append.mp hd with hValue | hCode
  · rcases List.mem_map.mp hValue with ⟨v, hv, rfl⟩
    rw [List.mem_filter] at hv
    exact
      List.mem_append_left _
        (List.mem_flatMap.mpr ⟨v, hv.1, hl⟩)
  · rcases List.mem_map.mp hCode with ⟨q, hq, rfl⟩
    rcases List.mem_singleton.mp hl with rfl
    exact
      List.mem_append_right _
        (List.mem_map_of_mem
          (f := fun q => (q, Kind.code)) hq)

theorem load_chores
    (c : Code κ)
    (n : Nat) :
    (c.chores.map Chore.load).sum ≤
      (⟨n, .code c⟩ : Object κ).load := by
  have hDrops :
      ∀ vs : List Value,
        ((vs.map Chore.drop).map Chore.load).sum =
          6 * vs.length := by
    intro vs
    simp [Function.comp_def, Chore.load, Nat.mul_comm]
  have hCodes :
      ∀ qs : List ObjectId,
        ((qs.map Chore.code).map Chore.load).sum =
          2 * qs.length := by
    intro qs
    simp [Function.comp_def, Chore.load, Nat.mul_comm]
  unfold chores
  rw [List.map_append, List.sum_append, hDrops, hCodes]
  simp only [Object.load, Cell.nested, Cell.values,
    Cell.codes]
  omega

end Code

namespace Heap

variable {κ : Type}
variable {h h' hs : Heap κ}
variable {outer : ObjectId → Nat}
variable {opened : ObjectId → Prop}

------------------------------------------------------------
-- Two Heaps Side by Side
------------------------------------------------------------

/-
  Two heaps that differ in nothing but the objects that are
  open.
-/
structure Beside
    (opened : ObjectId → Prop)
    (h hs : Heap κ) : Prop where
  rest : hs = { h with objects := hs.objects }
  next : hs.next = h.next
  same :
    ∀ i, ¬ opened i →
      hs.objects.get? i = h.objects.get? i

theorem Beside.refl
    (h : Heap κ) :
    h.Beside opened h :=
  ⟨rfl, rfl, fun _ _ => rfl⟩

/- Two heaps in which nothing is open are one. -/
theorem Beside.eq
    (hBeside : h.Beside (fun _ => False) hs) :
    hs = h := by
  have hObjects : hs.objects = h.objects :=
    Table.ext_get? hBeside.next
      (fun i => hBeside.same i id)
  rw [hBeside.rest, hObjects]

theorem Beside.handles_eq
    (hBeside : h.Beside opened hs)
    {i : ObjectId}
    (hi : ¬ opened i) :
    hs.handles i = h.handles i := by
  unfold handles
  rw [hBeside.same i hi]

theorem Beside.uncount
    (hBeside : h.Beside opened hs)
    {i : ObjectId}
    (hi : ¬ opened i) :
    (h.uncount i).Beside opened (hs.uncount i) := by
  unfold Heap.uncount
  rw [hBeside.same i hi]
  cases h.objects.get? i with
  | none => exact hBeside
  | some o =>
      have hIssued : hs.objects.issued = h.objects.issued :=
        hBeside.next
      refine ⟨?_, ?_, ?_⟩
      · rw [hBeside.rest]
      · simpa [Heap.next] using hIssued
      · intro j hj
        simp only [Table.get?_set, hIssued,
          hBeside.same j hj]

theorem Beside.discard
    (hBeside : h.Beside opened hs)
    (i : ObjectId) :
    (h.discard i).Beside opened (hs.discard i) := by
  refine ⟨?_, ?_, ?_⟩
  · unfold Heap.discard
    rw [hBeside.rest]
  · simpa [Heap.next, Heap.discard] using hBeside.next
  · intro j hj
    simp only [Heap.discard, Table.get?_erase,
      hBeside.same j hj]

/- A payload that goes need not be open any longer. -/
theorem Beside.free
    {p : ObjectId}
    (hBeside : h.Beside (fun i => opened i ∨ i = p) hs)
    (lease : Lease) :
    (h.free p lease).Beside opened (hs.free p lease) := by
  refine ⟨?_, ?_, ?_⟩
  · unfold Heap.free Heap.discard
    rw [hBeside.rest]
    rfl
  · have hNext := hBeside.next
    simpa [Heap.next] using hNext
  · intro i hi
    rw [objects_free, objects_free, Table.get?_erase,
      Table.get?_erase]
    split
    · rfl
    · rename_i hNe
      exact hBeside.same i (fun hOr => hOr.elim hi hNe)

/- A payload that is taken apart is open. -/
theorem Beside.emptied
    (hBeside : h.Beside opened hs)
    (p : ObjectId)
    (lease : Lease)
    (contents : Contents) :
    (h.emptied p lease contents).Beside
      (fun i => opened i ∨ i = p) hs := by
  refine ⟨hBeside.rest, ?_, ?_⟩
  · simpa [Heap.next, Heap.emptied] using hBeside.next
  · intro i hi
    rcases not_or.mp hi with ⟨hClosed, hNe⟩
    simp only [Heap.emptied, Table.get?_set, hNe,
      false_and, if_false]
    exact hBeside.same i hClosed

theorem Beside.mono
    {opened' : ObjectId → Prop}
    (hBeside : h.Beside opened hs)
    (hOpened : ∀ i, opened i → opened' i) :
    h.Beside opened' hs :=
  ⟨hBeside.rest, hBeside.next,
    fun i hi => hBeside.same i (fun hOpen => hi (hOpened i hOpen))⟩

end Heap

end LeasedHeap
