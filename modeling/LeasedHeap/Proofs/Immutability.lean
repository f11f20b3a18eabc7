import LeasedHeap.Proofs.Handles
import LeasedHeap.Proofs.Leases
import LeasedHeap.Proofs.Views

/-
  What a handle shows never changes under it.

  A move leaves alone whatever can be reached from a handle
  that it neither uses up nor writes through.  A writer's
  handle is the only one of its array, so what another handle
  reaches is never written; and what the reclaimer takes
  apart is reached by no handle at all.

  Main declarations:
    * `Moment.still_step` and `Moment.still_run`
    * `Heap.Intact` and `Moment.Intact`
    * `Moment.Intact.payload?_eq`
-/

namespace LeasedHeap

------------------------------------------------------------
-- What a Handle Reaches
------------------------------------------------------------

namespace Moment

variable {κ : Type}
variable {m : Moment κ}
variable {x : Handle}
variable {r : Ref}

/- What a handle reaches is reached from outside. -/
private theorem reaches_outer
    (hRef : m.world.ref? x = some r)
    {i : ObjectId}
    (hReach : m.world.heap.Reaches (· ∈ r.objects) i) :
    m.world.heap.Reaches (fun j => 0 < m.world.outer j)
      i := by
  apply hReach.mono
  intro j hj
  exact World.roots_iff.mp ⟨x, r, hRef, hj⟩

/- What is reached from outside is there. -/
private theorem Sound.exists_of_reaches
    (hSound : m.Sound)
    {i : ObjectId}
    (hReach :
      m.world.heap.Reaches (fun j => 0 < m.world.outer j)
        i) :
    ∃ o, m.world.heap.objects.get? i = some o := by
  apply hSound.exact.exists_of_reaches
  apply hReach.mono
  intro j hj
  exact Nat.lt_of_lt_of_le hj (Nat.le_add_right _ _)

/-
  What is written is reached by the handle of its writer and
  by no other.
-/
private theorem not_written
    (hSound : m.Sound)
    (hRef : m.world.ref? x = some r)
    {v : Move κ}
    (hTarget : v.target? ≠ some x)
    {i : ObjectId}
    (hReach : m.world.heap.Reaches (· ∈ r.objects) i) :
    ¬ m.Written v i := by
  rintro ⟨y, hWriter, hArray, hOne⟩
  have hNe : x.key ≠ y.key := by
    intro hKey
    apply hTarget
    rw [hWriter]
    rcases x with ⟨k⟩
    rcases y with ⟨j⟩
    simp only at hKey
    rw [hKey]
  have hCounted := hSound.exact.counted i
  rw [hOne] at hCounted
  have hOuter : 0 < m.world.outer i :=
    World.roots_iff.mp
      ⟨y, .array i, hArray, by simp [Ref.objects, Ref.links]⟩
  cases hReach with
  | root hRoot =>
      have hTwo :=
        Table.add_le_total (fun s : Ref => s.objects.count i)
          hNe hRef hArray
      have hMine : 0 < r.objects.count i :=
        List.count_pos_iff.mpr hRoot
      have hTheirs :
          (Ref.array i).objects.count i = 1 := by
        simp [Ref.objects, Ref.links]
      unfold World.outer at hCounted
      omega
  | link _ hGet hMem =>
      have hInner : 0 < m.world.heap.inner i :=
        Table.total_pos_iff.mpr
          ⟨_, _, hGet, List.count_pos_iff.mpr hMem⟩
      omega

/-
  A move leaves alone what is reached from a handle that it
  does not write through.
-/
theorem still_step
    (hSound : m.Sound)
    (hRef : m.world.ref? x = some r)
    {v : Move κ}
    (hTarget : v.target? ≠ some x)
    {i : ObjectId}
    (hReach : m.world.heap.Reaches (· ∈ r.objects) i) :
    m.world.heap.Still (m.step v).world.heap i := by
  have hOuter := reaches_outer hRef hReach
  rcases hSound.exists_of_reaches hOuter with ⟨o, hGet⟩
  rcases step_cases m v with
    ⟨_, hStep⟩ | ⟨f, fs, hFrames, hStep⟩ | hStep
  · rw [hStep]
    rcases (turn_start m v).there i o hGet with
      ⟨o', hGet', _, _, hSame⟩
    rcases hSame with hSame | hWritten
    · exact ⟨o, o', hGet, hGet', hSame⟩
    · exact
        absurd hWritten
          (not_written hSound hRef hTarget hReach)
  · rw [hStep]
    have hExact := hSound.exact
    rw [hFrames] at hExact
    rcases hExact.cell_step hOuter hGet with
      ⟨o', hGet', hCell⟩
    exact ⟨o, o', hGet, hGet', congrArg Cell.still hCell⟩
  · rw [hStep]
    exact ⟨o, o, hGet, hGet, rfl⟩

/-
  While a handle is held and not written through, all that it
  reaches stays.
-/
theorem still_run
    {moves : List (Move κ)}
    (hSound : m.Sound)
    (hRef : m.world.ref? x = some r)
    (hKept : ((m.run moves).world.ref? x).isSome)
    (hTarget : ∀ v ∈ moves, v.target? ≠ some x) :
    (m.run moves).world.ref? x = some r ∧
      ∀ i, m.world.heap.Reaches (· ∈ r.objects) i →
        m.world.heap.Still (m.run moves).world.heap i := by
  induction moves generalizing m with
  | nil =>
      refine ⟨hRef, ?_⟩
      intro i hReach
      have hOuter := reaches_outer hRef hReach
      rcases hSound.exists_of_reaches hOuter with ⟨o, hGet⟩
      exact ⟨o, o, hGet, hGet, rfl⟩
  | cons v moves ih =>
      have hHere : v.target? ≠ some x :=
        hTarget v List.mem_cons_self
      have hIssued := Table.lt_issued_of_get? hRef
      have hFirst := follows_step m v
      have hRest := follows_run (m.step v) moves
      have hEnd :
          (m.run (v :: moves)).world.ref? x = some r :=
        ((hFirst.trans hRest).get?_eq hIssued hKept).trans
          hRef
      have hNext : (m.step v).world.ref? x = some r := by
        have hSame :=
          hRest.get?_eq
            (Nat.lt_of_lt_of_le hIssued hFirst.le) hKept
        exact hSame.symm.trans hEnd
      have hStep :
          ∀ i, m.world.heap.Reaches (· ∈ r.objects) i →
            m.world.heap.Still (m.step v).world.heap i :=
        fun i => still_step hSound hRef hHere
      refine ⟨hEnd, ?_⟩
      intro i hReach
      have hLater :=
        ih (hSound.step v) hNext hKept
          (fun u hu => hTarget u (List.mem_cons_of_mem v hu))
      exact
        (hStep i hReach).trans
          (hLater.2 i (Heap.reaches_of_still hStep hReach))

end Moment

------------------------------------------------------------
-- What the Reclaimer Takes Apart
------------------------------------------------------------

namespace Heap

variable {κ : Type}
variable {h : Heap κ}
variable {fs fs' : List Frame}
variable {p : ObjectId}
variable {payload : Payload}

/-
  An object is the payload that it was made as, or it was
  taken apart and a frame has its only handle.
-/
def Intact
    (h : Heap κ)
    (fs : List Frame)
    (p : ObjectId)
    (payload : Payload) : Prop :=
  ∀ o, h.objects.get? p = some o →
    o.cell = .payload payload ∨
      (o.handles = 1 ∧ 0 < Frame.mentions fs p)

private theorem Intact.mono
    (hIntact : h.Intact fs p payload)
    (hFrames :
      Frame.mentions fs p ≤ Frame.mentions fs' p) :
    h.Intact fs' p payload := by
  intro o hGet
  refine (hIntact o hGet).imp_right ?_
  rintro ⟨hOne, hPos⟩
  exact ⟨hOne, Nat.lt_of_lt_of_le hPos hFrames⟩

/- Items are taken out of what a frame has the handle of. -/
private theorem Intact.take
    {q : ObjectId}
    (hIntact : h.Intact fs p payload)
    (hTaken : 0 < Frame.mentions fs q) :
    (h.take q).2.Intact fs p payload := by
  rcases take_cases h q with
    ⟨lease, contents, _, hTake⟩ | ⟨_, hTake⟩
  · rw [hTake]
    intro o hGet
    simp only [emptied, Table.get?_set] at hGet
    split at hGet
    · rename_i hHere
      cases hGet
      exact Or.inr ⟨rfl, hHere.1 ▸ hTaken⟩
    · exact hIntact o hGet
  · rw [hTake]
    exact hIntact

/- What is given up goes, or has other handles. -/
private theorem Intact.release_self
    (hIntact : h.Intact (.handle p :: fs) p payload)
    (fs' : List Frame) :
    (h.release p).2.Intact fs' p payload := by
  intro o hGet
  rcases release_cases h p with
    ⟨hNone, hRelease⟩ | ⟨n, cell, hOld, hRelease⟩ |
      ⟨n, cell, _, _, hRelease⟩
  · rw [hRelease, hNone] at hGet
    cases hGet
  · rw [hRelease] at hGet
    simp only [Table.get?_set,
      Table.lt_issued_of_get? hOld, and_self, if_true]
      at hGet
    cases hGet
    rcases hIntact ⟨n + 2, cell⟩ hOld with
      hSame | ⟨hOne, _⟩
    · exact Or.inl hSame
    · exact absurd hOne (by simp)
  · rw [hRelease] at hGet
    simp [Table.get?_erase] at hGet

/- Nothing else changes when a handle is given up. -/
private theorem Intact.release_of_ne
    {i : ObjectId}
    (hIntact : h.Intact (.handle i :: fs) p payload)
    (hi : p ≠ i) :
    (h.release i).2.Intact fs p payload := by
  intro o hGet
  have hSame : h.objects.get? p = some o := by
    rcases release_cases h i with
      ⟨_, hRelease⟩ | ⟨n, cell, _, hRelease⟩ |
        ⟨n, cell, _, _, hRelease⟩
    · rw [hRelease] at hGet
      exact hGet
    · rw [hRelease] at hGet
      simpa [Table.get?_set, hi] using hGet
    · rw [hRelease] at hGet
      simpa [Table.get?_erase, hi] using hGet
  refine (hIntact o hSame).imp_right ?_
  rintro ⟨hOne, hPos⟩
  refine ⟨hOne, ?_⟩
  simpa [Frame.objects, Ne.symm hi] using hPos

private theorem Intact.release
    {i : ObjectId}
    (hIntact : h.Intact (.handle i :: fs) p payload) :
    (h.release i).2.Intact ((h.release i).1 ++ fs) p
      payload := by
  by_cases hi : p = i
  · subst hi
    exact hIntact.release_self _
  · refine (hIntact.release_of_ne hi).mono ?_
    rw [Frame.mentions_append]
    exact Nat.le_add_left _ _

/- A step of the reclaimer takes apart only what it must. -/
theorem Intact.step
    {f : Frame}
    (hIntact : h.Intact (f :: fs) p payload) :
    (h.step f).2.Intact ((h.step f).1 ++ fs) p payload := by
  cases f with
  | value v =>
      cases hv : v.payload? with
      | none =>
          simp only [Heap.step, hv]
          apply hIntact.mono
          simp [Frame.objects, Value.objects_eq_nil hv]
      | some q =>
          have hPos :=
            List.count_pos_iff.mpr
              (Value.mem_objects_of_payload? hv)
          simp only [Heap.step, hv]
          apply Intact.take
          · apply hIntact.mono
            simp [Frame.objects]
          · simp [Frame.objects, hPos]
  | activation v pending =>
      cases pending with
      | nil =>
          simp only [Heap.step]
          apply hIntact.mono
          simp [Frame.objects, Frame.mentions_handleFrames]
      | cons w pending =>
          cases hw : w.payload? with
          | none =>
              simp only [Heap.step, hw]
              apply hIntact.mono
              simp [Frame.objects, Value.objects_eq_nil hw]
          | some q =>
              have hPos :=
                List.count_pos_iff.mpr
                  (Value.mem_objects_of_payload? hw)
              simp only [Heap.step, hw]
              apply Intact.take
              · apply hIntact.mono
                simp only [Frame.mentions_append,
                  Frame.mentions_cons, Frame.mentions_nil,
                  Frame.objects, List.flatMap_cons,
                  List.flatMap_append, List.count_append]
                omega
              · simp [Frame.objects, hPos]
  | handle i => exact hIntact.release
  | lease l => exact hIntact

end Heap

namespace Moment

variable {κ : Type}
variable {m : Moment κ}
variable {made : List (ObjectId × Payload)}

/- Elements are what they were made of, or taken apart. -/
def Intact
    (m : Moment κ)
    (made : List (ObjectId × Payload)) : Prop :=
  ∀ e ∈ made, ∀ vs, e.2.contents = .elements vs →
    m.world.heap.Intact m.frames e.1 e.2

/- Nothing is intact or not before it is made. -/
theorem intact_fresh
    (provides : UInt64 → Bool) :
    (fresh provides : Moment κ).Intact [] := by
  intro e he
  cases he

/- Only arrays are written to. -/
private theorem not_written_of_elements
    (hSound : m.Sound)
    {p : ObjectId}
    {o : Object κ}
    {payload : Payload}
    {vs : List Value}
    (hGet : m.world.heap.objects.get? p = some o)
    (hCell : o.cell = .payload payload)
    (hElements : payload.contents = .elements vs)
    (v : Move κ) :
    ¬ m.Written v p := by
  rintro ⟨x, _, hRef, _⟩
  have hKind :=
    hSound.admitted x _ hRef (p, .array)
      (by simp [Ref.links])
  rcases Heap.kind?_eq_some_iff.mp hKind with
    ⟨o', hGet', hArray⟩
  cases hGet.symm.trans hGet'
  rcases payload with ⟨lease, contents⟩
  simp only at hElements
  subst hElements
  rw [hCell] at hArray
  cases hArray

/- A move that starts leaves elements what they are. -/
private theorem intact_start
    (hSound : m.Sound)
    (hFrames : m.frames = [])
    {p : ObjectId}
    {payload : Payload}
    {vs : List Value}
    (hIntact : m.world.heap.Intact m.frames p payload)
    (hElements : payload.contents = .elements vs)
    (hLt : p < m.world.heap.next)
    (v : Move κ) :
    (m.start v).world.heap.Intact (m.start v).frames p
      payload := by
  intro o' hGet'
  left
  have hTurn := turn_start m v
  cases hGet : m.world.heap.objects.get? p with
  | none =>
      rw [hTurn.gone p hLt hGet] at hGet'
      cases hGet'
  | some o =>
      have hCell : o.cell = .payload payload := by
        rcases hIntact o hGet with hSame | ⟨_, hPos⟩
        · exact hSame
        · rw [hFrames] at hPos
          cases hPos
      rcases hTurn.there p o hGet with
        ⟨o'', hGet'', _, _, hSame | hWritten⟩
      · cases hGet'.symm.trans hGet''
        rw [hCell] at hSame
        exact Cell.eq_payload_of_still hSame
      · exact
          absurd hWritten
            (not_written_of_elements hSound hGet hCell
              hElements v)

/- Every move leaves intact what it does not take apart. -/
theorem Intact.step
    (hIntact : m.Intact made)
    (hSound : m.Sound)
    (hRecorded : m.Recorded made)
    (v : Move κ) :
    (m.step v).Intact
      (made ++
        m.world.heap.made (m.step v).world.heap) := by
  intro e he vs hElements
  rcases List.mem_append.mp he with hOld | hNew
  · have hBefore := hIntact e hOld vs hElements
    rcases step_cases m v with
      ⟨hFrames, hStep⟩ | ⟨f, fs, hFrames, hStep⟩ | hStep
    · rw [hStep]
      exact
        intact_start hSound hFrames hBefore hElements
          (hRecorded.old e hOld) v
    · rw [hStep]
      rw [hFrames] at hBefore
      exact hBefore.step
    · rw [hStep]
      exact hBefore
  · intro o hGet
    left
    rcases Heap.payload?_eq_some_iff.mp
        (Heap.mem_made_iff.mp hNew).2 with
      ⟨n, hPayload⟩
    cases hGet.symm.trans hPayload
    rfl

theorem Intact.run
    (hIntact : m.Intact made)
    (hSound : m.Sound)
    (hRecorded : m.Recorded made)
    (moves : List (Move κ)) :
    (m.run moves).Intact (made ++ m.makes moves) := by
  induction moves generalizing m made with
  | nil => simpa [makes] using hIntact
  | cons v moves ih =>
      rw [makes, ← List.append_assoc]
      exact
        ih (hIntact.step hSound hRecorded v)
          (hSound.step v) (hRecorded.step hSound v)

/- Elements that can be reached are what they were made of. -/
theorem Intact.payload?_eq
    (hIntact : m.Intact made)
    (hSound : m.Sound)
    {e : ObjectId × Payload}
    (he : e ∈ made)
    {vs : List Value}
    (hElements : e.2.contents = .elements vs)
    (hReach : m.world.Reaches e.1) :
    m.world.heap.payload? e.1 = some e.2 := by
  have hOuter := World.reaches_iff.mp hReach
  rcases hSound.exists_of_reaches hOuter with
    ⟨⟨n, cell⟩, hGet⟩
  rcases hIntact e he vs hElements _ hGet with
    hSame | ⟨hOne, hPos⟩
  · simp only at hSame
    subst hSame
    exact Heap.payload?_eq_some_iff.mpr ⟨n, hGet⟩
  · exfalso
    refine
      hSound.exact.not_reaches_of_last ?_ hPos hOuter
    rw [Heap.handles_of_get? hGet, hOne]

------------------------------------------------------------
-- Views Last
------------------------------------------------------------

/-
  Between any two moments of any run, also in the middle of a
  drop, a handle that stays held and is not written through
  shows what it showed, and all that it reaches is what it
  was.  What the reclaimer leaves of the elements it has taken
  apart is seen through no handle.
-/
theorem views_last
    {provides : UInt64 → Bool}
    {before after : List (Move κ)}
    {m m' : Moment κ}
    (hBefore : (fresh provides).run before = m)
    (hAfter : m.run after = m') :
    (∀ x r,
      m.world.ref? x = some r →
        (m'.world.ref? x).isSome →
        (∀ v ∈ after, v.target? ≠ some x) →
        m'.world.ref? x = some r ∧
          m'.world.heap.view r = m.world.heap.view r ∧
          ∀ i, m.world.heap.Reaches (· ∈ r.objects) i →
            m.world.heap.Still m'.world.heap i) ∧
      ∀ e ∈ (fresh provides).makes (before ++ after),
        ∀ vs, e.2.contents = .elements vs →
          m'.world.Reaches e.1 →
            m'.world.heap.payload? e.1 = some e.2 := by
  have hSound : m.Sound :=
    hBefore ▸ sound_run_fresh provides before
  have hAll :
      (fresh provides).run (before ++ after) = m' := by
    rw [run_append, hBefore, hAfter]
  constructor
  · intro x r hRef hKept hTarget
    rw [← hAfter] at hKept ⊢
    rcases still_run hSound hRef hKept hTarget with
      ⟨hEnd, hStill⟩
    exact ⟨hEnd, Heap.view_eq hStill, hStill⟩
  · intro e he vs hElements hReach
    have hIntact :=
      (intact_fresh provides).run (sound_fresh provides)
        (recorded_fresh provides) (before ++ after)
    rw [List.nil_append, hAll] at hIntact
    exact
      hIntact.payload?_eq (hAfter ▸ hSound.run after) he
        hElements hReach

/-
  A list keeps what it shows while another that holds it is
  taken apart.
-/
theorem views_last_in_a_drop :
    ∃ m m' : Moment Unit,
      (fresh (fun _ => true)).run
          [.act (.clone (.value (.integer 7))),
            .openArray 0 .list 1,
            .closeArray 0 .list [⟨0⟩],
            .act (.clone (.value (.list 0))),
            .openArray 0 .list 1,
            .closeArray 0 .list [⟨2⟩]] = m ∧
        m.run [.act (.drop ⟨3⟩), .reclaim, .reclaim] = m' ∧
        m'.frames.length = 2 ∧
        m'.world.heap.values 1 = [.integer 0] ∧
        m'.world.heap.view (.value (.list 0)) =
          m.world.heap.view (.value (.list 0)) := by
  refine ⟨_, _, rfl, rfl, rfl, rfl, ?_⟩
  exact
    ((views_last rfl rfl).1 ⟨1⟩ (.value (.list 0)) rfl rfl
      (by simp [Move.target?])).2.1

end Moment

end LeasedHeap
