import LeasedHeap.Proofs.History

/-
  What happens aside from applications.

  Between two applications collectors work, and objects are
  made, dropped and written to.  All that this adds to the
  trace are notices of collectors; no code is run, and a code
  that is made has not been run.

  Main declarations:
    * `Event.isNotice`
    * `Heap.runs?`
    * `Heap.Aside`
    * `World.aside_act`, `World.aside_openArray`,
      `World.aside_closeArray` and `World.aside_dropAll`
-/

namespace LeasedHeap

/- A notice of a collector. -/
def Event.isNotice : Event → Bool
| .heap _ _ => true
| _ => false

/- How often an object was run, if it is a code. -/
def Cell.runs?
    {κ : Type} : Cell κ → Option Nat
| .payload _ => none
| .code c => some c.runs

/- A cell that fades was run as often. -/
theorem Cell.Fades.runs?_eq
    {κ : Type}
    {a b : Cell κ}
    (hFades : a.Fades b) :
    b.runs? = a.runs? := by
  cases hFades <;> rfl

namespace Heap

variable {κ : Type}
variable {h h' h'' : Heap κ}

/- How often a code was run, if it is there. -/
def runs?
    (h : Heap κ)
    (q : ObjectId) : Option Nat :=
  (h.code? q).map Code.runs

theorem runs?_eq_bind
    (h : Heap κ)
    (q : ObjectId) :
    h.runs? q =
      (h.objects.get? q).bind (fun o => o.cell.runs?) := by
  unfold runs? code?
  cases h.objects.get? q with
  | none => rfl
  | some o => rcases o with ⟨n, payload | code⟩ <;> rfl

------------------------------------------------------------
-- Asides
------------------------------------------------------------

/-
  One heap comes after another, and no closure was applied in
  between.
-/
structure Aside (h h' : Heap κ) : Prop where
  told :
    ∃ news, h'.log = news ++ h.log ∧
      ∀ e ∈ news, e.isNotice
  le : h.next ≤ h'.next
  runs :
    ∀ q n, h'.runs? q = some n →
      h.runs? q = some n ∨ (h.next ≤ q ∧ n = 0)

/- The same objects, and notices. -/
theorem Aside.of_objects_eq
    (hObjects : h'.objects = h.objects)
    {news : List Event}
    (hLog : h'.log = news ++ h.log)
    (hNotices : ∀ e ∈ news, e.isNotice) :
    h.Aside h' := by
  refine ⟨⟨news, hLog, hNotices⟩, ?_, ?_⟩
  · unfold next
    rw [hObjects]
  · intro q n hRuns
    left
    rw [runs?_eq_bind, hObjects, ← runs?_eq_bind] at hRuns
    exact hRuns

theorem Aside.refl
    (h : Heap κ) :
    h.Aside h :=
  .of_objects_eq rfl (List.nil_append _).symm (by simp)

theorem Aside.trans
    (hFirst : h.Aside h')
    (hSecond : h'.Aside h'') :
    h.Aside h'' := by
  rcases hFirst.told with ⟨news, hLog, hNotices⟩
  rcases hSecond.told with ⟨more, hMore, hAll⟩
  refine
    ⟨⟨more ++ news, ?_, ?_⟩,
      Nat.le_trans hFirst.le hSecond.le, ?_⟩
  · rw [hMore, hLog, List.append_assoc]
  · intro e he
    rcases List.mem_append.mp he with hNew | hOld
    · exact hAll e hNew
    · exact hNotices e hOld
  · intro q n hRuns
    rcases hSecond.runs q n hRuns with hRuns | ⟨hNew, hZero⟩
    · exact hFirst.runs q n hRuns
    · exact Or.inr ⟨Nat.le_trans hFirst.le hNew, hZero⟩

/- A call on a collector. -/
theorem aside_perform
    {α : Type}
    (h : Heap κ)
    (c : CollectorId)
    (s : Steps α) :
    h.Aside (h.perform c s).2 := by
  rw [perform_eq]
  refine .of_objects_eq rfl rfl ?_
  intro e he
  rcases List.mem_map.mp he with ⟨n, _, rfl⟩
  rfl

/- An object changes in other ways than being run. -/
theorem Aside.set
    {p : ObjectId}
    {old new : Object κ}
    (hOld : h.objects.get? p = some old)
    (hRuns : new.cell.runs? = old.cell.runs?) :
    h.Aside { h with objects := h.objects.set p new } := by
  refine ⟨⟨[], rfl, by simp⟩, ?_, ?_⟩
  · simp [next]
  · intro q n hNow
    left
    rw [runs?_eq_bind] at hNow ⊢
    simp only [Table.get?_set] at hNow
    by_cases hq : q = p
    · subst hq
      rw [if_pos ⟨rfl, Table.lt_issued_of_get? hOld⟩] at hNow
      rw [hOld, Option.bind_some, ← hRuns]
      exact hNow
    · rw [if_neg (by simp [hq])] at hNow
      exact hNow

/- An object is made. -/
theorem aside_issue
    (h : Heap κ)
    {cell : Cell κ}
    (hRuns : ∀ n, cell.runs? = some n → n = 0) :
    h.Aside (h.issue cell) := by
  refine ⟨⟨[], rfl, by simp⟩, ?_, ?_⟩
  · simp [next, Heap.issue]
  · intro q n hNow
    rw [runs?_eq_bind, get?_issue] at hNow
    split at hNow
    · rename_i hq
      exact Or.inr ⟨Nat.le_of_eq hq.symm, hRuns n hNow⟩
    · left
      rw [runs?_eq_bind]
      exact hNow

theorem aside_retain
    (h : Heap κ)
    (i : ObjectId) :
    h.Aside (h.retain i) := by
  unfold Heap.retain
  split
  · rename_i o hGet
    exact .set hGet rfl
  · exact .refl h

theorem aside_retainRef
    (h : Heap κ)
    (r : Ref) :
    h.Aside (h.retainRef r) := by
  cases r with
  | value v =>
      cases v with
      | integer n => exact .refl h
      | list p => exact aside_retain h p
      | closure c =>
          exact (aside_retain h _).trans (aside_retain _ _)
  | array p => exact aside_retain h p
  | code q => exact aside_retain h q

/- Something is given up. -/
theorem aside_step
    (h : Heap κ)
    (f : Frame) :
    h.Aside (h.step f).2 := by
  have hWanes := Wanes.step h f
  refine ⟨?_, Nat.le_of_eq hWanes.next.symm, ?_⟩
  · rcases h.step_cases f with
      hStep | ⟨p, hStep⟩ | ⟨i, hStep⟩ | ⟨l, hStep⟩
    · exact ⟨[], by rw [hStep]; rfl, by simp⟩
    · exact
        ⟨[], by rw [hStep]; exact (take_collectors h p).2,
          by simp⟩
    · exact
        ⟨[], by rw [hStep]; exact (release_collectors h i).2,
          by simp⟩
    · rw [hStep]
      exact (aside_perform h l.owner _).told
  · intro q n hNow
    left
    rw [runs?_eq_bind] at hNow ⊢
    rcases Option.bind_eq_some_iff.mp hNow with
      ⟨o', hGet', hRuns⟩
    rcases hWanes.old q o' hGet' with ⟨o, hGet, _, hFades⟩
    rw [hGet, Option.bind_some, ← hFades.runs?_eq]
    exact hRuns

theorem aside_reclaim
    (h : Heap κ)
    (fs : List Frame) :
    h.Aside (h.reclaim fs) := by
  induction h, fs using Heap.reclaim.induct with
  | case1 h =>
      rw [Heap.reclaim]
      exact .refl h
  | case2 h f fs next ih =>
      rw [Heap.reclaim]
      exact (aside_step h f).trans ih

end Heap

------------------------------------------------------------
-- Operations
------------------------------------------------------------

namespace World

variable {κ : Type}

/- What a program does in one go, before it drops anything. -/
theorem aside_begin
    (w : World κ)
    (a : Action κ) :
    w.heap.Aside (w.begin a).2.heap := by
  cases a with
  | newCollector config =>
      exact
        .of_objects_eq rfl (List.nil_append _).symm (by simp)
  | resetPeak c =>
      exact Heap.aside_perform w.heap c Steps.resetPeak
  | allocate c size =>
      have hCall :=
        Heap.aside_perform w.heap c
          ((w.heap.terms c).allocate size)
      simp only [begin, allocate]
      split
      · split
        · rename_i r heap hRefused
          rw [hRefused] at hCall
          exact hCall
        · rename_i heap hGranted
          rw [hGranted] at hCall
          exact
            hCall.trans
              (Heap.aside_issue heap (by simp [Cell.runs?]))
      · exact .refl _
  | clone r =>
      simp only [begin, clone]
      split
      · exact Heap.aside_retainRef _ _
      · exact .refl _
  | drop x =>
      simp only [begin, letGo]
      split <;> exact .refl _
  | writeNumber x i n =>
      simp only [begin, writeNumber]
      split
      · rename_i p lease width ns hUnique
        rcases unique?_eq_some hUnique with ⟨_, hGet⟩
        split
        · exact .set hGet rfl
        · exact .refl _
      · exact .refl _
      · exact .refl _
  | writeValue x i item =>
      simp only [begin]
      rcases exchange_cases w x i item with
        ⟨hExchange, _⟩ |
          ⟨p, lease, vs, old, v, hUnique, _, _, hExchange, _⟩
      · rw [hExchange]
        exact .refl _
      · rcases unique?_eq_some hUnique with ⟨_, hGet⟩
        rw [hExchange]
        exact .set hGet rfl
  | newCode body values codes =>
      simp only [begin, newCode, issue, hold, heap_takeCodes,
        heap_takeValues]
      exact
        Heap.aside_issue _
          (fun n hRuns => (Option.some.inj hRuns).symm)

theorem aside_act
    (w : World κ)
    (a : Action κ) :
    w.heap.Aside (w.act a).2.heap := by
  rw [Moment.act_eq_reclaim]
  exact
    (w.aside_begin a).trans (Heap.aside_reclaim _ _)

theorem aside_dropAll
    (w : World κ)
    (xs : List Handle) :
    w.heap.Aside (w.dropAll xs).heap := by
  induction xs generalizing w with
  | nil => exact .refl _
  | cons x xs ih =>
      exact (w.aside_act (.drop x)).trans (ih (w.drop x).2)

theorem aside_openArray
    (w : World κ)
    (c : CollectorId)
    (s : Shape)
    (hint : UInt64) :
    w.heap.Aside (w.openArray c s hint).2.heap := by
  unfold openArray
  split
  · exact Heap.aside_perform _ _ _
  · exact .refl _

theorem aside_opened
    {w opened : World κ}
    {c : CollectorId}
    {s : Shape}
    {hint : UInt64}
    {r : Except Refusal UInt64}
    (hOpen : w.openArray c s hint = (r, opened)) :
    w.heap.Aside opened.heap := by
  have hAside := w.aside_openArray c s hint
  rw [hOpen] at hAside
  exact hAside

theorem aside_closeArray
    (w : World κ)
    (c : CollectorId)
    (s : Shape)
    (hinted : UInt64)
    (items : List s.Item) :
    w.heap.Aside (w.closeArray c s hinted items).2.heap := by
  have hCall :=
    Heap.aside_perform w.heap c
      ((w.heap.terms c).closeArray s.width hinted
        items.length)
  unfold closeArray
  split
  · rename_i r heap hRefused
    rw [hRefused] at hCall
    exact hCall.trans (aside_dropAll { w with heap } _)
  · rename_i bytes heap hGranted
    rw [hGranted] at hCall
    rcases heap_store { w with heap } ⟨c, bytes⟩ s items with
      ⟨contents, hStore⟩
    simp only
    rw [hStore]
    exact
      hCall.trans
        (Heap.aside_issue heap (by simp [Cell.runs?]))

end World

end LeasedHeap
