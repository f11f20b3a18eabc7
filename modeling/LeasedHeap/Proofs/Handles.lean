import LeasedHeap.Proofs.Entries
import LeasedHeap.Proofs.Moments

/-
  Which handles are held.

  Moves use up handles and give out new ones.  A key is never
  given out again, so a handle that is held at the end of a
  run refers to what it referred to when the run began.

  Main declarations:
    * `World.follows_begin`
    * `World.follows_close`
    * `Moment.follows_step` and `Moment.follows_run`
-/

namespace LeasedHeap

------------------------------------------------------------
-- Handles of a World
------------------------------------------------------------

namespace World

variable {κ : Type}

theorem follows_takeValues
    (w : World κ)
    (xs : List Handle) :
    w.held.Follows (w.takeValues xs).2.held := by
  induction xs generalizing w with
  | nil => exact .refl _
  | cons x xs ih =>
      unfold takeValues
      cases w.value? x with
      | none => exact ih w
      | some v =>
          exact
            (Table.Follows.erase _ x.key).trans
              (ih { w with held := w.held.erase x.key })

theorem follows_takeCodes
    (w : World κ)
    (xs : List Handle) :
    w.held.Follows (w.takeCodes xs).2.held := by
  induction xs generalizing w with
  | nil => exact .refl _
  | cons x xs ih =>
      unfold takeCodes
      cases w.codeOf? x with
      | none => exact ih w
      | some q =>
          exact
            (Table.Follows.erase _ x.key).trans
              (ih { w with held := w.held.erase x.key })

theorem follows_store
    (w : World κ)
    (lease : Lease)
    (s : Shape)
    (items : List s.Item) :
    w.held.Follows (w.store lease s items).2.held := by
  cases s with
  | numbers width => exact .insert _ _
  | slots =>
      exact (follows_takeValues w items).trans (.insert _ _)
  | list =>
      exact (follows_takeValues w items).trans (.insert _ _)
  | closure code =>
      refine (follows_takeValues w items).trans ?_
      simp only [store]
      split
      · exact .insert _ _
      · exact (Table.Follows.erase _ _).trans (.insert _ _)

/- Actions use up handles and give out new ones. -/
theorem follows_begin
    (w : World κ)
    (a : Action κ) :
    w.held.Follows (w.begin a).2.held := by
  cases a with
  | newCollector config => exact .refl _
  | resetPeak c => exact .refl _
  | allocate c size =>
      simp only [begin, allocate]
      split
      · split
        · exact .refl _
        · exact .insert _ _
      · exact .refl _
  | clone r =>
      simp only [begin, clone]
      split
      · exact .insert _ _
      · exact .refl _
  | drop x =>
      simp only [begin, letGo]
      split
      · exact .refl _
      · exact .erase _ _
  | writeNumber x i n =>
      simp only [begin, writeNumber]
      split
      · split <;> exact .refl _
      · exact .refl _
      · exact .refl _
  | writeValue x i item =>
      simp only [begin]
      rcases exchange_cases w x i item with
        ⟨hExchange, _⟩ |
          ⟨p, lease, vs, old, v, _, _, _, hExchange, _⟩
      · rw [hExchange]
        exact .refl _
      · rw [hExchange]
        exact .erase _ _
  | newCode body values codes =>
      have hTaken :=
        (follows_takeValues w values).trans
          (follows_takeCodes (w.takeValues values).2 codes)
      exact hTaken.trans (.insert _ _)

theorem held_openArray
    (w : World κ)
    (c : CollectorId)
    (s : Shape)
    (hint : UInt64) :
    (w.openArray c s hint).2.held = w.held := by
  unfold openArray
  split <;> rfl

theorem follows_close
    (w : World κ)
    (c : CollectorId)
    (s : Shape)
    (hinted : UInt64)
    (items : List s.Item) :
    w.held.Follows (w.close c s hinted items).held := by
  unfold close
  split
  · exact .refl _
  · rename_i bytes heap _
    exact
      follows_store { w with heap } ⟨c, bytes⟩ s items

theorem held_countRun
    (w : World κ)
    (q : ObjectId) :
    (w.countRun q).held = w.held := by
  unfold countRun
  split <;> rfl

theorem held_enter
    (w : World κ)
    (c : Closure)
    (args : Nat) :
    (w.enter c args).held = w.held := by
  unfold enter
  split
  · simp only
    split
    · exact held_countRun _ _
    · rfl
  · rfl

end World

------------------------------------------------------------
-- Handles at a Moment
------------------------------------------------------------

namespace Moment

variable {κ : Type}

/- Moves use up handles and give out new ones. -/
theorem follows_start
    (m : Moment κ)
    (v : Move κ) :
    m.world.held.Follows (m.start v).world.held := by
  cases v with
  | act a => exact World.follows_begin _ _
  | openArray c s hint =>
      have hHeld := World.held_openArray m.world c s hint
      simp only [start]
      split <;> rename_i hOpen <;> rw [hOpen] at hHeld <;>
        simp only [← hHeld] <;> exact .refl _
  | closeArray k s items =>
      simp only [start]
      split
      · exact .refl _
      · exact World.follows_close _ _ _ _ _
  | enter c args =>
      simp only [start]
      rw [World.held_enter]
      exact .refl _
  | exit => exact .refl _
  | reclaim => exact .refl _

theorem follows_step
    (m : Moment κ)
    (v : Move κ) :
    m.world.held.Follows (m.step v).world.held := by
  rcases step_cases m v with
    ⟨_, hStep⟩ | ⟨f, fs, _, hStep⟩ | hStep
  · rw [hStep]
    exact follows_start m v
  · rw [hStep]
    exact .refl _
  · rw [hStep]
    exact .refl _

theorem follows_run
    (m : Moment κ)
    (moves : List (Move κ)) :
    m.world.held.Follows (m.run moves).world.held := by
  induction moves generalizing m with
  | nil => exact .refl _
  | cons v moves ih => exact (follows_step m v).trans (ih _)

end Moment

end LeasedHeap
