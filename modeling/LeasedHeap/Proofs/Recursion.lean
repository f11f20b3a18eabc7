import LeasedHeap.Proofs.Reclaiming

/-
  Dropping values as a recursion.

  Dropping the last handle of a payload visits its nested
  items from last to first, lets the payload go and then
  gives up the code.  A visit to the last handle of a payload
  lets the payload go first, then gives up the code and
  visits the nested items after that.  The items stay where
  they are until the payload goes; nothing is pending, and
  nothing is taken out.

  Key definitions include:
    * `Chore`
    * `Heap.Settles`

  The recursion has one outcome, by:
    * `Heap.Settles.unique`
-/

namespace LeasedHeap

------------------------------------------------------------
-- The Recursion
------------------------------------------------------------

/- Something to do in dropping values. -/
inductive Chore where
/- A value to drop. -/
| drop : Value → Chore
/- A nested item of a payload to visit. -/
| visit : Value → Chore
/- One handle of a code to give up. -/
| code : ObjectId → Chore

/- A closure has a handle of its code to give up. -/
def Value.codeChores (v : Value) : List Chore :=
  v.code?.toList.map .code

/- The nested items of a payload are visited last to first. -/
def Contents.visits (contents : Contents) : List Chore :=
  contents.pending.map .visit

/- A code drops what it captured. -/
def Code.chores
    {κ : Type}
    (c : Code κ) : List Chore :=
  (c.values.filter Value.isNested).map .drop ++
    c.codes.map .code

namespace Heap

variable {κ : Type}

/-
  What some chores make of a heap, one after another.  A drop
  has its visits done first; all else is left for later.
-/
inductive Settles :
    List Chore → Heap κ → Heap κ → Prop where
| nil {h : Heap κ} :
    Settles [] h h
/- An integer has nothing to give up. -/
| drop_integer
    {i : Int64} {cs : List Chore} {h h' : Heap κ} :
    Settles cs h h' →
      Settles (.drop (.integer i) :: cs) h h'
| visit_integer
    {i : Int64} {cs : List Chore} {h h' : Heap κ} :
    Settles cs h h' →
      Settles (.visit (.integer i) :: cs) h h'
/- Others have handles of the payload: only this one goes. -/
| drop_shared
    {v : Value} {p : ObjectId} {cs : List Chore}
    {h h' : Heap κ} :
    v.payload? = some p → 2 ≤ h.handles p →
      Settles (v.codeChores ++ cs) (h.uncount p) h' →
        Settles (.drop v :: cs) h h'
/- The items are visited before the payload goes. -/
| drop_last
    {v : Value} {p : ObjectId} {cs : List Chore}
    {lease : Lease} {contents : Contents}
    {h h₁ h' : Heap κ} :
    v.payload? = some p →
      h.objects.get? p =
        some ⟨1, .payload ⟨lease, contents⟩⟩ →
      Settles contents.visits h h₁ →
      Settles (v.codeChores ++ cs) (h₁.free p lease) h' →
        Settles (.drop v :: cs) h h'
| visit_shared
    {v : Value} {p : ObjectId} {cs : List Chore}
    {h h' : Heap κ} :
    v.payload? = some p → 2 ≤ h.handles p →
      Settles (v.codeChores ++ cs) (h.uncount p) h' →
        Settles (.visit v :: cs) h h'
/- The payload goes before the items are visited. -/
| visit_last
    {v : Value} {p : ObjectId} {cs : List Chore}
    {lease : Lease} {contents : Contents}
    {h h' : Heap κ} :
    v.payload? = some p →
      h.objects.get? p =
        some ⟨1, .payload ⟨lease, contents⟩⟩ →
      Settles (v.codeChores ++ (contents.visits ++ cs))
        (h.free p lease) h' →
        Settles (.visit v :: cs) h h'
| code_shared
    {q : ObjectId} {cs : List Chore} {h h' : Heap κ} :
    2 ≤ h.handles q → Settles cs (h.uncount q) h' →
      Settles (.code q :: cs) h h'
/- The code ends, and what it captured is dropped. -/
| code_last
    {q : ObjectId} {cs : List Chore} {c : Code κ}
    {h h' : Heap κ} :
    h.objects.get? q = some ⟨1, .code c⟩ →
      Settles (c.chores ++ cs) (h.discard q) h' →
        Settles (.code q :: cs) h h'

variable {h h' h'' hs : Heap κ}
variable {cs : List Chore}

/- A shared object has not its last handle. -/
private theorem ne_last_of_shared
    {i : ObjectId}
    {cell : Cell κ}
    (hShared : 2 ≤ h.handles i) :
    h.objects.get? i ≠ some ⟨1, cell⟩ := by
  intro hGet
  rw [handles_of_get? hGet] at hShared
  exact Nat.not_succ_le_self 1 hShared

/- The recursion has one outcome. -/
theorem Settles.unique
    (hFirst : Settles cs h h')
    (hSecond : Settles cs h h'') :
    h' = h'' := by
  induction hFirst generalizing h'' with
  | nil =>
      cases hSecond
      rfl
  | drop_integer _ ih =>
      cases hSecond with
      | drop_integer hRest => exact ih hRest
      | drop_shared hv => cases hv
      | drop_last hv => cases hv
  | visit_integer _ ih =>
      cases hSecond with
      | visit_integer hRest => exact ih hRest
      | visit_shared hv => cases hv
      | visit_last hv => cases hv
  | drop_shared hv hShared _ ih =>
      cases hSecond with
      | drop_integer => cases hv
      | drop_shared hv' _ hRest =>
          cases hv.symm.trans hv'
          exact ih hRest
      | drop_last hv' hGet =>
          cases hv.symm.trans hv'
          exact absurd hGet (ne_last_of_shared hShared)
  | drop_last hv hGet _ _ ihVisits ihRest =>
      cases hSecond with
      | drop_integer => cases hv
      | drop_shared hv' hShared =>
          cases hv.symm.trans hv'
          exact absurd hGet (ne_last_of_shared hShared)
      | drop_last hv' hGet' hVisits hRest =>
          cases hv.symm.trans hv'
          cases hGet.symm.trans hGet'
          cases ihVisits hVisits
          exact ihRest hRest
  | visit_shared hv hShared _ ih =>
      cases hSecond with
      | visit_integer => cases hv
      | visit_shared hv' _ hRest =>
          cases hv.symm.trans hv'
          exact ih hRest
      | visit_last hv' hGet =>
          cases hv.symm.trans hv'
          exact absurd hGet (ne_last_of_shared hShared)
  | visit_last hv hGet _ ih =>
      cases hSecond with
      | visit_integer => cases hv
      | visit_shared hv' hShared =>
          cases hv.symm.trans hv'
          exact absurd hGet (ne_last_of_shared hShared)
      | visit_last hv' hGet' hRest =>
          cases hv.symm.trans hv'
          cases hGet.symm.trans hGet'
          exact ih hRest
  | code_shared hShared _ ih =>
      cases hSecond with
      | code_shared _ hRest => exact ih hRest
      | code_last hGet =>
          exact absurd hGet (ne_last_of_shared hShared)
  | code_last hGet _ ih =>
      cases hSecond with
      | code_shared hShared =>
          exact absurd hGet (ne_last_of_shared hShared)
      | code_last hGet' hRest =>
          cases hGet.symm.trans hGet'
          exact ih hRest

end Heap

end LeasedHeap
