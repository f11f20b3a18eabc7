import LeasedHeap.Proofs.Leases
import LeasedHeap.Proofs.Progress

/-
  Threads reclaim what they share exactly.

  Threads take over handles of a world and clone and drop
  them, however their turns alternate.  Nothing is taken
  apart or goes while somebody else has a handle of it; each
  payload that goes has its lease returned once; and when the
  threads have dropped all they had, what is left is what the
  world that they left can reach, with the live bytes of
  that.

  Key definitions include:
    * `World.staff`
    * `Moment.crew` and `Moment.left`
    * `Crew.Sound`
    * `Crew.Cleared`

  Main declarations:
    * `Crew.Shares.reaches_run_iff`
    * `Moment.Sound.run_crew`
    * `Moment.Sound.cleared_crew`
    * `Moment.shared_reclaiming_is_exact`
-/

namespace LeasedHeap

------------------------------------------------------------
-- Threads that Take Over Handles
------------------------------------------------------------

namespace World

variable {κ : Type}
variable {w : World κ}
variable {hand : List Link}

/-
  Every thread takes the values of some handles over and has
  its errands; the other handles stay where they are.
-/
def staff
    (w : World κ) :
    List (List Handle × List Errand) →
      List Hand × World κ
| [] => ([], w)
| (xs, errands) :: threads =>
    let (vs, w) := w.takeValues xs
    let (hands, w) := w.staff threads
    (.ofErrands vs errands :: hands, w)

/- What threads refer to with the values that they hold. -/
def linksOf (hands : List Hand) : List Link :=
  hands.flatMap (fun th => th.values.flatMap Value.links)

/- The values of handles go into the hands of threads. -/
theorem Sound.staff
    (hSound : w.Sound hand)
    (threads : List (List Handle × List Errand)) :
    (w.staff threads).2.Sound
      (linksOf (w.staff threads).1 ++ hand) := by
  induction threads generalizing w hand with
  | nil => exact hSound
  | cons thread threads ih =>
      rcases thread with ⟨xs, errands⟩
      refine (ih (hSound.takeValues xs)).perm ?_
      simp only [World.staff, linksOf, List.flatMap_cons,
        Hand.ofErrands, List.append_assoc]
      exact List.perm_append_comm_assoc _ _ _

/- Taking handles over changes no object. -/
@[simp]
theorem heap_staff
    (w : World κ)
    (threads : List (List Handle × List Errand)) :
    (w.staff threads).2.heap = w.heap := by
  induction threads generalizing w with
  | nil => rfl
  | cons thread threads ih =>
      exact
        (ih (w.takeValues thread.1).2).trans
          (heap_takeValues w thread.1)

/- Threads start with nothing under way. -/
theorem eq_ofErrands_of_mem_staff
    {threads : List (List Handle × List Errand)}
    {th : Hand}
    (hMem : th ∈ (w.staff threads).1) :
    th = .ofErrands th.values th.errands := by
  induction threads generalizing w with
  | nil => cases hMem
  | cons thread threads ih =>
      rcases List.mem_cons.mp hMem with rfl | hRest
      · rfl
      · exact ih hRest

/- There are as many threads as were asked for. -/
theorem length_staff
    (w : World κ)
    (threads : List (List Handle × List Errand)) :
    (w.staff threads).1.length = threads.length := by
  induction threads generalizing w with
  | nil => rfl
  | cons thread threads ih =>
      exact congrArg Nat.succ (ih (w.takeValues thread.1).2)

end World

namespace Moment

variable {κ : Type}

/- The threads that take handles of a moment over. -/
def crew
    (m : Moment κ)
    (threads : List (List Handle × List Errand)) :
    Crew κ where
  heap := m.world.heap
  hands := (m.world.staff threads).1

/- The world that they leave: nobody else has its handles. -/
def left
    (m : Moment κ)
    (threads : List (List Handle × List Errand)) :
    World κ :=
  (m.world.staff threads).2

end Moment

------------------------------------------------------------
-- What Threads Leave of Objects
------------------------------------------------------------

namespace Heap

variable {κ : Type}
variable {h h' h'' : Heap κ}

/-
  No key is given out, and what stays is what it was, if not
  what taking its items out makes of it.
-/
structure Endures (h h' : Heap κ) : Prop where
  next : h'.next = h.next
  old :
    ∀ i o', h'.objects.get? i = some o' →
      ∃ o, h.objects.get? i = some o ∧
        o.cell.Fades o'.cell

theorem Endures.refl
    (h : Heap κ) :
    h.Endures h :=
  ⟨rfl, fun _ o hGet => ⟨o, hGet, .same _⟩⟩

theorem Endures.trans
    (hFirst : h.Endures h')
    (hSecond : h'.Endures h'') :
    h.Endures h'' := by
  refine ⟨hSecond.next.trans hFirst.next, ?_⟩
  intro i o'' hGet''
  rcases hSecond.old i o'' hGet'' with ⟨o', hGet', hFades'⟩
  rcases hFirst.old i o' hGet' with ⟨o, hGet, hFades⟩
  exact ⟨o, hGet, hFades.trans hFades'⟩

theorem Wanes.endures
    (hWanes : h.Wanes h') :
    h.Endures h' := by
  refine ⟨hWanes.next, ?_⟩
  intro i o' hGet'
  rcases hWanes.old i o' hGet' with ⟨o, hGet, _, hFades⟩
  exact ⟨o, hGet, hFades⟩

theorem Endures.lasting
    (hEndures : h.Endures h') :
    h.Lasting h' := by
  refine ⟨Nat.le_of_eq hEndures.next.symm, ?_⟩
  intro p o' _ hGet'
  rcases hEndures.old p o' hGet' with ⟨o, hGet, hFades⟩
  exact ⟨o, hGet, hFades.lease?_eq⟩

/- What stays is of the kind that it was. -/
theorem Endures.kind?_eq
    (hEndures : h.Endures h')
    {i : ObjectId}
    {k : Kind}
    (hThere : ∃ o, h'.objects.get? i = some o)
    (hKind : h.kind? i = some k) :
    h'.kind? i = some k := by
  rcases hThere with ⟨o', hGet'⟩
  rcases hEndures.old i o' hGet' with ⟨o, hGet, hFades⟩
  rcases kind?_eq_some_iff.mp hKind with ⟨_, hOld, rfl⟩
  rw [hGet] at hOld
  cases hOld
  exact kind?_eq_some_iff.mpr ⟨o', hGet', hFades.kind_eq⟩

/- One more handle changes no cell. -/
private theorem Endures.retain
    (h : Heap κ)
    (i : ObjectId) :
    h.Endures (h.retain i) := by
  unfold Heap.retain
  split
  · rename_i o hGet
    refine ⟨by simp [Heap.next], ?_⟩
    intro j o' hGet'
    simp only [Table.get?_set] at hGet'
    split at hGet'
    · rename_i hj
      cases hGet'
      exact ⟨o, hj.1 ▸ hGet, .same _⟩
    · exact ⟨o', hGet', .same _⟩
  · exact .refl h

/- A thread's turn makes nothing. -/
theorem endures_acts
    {th th' : Hand}
    (hActs : th.Acts h h' th') :
    h.Endures h' := by
  cases hActs with
  | ends c _ => exact .refl h
  | advances c s _ _ =>
      exact (Wanes.of_objects_eq (objects_advance ..)).endures
  | returns l fs _ _ => exact .refl h
  | reclaims f fs _ _ _ => exact (Wanes.step h f).endures
  | counts v i is _ _ _ => exact .retain h i
  | clones v _ _ _ => exact .refl h
  | starts _ _ _ => exact .refl h

end Heap

namespace Crew

variable {κ : Type}
variable {crew : Crew κ}
variable {outer : ObjectId → Nat}

theorem endures_run
    (crew : Crew κ)
    (schedule : List Nat) :
    crew.heap.Endures (crew.run schedule).heap := by
  induction schedule generalizing crew with
  | nil => exact .refl _
  | cons k schedule ih =>
      refine Heap.Endures.trans ?_ (ih (crew.step k))
      cases hk : crew.hands[k]? with
      | none =>
          rw [step_eq_self hk]
          exact .refl _
      | some th =>
          rw [step_eq hk]
          exact Heap.endures_acts (th.acts_step crew.heap)

/- What the outside reaches keeps its cell in a turn. -/
private theorem Shares.cell_of_outer
    (hShares : crew.Shares outer)
    (k : Nat)
    {i : ObjectId}
    {o : Object κ}
    (hReach : crew.heap.Reaches (fun j => 0 < outer j) i)
    (hGet : crew.heap.objects.get? i = some o) :
    ∃ o', (crew.step k).heap.objects.get? i = some o' ∧
      o'.cell = o.cell :=
  hShares.cell_of_reaches k
    (hReach.mono (fun _ hPos => Nat.add_pos_left hPos _))
    hGet

/- What the outside reaches is still reached after a turn. -/
private theorem Shares.reaches_step
    (hShares : crew.Shares outer)
    (k : Nat)
    {i : ObjectId}
    (hReach : crew.heap.Reaches (fun j => 0 < outer j) i) :
    (crew.step k).heap.Reaches (fun j => 0 < outer j) i := by
  apply hReach.of_cells
  intro j o hReachJ hGet
  rcases hShares.cell_of_outer k hReachJ hGet with
    ⟨o', hGet', hCell⟩
  exact ⟨o', hGet', congrArg Cell.objects hCell⟩

/- What the outside reaches keeps its cell in any schedule. -/
theorem Shares.cell_run
    (hShares : crew.Shares outer)
    (schedule : List Nat)
    {i : ObjectId}
    {o : Object κ}
    (hReach : crew.heap.Reaches (fun j => 0 < outer j) i)
    (hGet : crew.heap.objects.get? i = some o) :
    ∃ o', (crew.run schedule).heap.objects.get? i =
        some o' ∧ o'.cell = o.cell := by
  induction schedule generalizing crew o with
  | nil => exact ⟨o, hGet, rfl⟩
  | cons k schedule ih =>
      rcases hShares.cell_of_outer k hReach hGet with
        ⟨o', hGet', hCell⟩
      rcases ih (hShares.step k)
          (hShares.reaches_step k hReach) hGet' with
        ⟨o'', hGet'', hCell'⟩
      exact ⟨o'', hGet'', hCell'.trans hCell⟩

/- The outside reaches what it reached, and nothing else. -/
theorem Shares.reaches_run_iff
    (hShares : crew.Shares outer)
    (schedule : List Nat)
    {i : ObjectId} :
    (crew.run schedule).heap.Reaches
        (fun j => 0 < outer j) i ↔
      crew.heap.Reaches (fun j => 0 < outer j) i := by
  constructor
  · intro hReach
    induction hReach with
    | root hRoot => exact .root hRoot
    | link hFrom hGet hMem ih =>
        rcases (endures_run crew schedule).old _ _ hGet with
          ⟨o, hOld, _⟩
        rcases hShares.cell_run schedule ih hOld with
          ⟨o', hNow, hCell⟩
        rw [hGet] at hNow
        cases hNow
        exact .link ih hOld (hCell ▸ hMem)
  · intro hReach
    apply hReach.of_cells
    intro j o hReachJ hGet
    rcases hShares.cell_run schedule hReachJ hGet with
      ⟨o', hGet', hCell⟩
    exact ⟨o', hGet', congrArg Cell.objects hCell⟩

end Crew

------------------------------------------------------------
-- Exact Reclaiming
------------------------------------------------------------

/- The payloads among some that are there. -/
def Heap.there
    {κ : Type}
    (h : Heap κ)
    (es : List (ObjectId × Payload)) :
    List (ObjectId × Payload) :=
  es.filter (fun e => (h.objects.get? e.1).isSome)

/- The payloads among some that are not. -/
def Heap.gone
    {κ : Type}
    (h : Heap κ)
    (es : List (ObjectId × Payload)) :
    List (ObjectId × Payload) :=
  es.filter (fun e => !(h.objects.get? e.1).isSome)

/- The payloads that are there and cannot be reached. -/
open Classical in
noncomputable def World.forsaken
    {κ : Type}
    (w : World κ)
    (es : List (ObjectId × Payload)) :
    List (ObjectId × Payload) :=
  (w.heap.there es).filter (fun e => ¬ w.Reaches e.1)

namespace Crew

variable {κ : Type}

/-
  What holds after every turn, with `left` for the world that
  the threads left and `made` for the payloads that were made
  before.
-/
structure Sound
    (crew : Crew κ)
    (left : World κ)
    (reserved : List Lease)
    (made : List (ObjectId × Payload)) : Prop where
  counted :
    ∀ i, crew.heap.handles i =
      crew.heap.inner i + left.outer i + crew.handles i
  there :
    ∀ i, (∃ o, crew.heap.objects.get? i = some o) ↔
      0 < crew.heap.handles i
  /- A thread that finds one handle has the only one. -/
  unique :
    ∀ k th i, crew.hands[k]? = some th →
      0 < th.handles i → crew.heap.handles i = 1 →
        crew.Sole left.outer k i
  /- What is taken apart or goes is the thread's alone. -/
  spares :
    ∀ k i o, crew.heap.objects.get? i = some o →
      (∃ o', (crew.step k).heap.objects.get? i = some o' ∧
          o'.cell = o.cell) ∨
        crew.Sole left.outer k i
  /- What others can reach stays. -/
  leaves :
    ∀ k i o,
      crew.heap.Reaches
          (fun j => 0 < left.outer j + crew.others k j) i →
        crew.heap.objects.get? i = some o →
          ∃ o',
            (crew.step k).heap.objects.get? i = some o' ∧
              o'.cell = o.cell
  /- What is gone is returned once, or is about to be. -/
  returned :
    (crew.heap.returned ++
        crew.hands.flatMap Hand.untold).Perm
      ((crew.heap.gone made).map (·.2.lease))
  live :
    ∀ c, (crew.heap.counters c).live.toNat =
      Moment.bytesOf c (crew.heap.there made) +
          Lease.sum (Lease.bytesAt c)
            (crew.hands.flatMap Hand.unsubtracted) +
        Lease.sum (Lease.bytesAt c) reserved

/-
  What holds when the threads are idle and hold nothing: what
  is there is what the world they left can reach, its books
  say so, and the live bytes are those without the payloads
  that nobody else could reach.
-/
structure Cleared
    (crew : Crew κ)
    (left : World κ)
    (reserved : List Lease)
    (made : List (ObjectId × Payload)) : Prop where
  there :
    ∀ i, (∃ o, crew.heap.objects.get? i = some o) ↔
      left.Reaches i
  accounted :
    Moment.Accounted
      ⟨{ left with heap := crew.heap }, [], reserved⟩ made
  live :
    ∀ c, (crew.heap.counters c).live.toNat +
        Moment.bytesOf c (left.forsaken made) =
      (left.heap.counters c).live.toNat

end Crew

------------------------------------------------------------
-- The Start
------------------------------------------------------------

namespace Moment

variable {κ : Type}
variable {m m' : Moment κ}
variable {made : List (ObjectId × Payload)}

/- Threads that have just started have what they refer to. -/
private theorem handles_of_fresh
    {hands : List Hand}
    (hFresh :
      ∀ th ∈ hands, th = .ofErrands th.values th.errands)
    (i : ObjectId) :
    Crew.sumHandles hands i =
      ((World.linksOf hands).map Prod.fst).count i := by
  induction hands with
  | nil => rfl
  | cons th hands ih =>
      have hRest :=
        ih (fun th hth =>
          hFresh th (List.mem_cons_of_mem _ hth))
      have hThread :
          th.handles i =
            (th.values.flatMap Value.objects).count i := by
        rw [hFresh th (List.mem_cons_self ..)]
        exact Hand.handles_ofErrands _ _ i
      simp only [Crew.sumHandles, World.linksOf,
        List.map_cons, List.sum_cons, List.flatMap_cons,
        List.map_append, List.count_append] at hRest ⊢
      rw [hThread, hRest, Value.flatMap_objects_eq]

/- The world that threads leave and their hands are sound. -/
private theorem Sound.staff
    (hSound : m.Sound)
    (hFrames : m.frames = [])
    (threads : List (List Handle × List Errand)) :
    (m.left threads).Sound
      (World.linksOf (m.crew threads).hands) := by
  rcases m with ⟨w, fs, reserved⟩
  cases hFrames
  have hStaffed := hSound.world.staff threads
  rw [List.append_nil] at hStaffed
  exact hStaffed

/- The heap of the threads is that of the world they left. -/
theorem heap_left
    (m : Moment κ)
    (threads : List (List Handle × List Errand)) :
    (m.left threads).heap = m.world.heap :=
  World.heap_staff m.world threads

/- The counts are exact when threads take handles over. -/
theorem Sound.shares
    (hSound : m.Sound)
    (hFrames : m.frames = [])
    (threads : List (List Handle × List Errand)) :
    (m.crew threads).Shares (m.left threads).outer := by
  have hStaffed := hSound.staff hFrames threads
  have hHeap := heap_left m threads
  have hFresh :
      ∀ th ∈ (m.crew threads).hands,
        th = .ofErrands th.values th.errands :=
    fun _ hth => World.eq_ofErrands_of_mem_staff hth
  refine ⟨?_, ?_⟩
  · have hExact := hStaffed.exact
    rw [hHeap] at hExact
    refine hExact.congr (fun i => ?_)
    rw [Crew.handles, handles_of_fresh hFresh]
  · intro th hth
    have hNow := hFresh th hth
    refine ⟨?_, ?_, ?_⟩
    · intro v hv l hl
      have hInHand :=
        hStaffed.inHand l
          (List.mem_flatMap.mpr
            ⟨th, hth, List.mem_flatMap.mpr ⟨v, hv, hl⟩⟩)
      rw [hHeap] at hInHand
      exact hInHand
    · intro f hf
      rw [hNow] at hf
      cases hf
    · intro v is hCloning
      rw [hNow] at hCloning
      cases hCloning

/- The books balance when threads take handles over. -/
theorem Sound.kept
    (hSound : m.Sound)
    (hFrames : m.frames = [])
    (threads : List (List Handle × List Errand)) :
    ∃ xs, (m.crew threads).Kept xs m.reserved := by
  have hBalanced := hSound.balanced
  rw [hFrames] at hBalanced
  refine
    ⟨(m.crew threads).hands.map (fun th => (th, none)), ?_,
      hBalanced.booked ?_⟩
  · rw [List.map_map]
    exact (List.map_id _).symm
  · intro th hth
    rw [World.eq_ofErrands_of_mem_staff hth]
    exact ⟨rfl, rfl⟩

/- What was made stays recorded while nothing is made. -/
theorem Recorded.of_endures
    (hRecorded : m.Recorded made)
    (hEndures :
      m.world.heap.Endures m'.world.heap)
    (hIssued :
      m'.world.heap.issued = m.world.heap.issued) :
    m'.Recorded made := by
  have hLasting := hEndures.lasting
  refine ⟨hRecorded.keys, ?_, ?_, ?_, ?_⟩
  · intro e he
    rw [hEndures.next]
    exact hRecorded.old e he
  · intro e he o' hGet'
    rcases hLasting.old e.1 o' (hRecorded.old e he) hGet'
      with ⟨o, hGet, hLease⟩
    rw [hLease]
    exact hRecorded.same e he o hGet
  · intro p l hLease
    have hThere : p < m'.world.heap.next := by
      rcases Option.bind_eq_some_iff.mp hLease with
        ⟨o, hGet, _⟩
      exact Table.lt_issued_of_get? hGet
    rw [hEndures.next] at hThere
    exact
      hRecorded.known p l
        (hLasting.lease?_eq_some hThere hLease)
  · intro f
    rw [hIssued]
    exact hRecorded.told f

/- What was made is there or gone. -/
theorem sum_there_gone
    (h : Heap κ)
    (made : List (ObjectId × Payload))
    (f : Lease → Nat) :
    Lease.sum f ((h.there made).map (·.2.lease)) +
        Lease.sum f ((h.gone made).map (·.2.lease)) =
      Lease.sum f (made.map (·.2.lease)) := by
  have hPerm :=
    List.filter_append_perm
      (fun e : ObjectId × Payload =>
        (h.objects.get? e.1).isSome) made
  have hSum := ((hPerm.map (·.2.lease)).map f).sum_eq
  rw [List.map_append, List.map_append, List.sum_append]
    at hSum
  exact hSum

/- What is leased is held by those of the made that are there. -/
theorem Recorded.leased_eq_there
    (hRecorded : m.Recorded made)
    (f : Lease → Nat) :
    m.world.heap.leased f =
      Lease.sum f
        ((m.world.heap.there made).map (·.2.lease)) := by
  rw [hRecorded.leased_eq]
  congr 2
  apply List.filter_congr
  intro e he
  rw [Bool.eq_iff_iff]
  constructor
  · intro hSome
    rcases Option.isSome_iff_exists.mp hSome with ⟨l, hl⟩
    rcases Option.bind_eq_some_iff.mp hl with ⟨o, hGet, _⟩
    exact Option.isSome_iff_exists.mpr ⟨o, hGet⟩
  · intro hSome
    rcases Option.isSome_iff_exists.mp hSome with ⟨o, hGet⟩
    rw [hRecorded.lease?_eq he hGet]
    rfl

end Moment

------------------------------------------------------------
-- Every Schedule
------------------------------------------------------------

namespace Crew

variable {κ : Type}
variable {crew : Crew κ}
variable {left : World κ}
variable {reserved : List Lease}
variable {made : List (ObjectId × Payload)}
variable {xs : List Shift}

/-
  Exact counts and books that are kept tell what holds after
  a turn.
-/
theorem Shares.sound
    (hShares : crew.Shares left.outer)
    (hKept : crew.Kept xs reserved)
    (hRecorded :
      Moment.Recorded
        ⟨{ left with heap := crew.heap }, [], reserved⟩
        made) :
    crew.Sound left reserved made := by
  have hCounted :
      ∀ i, crew.heap.handles i =
        crew.heap.inner i + left.outer i +
          crew.handles i := by
    intro i
    have hAt := hShares.exact.counted i
    omega
  have hLeased := fun f => hRecorded.leased_eq_there f
  refine
    ⟨hCounted, ?_, fun k th i hk => hShares.sole hk,
      fun k i o => hShares.cell_step k,
      fun k i o => hShares.cell_of_reaches k, ?_, ?_⟩
  · intro i
    constructor
    · rintro ⟨o, hGet⟩
      rw [Heap.handles_of_get? hGet]
      exact hShares.exact.held i o hGet
    · intro hPos
      apply hShares.exact.exists_of_pos
      have hAt := hShares.exact.counted i
      omega
  · apply Lease.perm_of_sum
    intro f
    have hKeptAt := hKept.booked.kept_untold f
    have hMade := hRecorded.told f
    have hSplit := Moment.sum_there_gone crew.heap made f
    have hLeasedAt := hLeased f
    rw [← hKept.hands] at hKeptAt
    rw [Lease.sum_append]
    simp only at hMade hLeasedAt
    omega
  · intro c
    have hThere :
        crew.heap.leased (Lease.bytesAt c) =
          Moment.bytesOf c (crew.heap.there made) :=
      hLeased (Lease.bytesAt c)
    rw [hKept.booked.live_unsubtracted c, ← hKept.hands,
      hThere]

/- A thread that is idle and holds nothing has no handle. -/
private theorem handles_of_empty
    {th : Hand}
    (hIdle : th.isIdle = true)
    (hEmpty : th.values = [])
    (i : ObjectId) :
    th.handles i = 0 := by
  simp only [Hand.isIdle, Bool.and_eq_true,
    List.isEmpty_iff, Option.isNone_iff_eq_none] at hIdle
  rcases hIdle with ⟨⟨hCloning, hFrames⟩, _⟩
  simp [Hand.handles, Hand.kept, Hand.copied, hCloning,
    hFrames, hEmpty]

/- Threads that are idle and hold nothing have no handles. -/
theorem handles_eq_zero
    (hIdle : crew.isIdle = true)
    (hEmpty : ∀ th ∈ crew.hands, th.values = [])
    (i : ObjectId) :
    crew.handles i = 0 := by
  apply List.sum_eq_zero
  intro n hn
  rcases List.mem_map.mp hn with ⟨th, hth, rfl⟩
  exact
    handles_of_empty (List.all_eq_true.mp hIdle th hth)
      (hEmpty th hth) i

/- The books of threads that are idle are balanced. -/
theorem Kept.balanced
    (hKept : crew.Kept xs reserved)
    (hIdle : crew.isIdle = true) :
    crew.heap.Balanced [] reserved := by
  apply hKept.booked.balanced
  intro x hx
  have hMem : x.1 ∈ crew.hands := by
    rw [hKept.hands]
    exact List.mem_map_of_mem hx
  have hNow := List.all_eq_true.mp hIdle x.1 hMem
  simp only [Hand.isIdle, Bool.and_eq_true,
    List.isEmpty_iff, Option.isNone_iff_eq_none] at hNow
  exact ⟨hNow.1.2, hNow.2⟩

end Crew

namespace Moment

variable {κ : Type}
variable {m : Moment κ}
variable {made : List (ObjectId × Payload)}

/- What was made stays recorded in every schedule. -/
private theorem Recorded.run_crew
    (hRecorded : m.Recorded made)
    (hSound : m.Sound)
    (hFrames : m.frames = [])
    (threads : List (List Handle × List Errand))
    (schedule : List Nat) :
    Moment.Recorded
      ⟨{ m.left threads with
          heap := ((m.crew threads).run schedule).heap },
        [], m.reserved⟩
      made := by
  rcases hSound.kept hFrames threads with ⟨xs, hKept⟩
  exact
    hRecorded.of_endures
      (Crew.endures_run (m.crew threads) schedule)
      (hKept.run schedule).1

/- Whatever turns threads take, they are sound. -/
theorem Sound.run_crew
    (hSound : m.Sound)
    (hFrames : m.frames = [])
    (hRecorded : m.Recorded made)
    (threads : List (List Handle × List Errand))
    (schedule : List Nat) :
    ((m.crew threads).run schedule).Sound (m.left threads)
      m.reserved made := by
  rcases hSound.kept hFrames threads with ⟨xs, hKept⟩
  rcases (hKept.run schedule).2 with ⟨xs', hNow⟩
  exact
    ((hSound.shares hFrames threads).run schedule).sound
      hNow
      (hRecorded.run_crew hSound hFrames threads schedule)

/-
  What is there before threads start, split by what is left
  of it in the end.
-/
private theorem bytesOf_there
    {w : World κ}
    {h : Heap κ}
    (hThere :
      ∀ i, (h.objects.get? i).isSome = true ↔ w.Reaches i)
    (hBefore :
      ∀ i, w.Reaches i → (w.heap.objects.get? i).isSome)
    (c : CollectorId)
    (made : List (ObjectId × Payload)) :
    bytesOf c (h.there made) + bytesOf c (w.forsaken made) =
      bytesOf c (w.heap.there made) := by
  classical
  have hKeep :
      h.there made =
        (w.heap.there made).filter
          (fun e => w.Reaches e.1) := by
    unfold Heap.there
    rw [List.filter_filter]
    apply List.filter_congr
    intro e _
    rw [Bool.eq_iff_iff, hThere, Bool.and_eq_true,
      decide_eq_true_iff]
    exact
      ⟨fun hReach => ⟨hReach, hBefore e.1 hReach⟩,
        fun hBoth => hBoth.1⟩
  have hPerm :=
    List.filter_append_perm
      (fun e : ObjectId × Payload => decide (w.Reaches e.1))
      (w.heap.there made)
  have hSum :=
    ((hPerm.map (·.2.lease)).map (Lease.bytesAt c)).sum_eq
  rw [List.map_append, List.map_append, List.sum_append]
    at hSum
  rw [hKeep]
  simpa [bytesOf, Lease.sum, World.forsaken] using hSum

/- What the world that threads leave can reach is there. -/
private theorem Sound.exists_of_reaches_left
    (hSound : m.Sound)
    (hFrames : m.frames = [])
    (threads : List (List Handle × List Errand))
    {i : ObjectId}
    (hReach : (m.left threads).Reaches i) :
    ∃ o, (m.left threads).heap.objects.get? i = some o := by
  have hExact := (hSound.shares hFrames threads).exact
  rw [World.reaches_iff, heap_left] at hReach
  rw [heap_left]
  exact
    hExact.exists_of_reaches
      (hReach.mono (fun _ hPos => Nat.add_pos_left hPos _))

/-
  When the threads hold nothing, the counts are exact with
  the world that they left alone.
-/
private theorem Sound.exact_run_crew
    (hSound : m.Sound)
    (hFrames : m.frames = [])
    {threads : List (List Handle × List Errand)}
    {schedule : List Nat}
    (hIdle :
      ((m.crew threads).run schedule).isIdle = true)
    (hEmpty :
      ∀ th ∈ ((m.crew threads).run schedule).hands,
        th.values = []) :
    ((m.crew threads).run schedule).heap.Exact
      (m.left threads).outer :=
  ((hSound.shares hFrames threads).run schedule).exact.congr
    (fun i => by
      rw [Crew.handles_eq_zero hIdle hEmpty, Nat.add_zero])

/- What is there is then what that world can reach. -/
private theorem Sound.exists_iff_reaches_left
    (hSound : m.Sound)
    (hFrames : m.frames = [])
    {threads : List (List Handle × List Errand)}
    {schedule : List Nat}
    (hIdle :
      ((m.crew threads).run schedule).isIdle = true)
    (hEmpty :
      ∀ th ∈ ((m.crew threads).run schedule).hands,
        th.values = [])
    (i : ObjectId) :
    (∃ o,
      ((m.crew threads).run schedule).heap.objects.get? i =
        some o) ↔
      (m.left threads).Reaches i := by
  have hExact := hSound.exact_run_crew hFrames hIdle hEmpty
  rw [hExact.exists_iff_reaches,
    (hSound.shares hFrames threads).reaches_run_iff
      schedule,
    World.reaches_iff, heap_left]
  rfl

/- That world is sound with what is left of the heap. -/
private theorem Sound.of_run_crew
    (hSound : m.Sound)
    (hFrames : m.frames = [])
    {threads : List (List Handle × List Errand)}
    {schedule : List Nat}
    (hIdle :
      ((m.crew threads).run schedule).isIdle = true)
    (hEmpty :
      ∀ th ∈ ((m.crew threads).run schedule).hands,
        th.values = []) :
    Moment.Sound
      ⟨{ m.left threads with
          heap := ((m.crew threads).run schedule).heap },
        [], m.reserved⟩ := by
  have hExact := hSound.exact_run_crew hFrames hIdle hEmpty
  rcases hSound.kept hFrames threads with ⟨xs, hKept⟩
  rcases (hKept.run schedule).2 with ⟨xs', hNow⟩
  refine ⟨hExact, ?_, by simp, hNow.balanced hIdle⟩
  intro x r hRef l hl
  have hBefore :=
    (hSound.staff hFrames threads).admitted x r hRef l hl
  rw [heap_left] at hBefore
  refine
    (Crew.endures_run (m.crew threads) schedule).kind?_eq
      ?_ hBefore
  apply hExact.exists_of_pos
  have hRoot : 0 < (m.left threads).outer l.1 :=
    World.roots_iff.mp
      ⟨x, r, hRef, List.mem_map_of_mem hl⟩
  omega

/- With no frame left, live bytes are leased or reserved. -/
private theorem Sound.live_eq_there
    (hSound : m.Sound)
    (hFrames : m.frames = [])
    (hRecorded : m.Recorded made)
    (c : CollectorId) :
    (m.world.heap.counters c).live.toNat =
      bytesOf c (m.world.heap.there made) +
        Lease.sum (Lease.bytesAt c) m.reserved := by
  have hLeased :
      m.world.heap.leased (Lease.bytesAt c) =
        bytesOf c (m.world.heap.there made) :=
    hRecorded.leased_eq_there (Lease.bytesAt c)
  rw [hSound.balanced.live c, hFrames, ← hLeased]
  rfl

/- Threads that have dropped everything leave what they found. -/
theorem Sound.cleared_crew
    (hSound : m.Sound)
    (hFrames : m.frames = [])
    (hRecorded : m.Recorded made)
    (threads : List (List Handle × List Errand))
    (schedule : List Nat)
    (hIdle :
      ((m.crew threads).run schedule).isIdle = true)
    (hEmpty :
      ∀ th ∈ ((m.crew threads).run schedule).hands,
        th.values = []) :
    ((m.crew threads).run schedule).Cleared
      (m.left threads) m.reserved made := by
  have hThere :=
    hSound.exists_iff_reaches_left hFrames hIdle hEmpty
  have hEnd := hSound.of_run_crew hFrames hIdle hEmpty
  have hNow :=
    hRecorded.run_crew hSound hFrames threads schedule
  refine ⟨hThere, hEnd.accounted rfl hNow, fun c => ?_⟩
  have hLive := hEnd.live_eq_there rfl hNow c
  have hLiveBefore :=
    hSound.live_eq_there hFrames hRecorded c
  have hSplit :
      bytesOf c
            (((m.crew threads).run schedule).heap.there
              made) +
          bytesOf c ((m.left threads).forsaken made) =
        bytesOf c ((m.left threads).heap.there made) := by
    apply bytesOf_there
    · intro i
      rw [← hThere i, Option.isSome_iff_exists]
    · intro i hReach
      exact
        Option.isSome_iff_exists.mpr
          (hSound.exists_of_reaches_left hFrames threads
            hReach)
  rw [heap_left] at hSplit ⊢
  simp only at hLive
  omega

/-
  Threads take any handles over after any run and clone and
  drop what they have.  After every turn of every schedule
  nothing that somebody else has a handle of is taken apart
  or goes, and what is gone has its lease returned once; when
  all handles are dropped, nothing is left of what nobody
  else could reach.  Threads that get turns enough are done.
-/
theorem shared_reclaiming_is_exact
    (provides : UInt64 → Bool)
    (moves : List (Move κ))
    (threads : List (List Handle × List Errand))
    (hFrames : ((fresh provides).run moves).frames = []) :
    (∀ schedule,
      ((((fresh provides).run moves).crew threads).run
          schedule).Sound
        (((fresh provides).run moves).left threads)
        ((fresh provides).run moves).reserved
        ((fresh provides).makes moves)) ∧
      (∀ schedule,
        ((((fresh provides).run moves).crew threads).run
            schedule).isIdle = true →
          (∀ th ∈
            ((((fresh provides).run moves).crew
              threads).run schedule).hands,
            th.values = []) →
            ((((fresh provides).run moves).crew
                threads).run schedule).Cleared
              (((fresh provides).run moves).left threads)
              ((fresh provides).run moves).reserved
              ((fresh provides).makes moves)) ∧
        ∃ turns, ∀ schedule,
          (∀ k, k < threads.length →
            turns < schedule.count k) →
            ∀ th ∈
              ((((fresh provides).run moves).crew
                threads).run schedule).hands,
              th.isDone = true := by
  have hSound := sound_run_fresh provides moves
  have hRecorded := recorded_run_fresh provides moves
  refine
    ⟨hSound.run_crew hFrames hRecorded threads,
      hSound.cleared_crew hFrames hRecorded threads,
      (((fresh provides).run moves).crew threads).work, ?_⟩
  intro schedule hTurns
  rcases hSound.kept hFrames threads with ⟨xs, hKept⟩
  apply hKept.done_of_turns
  intro k hk
  apply hTurns k
  rw [← World.length_staff
    ((fresh provides).run moves).world threads]
  exact hk

/-
  Two threads each drop a handle of a list that holds the
  only handle of another.  Both find it shared; the second
  decrement is the last, and what the list holds is then
  dropped by its own elements' drops.
-/
theorem shared_reclaiming_is_exact_contended :
    ∃ m : Moment Unit,
      (fresh (fun _ => true)).run
          [.act (.clone (.value (.integer 7))),
            .openArray 0 .list 1,
            .closeArray 0 .list [⟨0⟩],
            .openArray 0 .list 1,
            .closeArray 0 .list [⟨1⟩],
            .act (.clone (.value (.list 1)))] = m ∧
        (m.world.heap.counters 0).live = 64 ∧
        (∃ crew,
          (m.crew
              [([⟨2⟩], [.drop 0]), ([⟨3⟩], [.drop 0])]).run
              [0, 1, 0, 1] = crew ∧
            crew.hands.map Hand.frames =
              [[.activation (.list 1) []],
                [.activation (.list 1) []]] ∧
            crew.heap.handles 1 = 2 ∧
            crew.Sound
              (m.left
                [([⟨2⟩], [.drop 0]), ([⟨3⟩], [.drop 0])])
              []
              [(0, ⟨⟨0, 32⟩, .elements [.integer 7]⟩),
                (1, ⟨⟨0, 32⟩, .elements [.list 0]⟩)]) ∧
        ∃ crew,
          (m.crew
              [([⟨2⟩], [.drop 0]), ([⟨3⟩], [.drop 0])]).run
              ([0, 1, 0, 1, 0, 1, 0] ++
                List.replicate 16 1) = crew ∧
            crew.isIdle = true ∧
            (crew.heap.counters 0).live = 0 ∧
            crew.Cleared
              (m.left
                [([⟨2⟩], [.drop 0]), ([⟨3⟩], [.drop 0])])
              []
              [(0, ⟨⟨0, 32⟩, .elements [.integer 7]⟩),
                (1, ⟨⟨0, 32⟩, .elements [.list 0]⟩)] := by
  have hExact :=
    shared_reclaiming_is_exact (κ := Unit) (fun _ => true)
      [.act (.clone (.value (.integer 7))),
        .openArray 0 .list 1, .closeArray 0 .list [⟨0⟩],
        .openArray 0 .list 1, .closeArray 0 .list [⟨1⟩],
        .act (.clone (.value (.list 1)))]
      [([⟨2⟩], [.drop 0]), ([⟨3⟩], [.drop 0])] rfl
  refine
    ⟨_, rfl, rfl,
      ⟨_, rfl, rfl, rfl, hExact.1 [0, 1, 0, 1]⟩, ?_⟩
  refine ⟨_, rfl, rfl, rfl, ?_⟩
  apply hExact.2.1 _ rfl
  intro th hth
  have hValues : th.values ∈ [[], []] :=
    List.mem_map_of_mem (f := Hand.values) hth
  simpa using hValues

end Moment

end LeasedHeap
