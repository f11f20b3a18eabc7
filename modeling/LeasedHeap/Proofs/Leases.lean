import LeasedHeap.Proofs.History

/-
  Leases follow reachability.

  After every operation of every run, a payload holds its
  lease exactly while it can be reached from a handle that is
  held, and the counters and the trace of every collector say
  just that.

  Main declarations:
    * `World.Reaches`
    * `Moment.Accounted`
    * `Moment.Sound.accounted`
-/

namespace LeasedHeap

------------------------------------------------------------
-- Collections of Leases
------------------------------------------------------------

namespace Lease

/- Some leases are counted by a weight. -/
private theorem sum_ite_eq_count
    (l : Lease)
    (ls : List Lease) :
    Lease.sum (fun k => if k = l then 1 else 0) ls =
      ls.count l := by
  induction ls with
  | nil => rfl
  | cons k ls ih =>
      rw [sum_cons, ih, List.count_cons]
      by_cases hk : k = l
      · simp [hk]
        omega
      · simp [hk]

/- Leases of equal sums are the same leases. -/
theorem perm_of_sum
    {ls ms : List Lease}
    (hSum : ∀ f, Lease.sum f ls = Lease.sum f ms) :
    ls.Perm ms := by
  rw [List.perm_iff_count]
  intro l
  rw [← sum_ite_eq_count, ← sum_ite_eq_count]
  exact hSum _

end Lease

------------------------------------------------------------
-- Reachability from Handles
------------------------------------------------------------

namespace World

variable {κ : Type}

/- The objects that can be reached from handles held. -/
def Reaches
    (w : World κ)
    (i : ObjectId) : Prop :=
  w.heap.Reaches w.Roots i

theorem reaches_iff
    {w : World κ}
    {i : ObjectId} :
    w.Reaches i ↔
      w.heap.Reaches (fun j => 0 < w.outer j) i := by
  constructor
  · intro hReach
    exact hReach.mono (fun _ => roots_iff.mp)
  · intro hReach
    exact hReach.mono (fun _ => roots_iff.mpr)

/- Nothing is reached if nothing is held. -/
theorem not_reaches_of_empty
    {w : World κ}
    (hEmpty : ∀ x, w.ref? x = none)
    (i : ObjectId) :
    ¬ w.Reaches i := by
  intro hReach
  unfold Reaches at hReach
  induction hReach with
  | root hRoot =>
      rcases hRoot with ⟨x, r, hRef, _⟩
      rw [hEmpty x] at hRef
      cases hRef
  | link _ _ _ ih => exact ih

end World

------------------------------------------------------------
-- Accounts
------------------------------------------------------------

namespace Moment

variable {κ : Type}

/- How many of some payloads a collector has leased. -/
def countOf
    (c : CollectorId)
    (es : List (ObjectId × Payload)) : Nat :=
  Lease.sum (Lease.countAt c) (es.map (·.2.lease))

/- How many bytes of some payloads are of a collector. -/
def bytesOf
    (c : CollectorId)
    (es : List (ObjectId × Payload)) : Nat :=
  Lease.sum (Lease.bytesAt c) (es.map (·.2.lease))

/- The payloads among some that can be reached. -/
open Classical in
noncomputable def reached
    (m : Moment κ)
    (es : List (ObjectId × Payload)) :
    List (ObjectId × Payload) :=
  es.filter (fun e => m.world.Reaches e.1)

/- The payloads among some that cannot be reached. -/
open Classical in
noncomputable def lost
    (m : Moment κ)
    (es : List (ObjectId × Payload)) :
    List (ObjectId × Payload) :=
  es.filter (fun e => ¬ m.world.Reaches e.1)

/-
  What leases, counters and trace say of the payloads that
  were made.  The live bytes are those of the payloads that
  can be reached and of the array calls that are under way;
  each payload that cannot was returned once, to its owner.
-/
structure Accounted
    (m : Moment κ)
    (made : List (ObjectId × Payload)) : Prop where
  once : (made.map Prod.fst).Nodup
  holds :
    ∀ e ∈ made,
      m.world.heap.lease? e.1 = some e.2.lease ↔
        m.world.Reaches e.1
  live :
    ∀ c, (m.world.heap.counters c).live.toNat =
      bytesOf c (m.reached made) +
        Lease.sum (Lease.bytesAt c) m.reserved
  allocations :
    ∀ c, (m.world.heap.counters c).allocations =
      UInt64.ofNat (countOf c made)
  allocated :
    ∀ c, (m.world.heap.counters c).allocated =
      UInt64.ofNat (bytesOf c made)
  releases :
    ∀ c, (m.world.heap.counters c).releases =
      UInt64.ofNat (countOf c (m.lost made))
  reclaimed :
    ∀ c, (m.world.heap.counters c).reclaimed =
      UInt64.ofNat (bytesOf c (m.lost made))
  issued :
    m.world.heap.issued.Perm (made.map (·.2.lease))
  returned :
    m.world.heap.returned.Perm
      ((m.lost made).map (·.2.lease))
  dropped :
    (∀ x, m.world.ref? x = none) →
      ∀ c,
        (m.world.heap.counters c).live.toNat =
          Lease.sum (Lease.bytesAt c) m.reserved ∧
        (m.world.heap.counters c).releases =
          (m.world.heap.counters c).allocations ∧
        (m.world.heap.counters c).reclaimed =
          (m.world.heap.counters c).allocated

variable {m : Moment κ}
variable {made : List (ObjectId × Payload)}

/- What was made is either reached or lost. -/
private theorem sum_reached_lost
    (m : Moment κ)
    (made : List (ObjectId × Payload))
    (f : Lease → Nat) :
    Lease.sum f ((m.reached made).map (·.2.lease)) +
        Lease.sum f ((m.lost made).map (·.2.lease)) =
      Lease.sum f (made.map (·.2.lease)) := by
  unfold reached lost
  induction made with
  | nil => rfl
  | cons e made ih =>
      by_cases hReach : m.world.Reaches e.1
      · simp only [List.filter_cons, hReach, decide_true,
          not_true, decide_false, if_true, List.map_cons,
          Lease.sum_cons]
        simp only [Bool.false_eq_true, if_false]
        omega
      · simp only [List.filter_cons, hReach, decide_false,
          not_false_eq_true, decide_true, if_true,
          List.map_cons, Lease.sum_cons]
        simp only [Bool.false_eq_true, if_false]
        omega

/- What was made is there exactly if it can be reached. -/
private theorem holds_iff
    (hSound : m.Sound)
    (hFrames : m.frames = [])
    (hRecorded : m.Recorded made)
    {e : ObjectId × Payload}
    (he : e ∈ made) :
    m.world.heap.lease? e.1 = some e.2.lease ↔
      m.world.Reaches e.1 := by
  have hExact : m.world.heap.Exact m.world.outer := by
    refine hSound.exact.congr (fun i => ?_)
    simp [hFrames]
  rw [World.reaches_iff, ← hExact.exists_iff_reaches]
  constructor
  · intro hLease
    rcases Option.bind_eq_some_iff.mp hLease with
      ⟨o, hGet, _⟩
    exact ⟨o, hGet⟩
  · rintro ⟨o, hGet⟩
    exact hRecorded.lease?_eq he hGet

/- What can be reached is what is leased. -/
private theorem leased_eq_reached
    (hSound : m.Sound)
    (hFrames : m.frames = [])
    (hRecorded : m.Recorded made)
    (f : Lease → Nat) :
    m.world.heap.leased f =
      Lease.sum f ((m.reached made).map (·.2.lease)) := by
  classical
  rw [hRecorded.leased_eq]
  unfold reached
  congr 2
  apply List.filter_congr
  intro e he
  have hHolds := holds_iff hSound hFrames hRecorded he
  rw [Bool.eq_iff_iff, decide_eq_true_iff, ← hHolds]
  constructor
  · intro hSome
    rcases Option.isSome_iff_exists.mp hSome with ⟨l, hl⟩
    rcases Option.bind_eq_some_iff.mp hl with ⟨o, hGet, _⟩
    exact hRecorded.lease?_eq he hGet
  · intro hLease
    rw [hLease]
    rfl

/- What was returned is what was lost. -/
private theorem returned_eq_lost
    (hSound : m.Sound)
    (hFrames : m.frames = [])
    (hRecorded : m.Recorded made)
    (f : Lease → Nat) :
    Lease.sum f m.world.heap.returned =
      Lease.sum f ((m.lost made).map (·.2.lease)) := by
  have hKept := hSound.balanced.kept f
  have hLeased :=
    leased_eq_reached hSound hFrames hRecorded f
  have hSplit := sum_reached_lost m made f
  rw [hRecorded.told f] at hSplit
  simp only [Heap.owing, hFrames, Lease.sum_nil] at hKept
  have hEmpty : Lease.sum f (Frame.leases []) = 0 := rfl
  omega

/- If nothing is reached, all is lost. -/
private theorem lost_eq_self
    (hNone : ∀ i, ¬ m.world.Reaches i) :
    m.lost made = made := by
  unfold lost
  rw [List.filter_eq_self]
  intro e _
  simpa using hNone e.1

private theorem reached_eq_nil
    (hNone : ∀ i, ¬ m.world.Reaches i) :
    m.reached made = [] := by
  unfold reached
  rw [List.filter_eq_nil_iff]
  intro e _
  simpa using hNone e.1

/-
  Whenever no drop is under way, leases follow reachability,
  and the books of every collector say so.
-/
theorem Sound.accounted
    (hSound : m.Sound)
    (hFrames : m.frames = [])
    (hRecorded : m.Recorded made) :
    m.Accounted made := by
  have hLive :
      ∀ c, (m.world.heap.counters c).live.toNat =
        bytesOf c (m.reached made) +
          Lease.sum (Lease.bytesAt c) m.reserved := by
    intro c
    unfold bytesOf
    rw [hSound.balanced.live c, Heap.owing, hFrames,
      leased_eq_reached hSound hFrames hRecorded]
    rfl
  have hAllocations :
      ∀ c, (m.world.heap.counters c).allocations =
        UInt64.ofNat (countOf c made) := by
    intro c
    unfold countOf
    rw [hSound.balanced.allocations c, hRecorded.told]
  have hAllocated :
      ∀ c, (m.world.heap.counters c).allocated =
        UInt64.ofNat (bytesOf c made) := by
    intro c
    unfold bytesOf
    rw [hSound.balanced.allocated c, hRecorded.told]
  have hReleases :
      ∀ c, (m.world.heap.counters c).releases =
        UInt64.ofNat (countOf c (m.lost made)) := by
    intro c
    unfold countOf
    rw [hSound.balanced.releases c,
      returned_eq_lost hSound hFrames hRecorded]
  have hReclaimed :
      ∀ c, (m.world.heap.counters c).reclaimed =
        UInt64.ofNat (bytesOf c (m.lost made)) := by
    intro c
    unfold bytesOf
    rw [hSound.balanced.reclaimed c,
      returned_eq_lost hSound hFrames hRecorded]
  refine
    ⟨hRecorded.keys,
      fun e he => holds_iff hSound hFrames hRecorded he,
      hLive, hAllocations, hAllocated, hReleases,
      hReclaimed, ?_, ?_, ?_⟩
  · exact
      Lease.perm_of_sum
        (fun f => (hRecorded.told f).symm)
  · exact
      Lease.perm_of_sum
        (returned_eq_lost hSound hFrames hRecorded)
  · intro hEmpty c
    have hNone := World.not_reaches_of_empty hEmpty
    refine ⟨?_, ?_, ?_⟩
    · rw [hLive c, reached_eq_nil hNone]
      simp [bytesOf]
    · rw [hReleases c, hAllocations c, lost_eq_self hNone]
    · rw [hReclaimed c, hAllocated c, lost_eq_self hNone]

/-
  After every operation of every run, with any collectors and
  any sharing, leases follow reachability.  The worlds that
  programs leave are among these moments.
-/
theorem leases_follow_reachability
    (provides : UInt64 → Bool) :
    (∀ moves : List (Move κ),
      ((fresh provides).run moves).frames = [] →
        ((fresh provides).run moves).Accounted
          ((fresh provides).makes moves)) ∧
      (∀ (behaves : Behaves κ) (depth : Nat) (α : Type)
        (p : Program κ α) (a : α) (w : World κ),
        World.run behaves depth p (.fresh provides) =
            some (a, w) →
          ∃ moves,
            (fresh provides).run moves = ⟨w, [], []⟩ ∧
              Accounted ⟨w, [], []⟩
                ((fresh provides).makes moves)) := by
  have hMoves :
      ∀ moves : List (Move κ),
        ((fresh provides).run moves).frames = [] →
          ((fresh provides).run moves).Accounted
            ((fresh provides).makes moves) := by
    intro moves hFrames
    exact
      (sound_run_fresh provides moves).accounted hFrames
        (recorded_run_fresh provides moves)
  refine ⟨hMoves, ?_⟩
  intro behaves depth α p a w hRun
  have hLeads : Leads (fresh provides) ⟨w, [], []⟩ :=
    leads_run hRun
  rcases hLeads with ⟨moves, hFresh⟩
  refine ⟨moves, hFresh, ?_⟩
  rw [← hFresh]
  apply hMoves
  rw [hFresh]

/-
  A list of one collector is stored in a list of another and
  dropped with it; a program makes a block.
-/
theorem leases_follow_reachability_nested :
    (∃ m : Moment Unit,
      (fresh (fun _ => true)).run
          ([.act (.newCollector .standard),
            .act (.clone (.value (.integer 7))),
            .openArray 0 .list 1,
            .closeArray 0 .list [⟨0⟩],
            .openArray 1 .list 1,
            .closeArray 0 .list [⟨1⟩],
            .act (.drop ⟨2⟩)] ++
              List.replicate 9 .reclaim) = m ∧
        m.frames = [] ∧
        m.Accounted
          [(0, ⟨⟨0, 32⟩, .elements [.integer 7]⟩),
            (1, ⟨⟨1, 32⟩, .elements [.list 0]⟩)]) ∧
      ∃ w : World Unit,
        World.run
            (fun _ _ => .done (.error (.raised "")))
            0 (.perform (.allocate 0 8))
            (.fresh (fun _ => true)) =
          some (.ok ⟨0⟩, w) ∧
        ∃ moves : List (Move Unit),
          Accounted ⟨w, [], []⟩
            ((fresh (fun _ => true)).makes moves) := by
  rcases leases_follow_reachability (κ := Unit)
      (fun _ => true) with
    ⟨hMoves, hPrograms⟩
  have hRun :
      ∃ w : World Unit,
        World.run
            (fun _ _ => .done (.error (.raised "")))
            0 (.perform (.allocate 0 8))
            (.fresh (fun _ => true)) =
          some (.ok ⟨0⟩, w) :=
    ⟨_, rfl⟩
  refine ⟨⟨_, rfl, rfl, hMoves _ rfl⟩, ?_⟩
  rcases hRun with ⟨w, hRun⟩
  rcases hPrograms _ _ _ _ _ _ hRun with
    ⟨moves, _, hAccounted⟩
  exact ⟨w, hRun, moves, hAccounted⟩

end Moment

end LeasedHeap
