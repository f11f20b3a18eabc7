import LeasedHeap.Proofs.Balance
import LeasedHeap.Proofs.Hands

/-
  Leases that threads return, one operation a turn.

  The return of a lease subtracts its bytes, counts it, adds
  its bytes to those returned and tells the trace, and other
  threads act in between.  Each return has a phase, and with
  what the returns under way have already done and have yet
  to do the books agree after every turn.  When nothing is
  under way they agree as they do for one thread.

  Key definitions include:
    * `Phase` and `Phase.steps`
    * `Shift`
    * `Heap.Booked`

  Main declarations:
    * `Heap.Booked.turn`
    * `Heap.Booked.acts`
    * `Crew.Kept.step` and `Crew.Kept.run`
    * `Heap.Booked.balanced`
-/

namespace LeasedHeap

------------------------------------------------------------
-- Phases of a Return
------------------------------------------------------------

/-
  How far the return of a lease has come.  The number is the
  live bytes before they were subtracted.
-/
inductive Phase where
| begun : Phase
| subtracted : UInt64 → Phase
| counted : UInt64 → Phase
| added : UInt64 → Phase
| told : Phase

namespace Phase

/- What is left of the return of a lease. -/
def steps (bytes : UInt64) : Phase → Steps Unit
| .begun => Steps.release bytes
| .subtracted before =>
    .act .countRelease fun _ =>
      .act (.addReclaimed bytes) fun _ =>
        .note (.released bytes (Word.satSub before bytes))
          (.done ())
| .counted before =>
    .act (.addReclaimed bytes) fun _ =>
      .note (.released bytes (Word.satSub before bytes))
        (.done ())
| .added before =>
    .note (.released bytes (Word.satSub before bytes))
      (.done ())
| .told => .done ()

/- The bytes are still counted as live. -/
def isLive : Phase → Bool
| .begun => true
| _ => false

/- The return is counted and not yet told. -/
def isCounted : Phase → Bool
| .counted _ => true
| .added _ => true
| _ => false

/- The bytes are counted as returned, and it is not yet told. -/
def isAdded : Phase → Bool
| .added _ => true
| _ => false

/- The return is not yet told. -/
def isUntold : Phase → Bool
| .told => false
| _ => true

/- Nothing is left of a return exactly when it is told. -/
theorem steps_eq_done_iff
    {bytes : UInt64}
    {st : Phase} :
    st.steps bytes = .done () ↔ st = .told := by
  cases st <;> simp [steps, Steps.release, Steps.atomic, Steps.bind]

theorem isUntold_iff
    {st : Phase} :
    st.isUntold = true ↔ st ≠ .told := by
  cases st <;> simp [isUntold]

end Phase

/- A thread, and how far the lease that it returns has come. -/
abbrev Shift :=
  Hand × Option (Lease × Phase)

namespace Shift

/- What a lease weighs if its return has come so far. -/
def weigh
    (p : Phase → Bool)
    (f : Lease → Nat) : Option (Lease × Phase) → Nat
| none => 0
| some (l, st) => if p st then f l else 0

/-
  What the leases weigh that a thread is to return, the one
  under way if it has come so far.
-/
def out
    (p : Phase → Bool)
    (f : Lease → Nat)
    (x : Shift) : Nat :=
  Lease.sum f (Frame.leases x.1.frames) + weigh p f x.2

/- What the returns under way weigh if they have come so far. -/
def early
    (p : Phase → Bool)
    (f : Lease → Nat)
    (xs : List Shift) : Nat :=
  (xs.map (fun x => weigh p f x.2)).sum

/- What the thread is in, as its phase tells it. -/
def InPhase (x : Shift) : Prop :=
  x.1.returning =
    x.2.map (fun y => (y.1.owner, y.2.steps y.1.bytes))

variable {th : Hand}
variable {y : Option (Lease × Phase)}

/- A thread that returns nothing is in no phase. -/
theorem InPhase.eq_none
    (hInPhase : Shift.InPhase (th, y))
    (hNone : th.returning = none) :
    y = none := by
  have hPhase : th.returning = _ := hInPhase
  rw [hNone] at hPhase
  exact Option.map_eq_none_iff.mp hPhase.symm

/- A thread that returns a lease is in a phase of its return. -/
theorem InPhase.exists_eq_some
    {c : CollectorId}
    {s : Steps Unit}
    (hInPhase : Shift.InPhase (th, y))
    (hSome : th.returning = some (c, s)) :
    ∃ l st,
      y = some (l, st) ∧ c = l.owner ∧
        s = st.steps l.bytes := by
  have hPhase : th.returning = _ := hInPhase
  rw [hSome] at hPhase
  rcases Option.map_eq_some_iff.mp hPhase.symm with
    ⟨⟨l, st⟩, hy, hSame⟩
  cases hSame
  exact ⟨l, st, hy, rfl, rfl⟩

end Shift

------------------------------------------------------------
-- The Books with Returns under Way
------------------------------------------------------------

namespace Heap

variable {κ : Type}

/-
  The weight of the leases that objects hold, or threads are
  to return; those under way if they have come so far.
-/
def out
    (h : Heap κ)
    (p : Phase → Bool)
    (f : Lease → Nat)
    (xs : List Shift) : Nat :=
  h.leased f + (xs.map (Shift.out p f)).sum

/-
  The books agree, with what the returns under way have done
  before they are told.
-/
structure Booked
    (h : Heap κ)
    (xs : List Shift)
    (reserved : List Lease) : Prop where
  inPhase : ∀ x ∈ xs, x.InPhase
  kept :
    ∀ f, Lease.sum f h.issued =
      Lease.sum f h.returned + h.out Phase.isUntold f xs
  owned :
    ∀ c, h.collectors.size ≤ c →
      h.out Phase.isUntold (Lease.countAt c) xs +
        Lease.sum (Lease.countAt c) reserved = 0
  live :
    ∀ c, (h.counters c).live.toNat =
      h.out Phase.isLive (Lease.bytesAt c) xs +
        Lease.sum (Lease.bytesAt c) reserved
  allocations :
    ∀ c, (h.counters c).allocations =
      UInt64.ofNat (Lease.sum (Lease.countAt c) h.issued)
  allocated :
    ∀ c, (h.counters c).allocated =
      UInt64.ofNat (Lease.sum (Lease.bytesAt c) h.issued)
  releases :
    ∀ c, (h.counters c).releases =
      UInt64.ofNat
        (Lease.sum (Lease.countAt c) h.returned +
          Shift.early Phase.isCounted (Lease.countAt c) xs)
  reclaimed :
    ∀ c, (h.counters c).reclaimed =
      UInt64.ofNat
        (Lease.sum (Lease.bytesAt c) h.returned +
          Shift.early Phase.isAdded (Lease.bytesAt c) xs)

variable {h h' : Heap κ}
variable {xs : List Shift}
variable {reserved : List Lease}
variable {k : Nat}
variable {th th' : Hand}
variable {y y' : Option (Lease × Phase)}

/- What is out changes by what one thread has. -/
private theorem out_set
    (h' : Heap κ)
    (p : Phase → Bool)
    (f : Lease → Nat)
    {x : Shift}
    (hk : xs[k]? = some x)
    (x' : Shift) :
    h'.out p f (xs.set k x') + h.leased f +
        Shift.out p f x =
      h.out p f xs + h'.leased f + Shift.out p f x' := by
  have hSet := sum_map_set (Shift.out p f) hk x'
  unfold out
  omega

/- One return goes on, and the others stay as they are. -/
private theorem early_set
    (p : Phase → Bool)
    (f : Lease → Nat)
    {x : Shift}
    (hk : xs[k]? = some x)
    (x' : Shift) :
    Shift.early p f (xs.set k x') + Shift.weigh p f x.2 =
      Shift.early p f xs + Shift.weigh p f x'.2 :=
  sum_map_set (fun x : Shift => Shift.weigh p f x.2) hk x'

/-
  A turn of one thread keeps the books if the leases that it
  tells, `told`, are no longer out, and the counters follow
  what its return has come to.
-/
theorem Booked.turn
    (hBooked : h.Booked xs reserved)
    (hk : xs[k]? = some (th, y))
    (told : List Lease)
    (hInPhase : Shift.InPhase (th', y'))
    (hSize : h'.collectors.size = h.collectors.size)
    (hIssued : h'.issued = h.issued)
    (hReturned : h'.returned = told ++ h.returned)
    (hTold :
      ∀ f,
        Lease.sum f told + h'.leased f +
            Shift.out Phase.isUntold f (th', y') =
          h.leased f +
            Shift.out Phase.isUntold f (th, y))
    (hLive :
      ∀ c, (h'.counters c).live.toNat +
          h.leased (Lease.bytesAt c) +
            Shift.out Phase.isLive (Lease.bytesAt c)
              (th, y) =
        (h.counters c).live.toNat +
          h'.leased (Lease.bytesAt c) +
            Shift.out Phase.isLive (Lease.bytesAt c)
              (th', y'))
    (hAllocations :
      ∀ c, (h'.counters c).allocations =
        (h.counters c).allocations)
    (hAllocated :
      ∀ c, (h'.counters c).allocated =
        (h.counters c).allocated)
    (hReleases :
      ∀ c, ∃ d,
        (h'.counters c).releases =
            (h.counters c).releases + UInt64.ofNat d ∧
          Lease.sum (Lease.countAt c) told +
              Shift.weigh Phase.isCounted
                (Lease.countAt c) y' =
            Shift.weigh Phase.isCounted
              (Lease.countAt c) y + d)
    (hReclaimed :
      ∀ c, ∃ d,
        (h'.counters c).reclaimed =
            (h.counters c).reclaimed + UInt64.ofNat d ∧
          Lease.sum (Lease.bytesAt c) told +
              Shift.weigh Phase.isAdded
                (Lease.bytesAt c) y' =
            Shift.weigh Phase.isAdded
              (Lease.bytesAt c) y + d) :
    h'.Booked (xs.set k (th', y')) reserved := by
  have hOut :=
    fun p f => out_set (h := h) h' p f hk (th', y')
  have hEarly := fun p f => early_set p f hk (th', y')
  refine ⟨?_, ?_, ?_, ?_, ?_, ?_, ?_, ?_⟩
  · intro x hx
    rcases List.mem_or_eq_of_mem_set hx with hOld | rfl
    · exact hBooked.inPhase x hOld
    · exact hInPhase
  · intro f
    have hKept := hBooked.kept f
    have hNow := hOut Phase.isUntold f
    have hLeft := hTold f
    rw [hIssued, hReturned, Lease.sum_append]
    omega
  · intro c hc
    have hOwned := hBooked.owned c (hSize ▸ hc)
    have hNow := hOut Phase.isUntold (Lease.countAt c)
    have hLeft := hTold (Lease.countAt c)
    omega
  · intro c
    have hBefore := hBooked.live c
    have hNow := hOut Phase.isLive (Lease.bytesAt c)
    have hLeft := hLive c
    omega
  · intro c
    rw [hAllocations, hIssued, hBooked.allocations]
  · intro c
    rw [hAllocated, hIssued, hBooked.allocated]
  · intro c
    rcases hReleases c with ⟨d, hCount, hWeigh⟩
    have hNow := hEarly Phase.isCounted (Lease.countAt c)
    rw [hCount, hBooked.releases, hReturned,
      Lease.sum_append, ← UInt64.ofNat_add]
    simp only at hNow
    congr 1
    omega
  · intro c
    rcases hReclaimed c with ⟨d, hCount, hWeigh⟩
    have hNow := hEarly Phase.isAdded (Lease.bytesAt c)
    rw [hCount, hBooked.reclaimed, hReturned,
      Lease.sum_append, ← UInt64.ofNat_add]
    simp only at hNow
    congr 1
    omega

/-
  A turn that changes no counter and tells nothing keeps the
  books if the leases that are out stay out and no return
  under way has counted anything.
-/
theorem Booked.move
    (hBooked : h.Booked xs reserved)
    (hk : xs[k]? = some (th, y))
    (hInPhase : Shift.InPhase (th', y'))
    (hCollectors : h'.collectors = h.collectors)
    (hLog : h'.log = h.log)
    (hUntold :
      ∀ f,
        h'.leased f +
            Shift.out Phase.isUntold f (th', y') =
          h.leased f +
            Shift.out Phase.isUntold f (th, y))
    (hLive :
      ∀ f,
        h'.leased f +
            Shift.out Phase.isLive f (th', y') =
          h.leased f +
            Shift.out Phase.isLive f (th, y))
    (hCounted :
      ∀ f, Shift.weigh Phase.isCounted f y' =
        Shift.weigh Phase.isCounted f y)
    (hAdded :
      ∀ f, Shift.weigh Phase.isAdded f y' =
        Shift.weigh Phase.isAdded f y) :
    h'.Booked (xs.set k (th', y')) reserved := by
  have hCounters : ∀ c, h'.counters c = h.counters c := by
    intro c
    unfold counters collector
    rw [hCollectors]
  refine
    hBooked.turn hk [] hInPhase ?_ ?_ ?_ ?_ ?_
      (fun c => by rw [hCounters]) (fun c => by rw [hCounters])
      ?_ ?_
  · rw [hCollectors]
  · unfold issued
    rw [hLog]
  · unfold returned
    rw [hLog]
    rfl
  · intro f
    rw [Lease.sum_nil, Nat.zero_add]
    exact hUntold f
  · intro c
    have hAt := hLive (Lease.bytesAt c)
    rw [hCounters]
    omega
  · intro c
    refine ⟨0, ?_, ?_⟩
    · rw [hCounters]
      exact (UInt64.add_zero _).symm
    · rw [hCounted, Lease.sum_nil, Nat.zero_add]
      rfl
  · intro c
    refine ⟨0, ?_, ?_⟩
    · rw [hCounters]
      exact (UInt64.add_zero _).symm
    · rw [hAdded, Lease.sum_nil, Nat.zero_add]
      rfl

------------------------------------------------------------
-- Operations of a Return
------------------------------------------------------------

/- A lease that does not count weighs nothing in any phase. -/
private theorem weigh_eq_zero
    {l : Lease}
    {f : Lease → Nat}
    (hZero : f l = 0)
    (p : Phase → Bool)
    (st : Phase) :
    Shift.weigh p f (some (l, st)) = 0 := by
  simp only [Shift.weigh, hZero, ite_self]

/-
  A count that follows the phase of a lease at its collector
  follows it at every collector, where the lease does not
  count at any other.
-/
private theorem exists_growth
    {l : Lease}
    {st st' : Phase}
    {counters : Counters}
    (hOwner : l.owner < h.collectors.size)
    (count : Counters → UInt64)
    (p : Phase → Bool)
    (f : CollectorId → Lease → Nat)
    (hOther : ∀ c, c ≠ l.owner → f c l = 0)
    (hGrows :
      ∃ d,
        count counters =
            count (h.counters l.owner) + UInt64.ofNat d ∧
          Shift.weigh p (f l.owner) (some (l, st')) =
            Shift.weigh p (f l.owner) (some (l, st)) + d)
    (c : CollectorId) :
    ∃ d,
      count ((h.tally l.owner counters []).counters c) =
          count (h.counters c) + UInt64.ofNat d ∧
        Lease.sum (f c) [] +
            Shift.weigh p (f c) (some (l, st')) =
          Shift.weigh p (f c) (some (l, st)) + d := by
  rw [counters_tally hOwner, Lease.sum_nil, Nat.zero_add]
  by_cases hc : c = l.owner
  · subst hc
    rw [if_pos rfl]
    exact hGrows
  · have hZero := hOther c hc
    rw [if_neg hc, weigh_eq_zero hZero, weigh_eq_zero hZero]
    exact ⟨0, (UInt64.add_zero _).symm, rfl⟩

/- A count that stays at one collector stays at every one. -/
private theorem count_tally
    {d : CollectorId}
    {counters : Counters}
    (hd : d < h.collectors.size)
    (count : Counters → UInt64)
    (hSame : count counters = count (h.counters d))
    (c : CollectorId) :
    count ((h.tally d counters []).counters c) =
      count (h.counters c) := by
  rw [counters_tally hd]
  split
  · rename_i hc
    rw [hSame, hc]
  · rfl

/-
  An operation of a return keeps the books if the counters of
  the lease's collector follow its phase.
-/
private theorem Booked.operate
    {l : Lease}
    {st : Phase}
    (hBooked : h.Booked xs reserved)
    (hk : xs[k]? = some (th, some (l, st)))
    (hOwner : l.owner < h.collectors.size)
    (st' : Phase)
    (counters : Counters)
    (hStep :
      h.advance l.owner (st.steps l.bytes) =
        (st'.steps l.bytes, h.tally l.owner counters []))
    (hUntold : st.isUntold = true)
    (hUntold' : st'.isUntold = true)
    (hLive :
      counters.live.toNat +
          Shift.weigh Phase.isLive (Lease.bytesAt l.owner)
            (some (l, st)) =
        (h.counters l.owner).live.toNat +
          Shift.weigh Phase.isLive (Lease.bytesAt l.owner)
            (some (l, st')))
    (hAllocations :
      counters.allocations =
        (h.counters l.owner).allocations)
    (hAllocated :
      counters.allocated = (h.counters l.owner).allocated)
    (hReleases :
      ∃ d,
        counters.releases =
            (h.counters l.owner).releases +
              UInt64.ofNat d ∧
          Shift.weigh Phase.isCounted
              (Lease.countAt l.owner) (some (l, st')) =
            Shift.weigh Phase.isCounted
              (Lease.countAt l.owner) (some (l, st)) + d)
    (hReclaimed :
      ∃ d,
        counters.reclaimed =
            (h.counters l.owner).reclaimed +
              UInt64.ofNat d ∧
          Shift.weigh Phase.isAdded
              (Lease.bytesAt l.owner) (some (l, st')) =
            Shift.weigh Phase.isAdded
              (Lease.bytesAt l.owner) (some (l, st)) + d) :
    (h.advance l.owner (st.steps l.bytes)).2.Booked
      (xs.set k
        ({ th with
            returning :=
              some (l.owner,
                (h.advance l.owner
                  (st.steps l.bytes)).1) },
          some (l, st'))) reserved := by
  rw [hStep]
  have hLeased :
      ∀ f, (h.tally l.owner counters []).leased f =
        h.leased f :=
    fun _ => rfl
  refine
    hBooked.turn hk [] rfl ?_ rfl rfl ?_ ?_
      (count_tally hOwner Counters.allocations hAllocations)
      (count_tally hOwner Counters.allocated hAllocated)
      (exists_growth hOwner Counters.releases _
        Lease.countAt
        (fun c hc => Lease.countAt_of_ne hc l.bytes)
        hReleases)
      (exists_growth hOwner Counters.reclaimed _
        Lease.bytesAt
        (fun c hc => Lease.bytesAt_of_ne hc l.bytes)
        hReclaimed)
  · exact Array.size_setIfInBounds ..
  · intro f
    simp only [Shift.out, Shift.weigh, hLeased, hUntold,
      hUntold', Lease.sum_nil, Nat.zero_add]
  · intro c
    simp only [Shift.out, hLeased, counters_tally hOwner]
    by_cases hc : c = l.owner
    · subst hc
      rw [if_pos rfl]
      omega
    · have hZero := Lease.bytesAt_of_ne hc l.bytes
      rw [if_neg hc, weigh_eq_zero hZero,
        weigh_eq_zero hZero]

/- What is to be returned weighs in what is out. -/
theorem weigh_le_out
    (p : Phase → Bool)
    (f : Lease → Nat)
    {x : Shift}
    (hx : x ∈ xs) :
    Shift.out p f x ≤ h.out p f xs := by
  have hLe :
      Shift.out p f x ≤ (xs.map (Shift.out p f)).sum :=
    List.single_le_sum (by simp) _ (List.mem_map_of_mem hx)
  unfold out
  omega

/- A lease that is yet to be told has a collector. -/
theorem Booked.lt_of_untold
    {l : Lease}
    {x : Shift}
    (hBooked : h.Booked xs reserved)
    (hx : x ∈ xs)
    (hPos :
      0 < Shift.out Phase.isUntold
        (Lease.countAt l.owner) x) :
    l.owner < h.collectors.size := by
  by_contra hNot
  have hOwned :=
    hBooked.owned l.owner (Nat.le_of_not_lt hNot)
  have hLe :=
    weigh_le_out (h := h) Phase.isUntold
      (Lease.countAt l.owner) hx
  omega

/- A return that begins subtracts its bytes. -/
private theorem Booked.subtract
    {l : Lease}
    (hBooked : h.Booked xs reserved)
    (hk : xs[k]? = some (th, some (l, .begun)))
    (hOwner : l.owner < h.collectors.size) :
    (h.advance l.owner (Phase.begun.steps l.bytes)).2.Booked
      (xs.set k
        ({ th with
            returning :=
              some (l.owner,
                (h.advance l.owner
                  (Phase.begun.steps l.bytes)).1) },
          some
            (l, .subtracted (h.counters l.owner).live)))
      reserved := by
  have hLive := hBooked.live l.owner
  have hOut :=
    weigh_le_out (h := h) Phase.isLive
      (Lease.bytesAt l.owner) (List.mem_of_getElem? hk)
  -- the bytes are live, so that the subtraction is exact
  have hBytes :
      l.bytes.toNat ≤ (h.counters l.owner).live.toNat := by
    simp only [Shift.out, Shift.weigh, Phase.isLive,
      Lease.bytesAt, if_true] at hOut hLive
    omega
  have hLe : l.bytes ≤ (h.counters l.owner).live :=
    UInt64.le_iff_toNat_le.mpr hBytes
  refine
    hBooked.operate hk hOwner _
      ((h.counters l.owner).act (.giveBack l.bytes)).2 rfl
      rfl rfl ?_ rfl rfl ⟨0, (UInt64.add_zero _).symm, rfl⟩
      ⟨0, (UInt64.add_zero _).symm, rfl⟩
  simp only [Shift.weigh, Phase.isLive, Lease.bytesAt,
    if_true, Counters.act, UInt64.toNat_sub_of_le _ _ hLe]
  exact Nat.sub_add_cancel hBytes

/- A return that is counted and added is told. -/
private theorem Booked.tell
    {l : Lease}
    {before : UInt64}
    (hBooked : h.Booked xs reserved)
    (hk : xs[k]? = some (th, some (l, .added before))) :
    (h.advance l.owner
        ((Phase.added before).steps l.bytes)).2.Booked
      (xs.set k
        ({ th with
            returning :=
              some (l.owner,
                (h.advance l.owner
                  ((Phase.added before).steps
                    l.bytes)).1) },
          some (l, .told))) reserved := by
  refine
    hBooked.turn hk [l] rfl rfl rfl rfl ?_ ?_
      (fun _ => rfl) (fun _ => rfl) ?_ ?_
  · intro f
    have hLeased :
        (h.record (.heap l.owner
          (.released l.bytes
            (Word.satSub before l.bytes)))).leased f =
          h.leased f :=
      rfl
    simp only [Shift.out, Shift.weigh, Phase.isUntold,
      if_true, Lease.sum_cons, Lease.sum_nil, Phase.steps,
      Heap.advance, hLeased]
    simp
    omega
  · exact fun _ => rfl
  · intro c
    refine ⟨0, (UInt64.add_zero _).symm, ?_⟩
    simp [Shift.weigh, Phase.isCounted]
  · intro c
    refine ⟨0, (UInt64.add_zero _).symm, ?_⟩
    simp [Shift.weigh, Phase.isAdded]

/- A return goes on by one operation. -/
theorem Booked.advance
    {l : Lease}
    {st : Phase}
    (hBooked : h.Booked xs reserved)
    (hk : xs[k]? = some (th, some (l, st)))
    (hUntold : st.isUntold = true) :
    ∃ st',
      (h.advance l.owner (st.steps l.bytes)).2.Booked
        (xs.set k
          ({ th with
              returning :=
                some (l.owner,
                  (h.advance l.owner
                    (st.steps l.bytes)).1) },
            some (l, st'))) reserved := by
  have hOwner : l.owner < h.collectors.size := by
    apply hBooked.lt_of_untold (List.mem_of_getElem? hk)
    simp [Shift.out, Shift.weigh, hUntold, Lease.countAt]
  cases st with
  | begun => exact ⟨_, hBooked.subtract hk hOwner⟩
  | subtracted before =>
      refine
        ⟨.counted before,
          hBooked.operate hk hOwner _
            ((h.counters l.owner).act .countRelease).2 rfl
            rfl rfl rfl rfl rfl ⟨1, rfl, ?_⟩
            ⟨0, (UInt64.add_zero _).symm, rfl⟩⟩
      simp [Shift.weigh, Phase.isCounted, Lease.countAt]
  | counted before =>
      refine
        ⟨.added before,
          hBooked.operate hk hOwner _
            ((h.counters l.owner).act
              (.addReclaimed l.bytes)).2 rfl rfl rfl rfl
            rfl rfl ⟨0, (UInt64.add_zero _).symm, rfl⟩
            ⟨l.bytes.toNat, ?_, ?_⟩⟩
      · rw [UInt64.ofNat_toNat]
        rfl
      · simp [Shift.weigh, Phase.isAdded, Lease.bytesAt]
  | added before => exact ⟨_, hBooked.tell hk⟩
  | told => cases hUntold

------------------------------------------------------------
-- Turns
------------------------------------------------------------

/- The lease of an object that goes is to be returned. -/
theorem leased_step
    {f : Frame}
    (hNot : ∀ l, f ≠ .lease l)
    (g : Lease → Nat) :
    (h.step f).2.leased g +
        Lease.sum g (Frame.leases (h.step f).1) =
      h.leased g := by
  cases f with
  | value v =>
      cases hv : v.payload? with
      | none =>
          simp only [Heap.step, hv]
          rfl
      | some p =>
          simp only [Heap.step, hv]
          exact leased_take g p
  | activation v pending =>
      cases pending with
      | nil =>
          simp only [Heap.step, Value.leases_handleFrames]
          rfl
      | cons w pending =>
          cases hw : w.payload? with
          | none =>
              simp only [Heap.step, hw]
              rfl
          | some p =>
              simp only [Heap.step, hw]
              exact leased_take g p
  | handle i => exact leased_release g i
  | lease l => exact absurd rfl (hNot l)

/- A frame that is no lease returns none. -/
private theorem leases_cons
    {f : Frame}
    (hNot : ∀ l, f ≠ .lease l)
    (fs : List Frame) :
    Frame.leases (f :: fs) = Frame.leases fs := by
  cases f with
  | value v => rfl
  | activation v pending => rfl
  | handle i => rfl
  | lease l => exact absurd rfl (hNot l)

/- To start an errand is to return no lease. -/
private theorem leases_start
    (hFrames : th.frames = []) :
    Frame.leases th.start.frames = [] := by
  rcases hErrands : th.errands with _ | ⟨e, errands⟩
  · simp only [Hand.start, hErrands, hFrames]
    rfl
  · cases e with
    | clone k =>
        simp only [Hand.start, hErrands, hFrames]
        rfl
    | drop k =>
        simp only [Hand.start, hErrands]
        cases th.values[k]? <;> rfl

private theorem returning_start
    (th : Hand) :
    th.start.returning = th.returning := by
  rcases hErrands : th.errands with _ | ⟨e, errands⟩
  · simp only [Hand.start, hErrands]
  · cases e <;> simp only [Hand.start, hErrands]

/- A return that is told is over. -/
private theorem Booked.ends
    {l : Lease}
    (hBooked : h.Booked xs reserved)
    (hk : xs[k]? = some (th, some (l, .told))) :
    h.Booked (xs.set k ({ th with returning := none }, none))
      reserved :=
  hBooked.move hk rfl rfl rfl (fun _ => rfl)
    (fun _ => rfl) (fun _ => rfl) (fun _ => rfl)

/- A lease that is next begins to be returned. -/
private theorem Booked.returns
    {l : Lease}
    {fs : List Frame}
    (hBooked : h.Booked xs reserved)
    (hk : xs[k]? = some (th, none))
    (hFrames : th.frames = .lease l :: fs) :
    h.Booked
      (xs.set k
        ({ th with
            frames := fs
            returning :=
              some (l.owner, Steps.release l.bytes) },
          some (l, .begun))) reserved := by
  refine
    hBooked.move hk rfl rfl rfl ?_ ?_ (fun _ => rfl)
      (fun _ => rfl)
  · intro f
    simp [Shift.out, Shift.weigh, hFrames, Phase.isUntold,
      Frame.leases]
    omega
  · intro f
    simp [Shift.out, Shift.weigh, hFrames, Phase.isLive,
      Frame.leases]
    omega

/-
  A turn without a return under way keeps the books if the
  leases that are out stay out.
-/
private theorem Booked.idle
    (hBooked : h.Booked xs reserved)
    (hk : xs[k]? = some (th, none))
    (hReturning : th'.returning = none)
    (hSame :
      h'.collectors = h.collectors ∧ h'.log = h.log)
    (hLeases :
      ∀ g,
        h'.leased g + Lease.sum g (Frame.leases th'.frames) =
          h.leased g +
            Lease.sum g (Frame.leases th.frames)) :
    h'.Booked (xs.set k (th', none)) reserved :=
  hBooked.move hk hReturning hSame.1 hSame.2 hLeases hLeases
    (fun _ => rfl) (fun _ => rfl)

/- What a frame takes from an object is left to be returned. -/
private theorem leases_reclaims
    {f : Frame}
    {fs : List Frame}
    (hFrames : th.frames = f :: fs)
    (hNot : ∀ l, f ≠ .lease l)
    (g : Lease → Nat) :
    (h.step f).2.leased g +
        Lease.sum g (Frame.leases ((h.step f).1 ++ fs)) =
      h.leased g + Lease.sum g (Frame.leases th.frames) := by
  have hLeased := leased_step (h := h) hNot g
  rw [hFrames, leases_cons hNot, Frame.leases_append,
    Lease.sum_append]
  omega

/-
  Every turn of a thread keeps the books.  Only returns under
  way and what becomes one have a phase.
-/
theorem Booked.acts
    (hBooked : h.Booked xs reserved)
    (hk : xs[k]? = some (th, y))
    (hActs : th.Acts h h' th') :
    ∃ y', h'.Booked (xs.set k (th', y')) reserved := by
  have hInPhase := hBooked.inPhase _ (List.mem_of_getElem? hk)
  cases hActs with
  | ends c hReturning =>
      rcases hInPhase.exists_eq_some hReturning with
        ⟨l, st, rfl, _, hDone⟩
      cases Phase.steps_eq_done_iff.mp hDone.symm
      exact ⟨none, hBooked.ends hk⟩
  | advances c s hReturning hNot =>
      rcases hInPhase.exists_eq_some hReturning with
        ⟨l, st, rfl, rfl, rfl⟩
      have hUntold : st.isUntold = true :=
        Phase.isUntold_iff.mpr
          (fun hTold =>
            hNot (Phase.steps_eq_done_iff.mpr hTold))
      rcases hBooked.advance hk hUntold with ⟨st', hNow⟩
      exact ⟨_, hNow⟩
  | returns l fs hIdle hFrames =>
      cases hInPhase.eq_none hIdle
      exact ⟨_, hBooked.returns hk hFrames⟩
  | reclaims f fs hIdle hFrames hNot =>
      cases hInPhase.eq_none hIdle
      exact
        ⟨none,
          hBooked.idle hk hIdle (step_collectors hNot)
            (leases_reclaims hFrames hNot)⟩
  | counts v i is hIdle hFrames hCloning =>
      cases hInPhase.eq_none hIdle
      exact
        ⟨none,
          hBooked.idle hk hIdle (retain_collectors h i)
            (fun g => by rw [leased_retain])⟩
  | clones v hIdle hFrames hCloning =>
      cases hInPhase.eq_none hIdle
      exact
        ⟨none,
          hBooked.idle hk hIdle ⟨rfl, rfl⟩ (fun _ => rfl)⟩
  | starts hIdle hFrames hCloning =>
      cases hInPhase.eq_none hIdle
      refine
        ⟨none,
          hBooked.idle hk ((returning_start th).trans hIdle)
            ⟨rfl, rfl⟩ (fun g => ?_)⟩
      rw [leases_start hFrames, hFrames]
      rfl

/- No turn of a thread issues a lease. -/
theorem issued_acts
    (hInPhase : Shift.InPhase (th, y))
    (hActs : th.Acts h h' th') :
    h'.issued = h.issued := by
  cases hActs with
  | ends c _ => rfl
  | advances c s hReturning hNot =>
      rcases hInPhase.exists_eq_some hReturning with
        ⟨l, st, _, rfl, rfl⟩
      cases st <;> rfl
  | returns l fs _ _ => rfl
  | reclaims f fs _ _ hNot =>
      unfold issued
      rw [(step_collectors hNot).2]
  | counts v i is _ _ _ =>
      unfold issued
      rw [(retain_collectors h i).2]
  | clones v _ _ _ => rfl
  | starts _ _ _ => rfl

end Heap

------------------------------------------------------------
-- Schedules
------------------------------------------------------------

namespace Crew

variable {κ : Type}
variable {crew : Crew κ}
variable {xs : List Shift}
variable {reserved : List Lease}

/- Threads are in these phases, and the books agree. -/
structure Kept
    (crew : Crew κ)
    (xs : List Shift)
    (reserved : List Lease) : Prop where
  hands : crew.hands = xs.map Prod.fst
  booked : crew.heap.Booked xs reserved

/- Every turn keeps the books and issues no lease. -/
theorem Kept.step
    (hKept : crew.Kept xs reserved)
    (k : Nat) :
    (crew.step k).heap.issued = crew.heap.issued ∧
      ∃ xs', (crew.step k).Kept xs' reserved := by
  cases hk : xs[k]? with
  | none =>
      have hNone : crew.hands[k]? = none := by
        rw [hKept.hands, List.getElem?_map, hk]
        rfl
      rw [step_eq_self hNone]
      exact ⟨rfl, xs, hKept⟩
  | some x =>
      rcases x with ⟨th, y⟩
      have hThread : crew.hands[k]? = some th := by
        rw [hKept.hands, List.getElem?_map, hk]
        rfl
      have hActs := th.acts_step crew.heap
      have hInPhase :=
        hKept.booked.inPhase _ (List.mem_of_getElem? hk)
      rcases hKept.booked.acts hk hActs with ⟨y', hBooked⟩
      rw [step_eq hThread]
      refine ⟨Heap.issued_acts hInPhase hActs, ?_⟩
      refine
        ⟨xs.set k ((th.step crew.heap).2, y'), ?_, hBooked⟩
      rw [List.map_set, hKept.hands]

/- Every schedule keeps the books and issues no lease. -/
theorem Kept.run
    (hKept : crew.Kept xs reserved)
    (schedule : List Nat) :
    (crew.run schedule).heap.issued = crew.heap.issued ∧
      ∃ xs', (crew.run schedule).Kept xs' reserved := by
  induction schedule generalizing crew xs with
  | nil => exact ⟨rfl, xs, hKept⟩
  | cons k schedule ih =>
      rcases hKept.step k with ⟨hIssued, xs', hStep⟩
      rcases ih hStep with ⟨hRest, hRun⟩
      exact ⟨hRest.trans hIssued, hRun⟩

end Crew

------------------------------------------------------------
-- What Is Yet to Be Returned
------------------------------------------------------------

namespace Hand

/-
  The leases whose return a thread is yet to tell: those in
  its frames, and what is left of the one under way tells.
-/
def untold (th : Hand) : List Lease :=
  Frame.leases th.frames ++
    match th.returning with
    | none => []
    | some (c, s) =>
        ((s.run .zero []).2.2.filterMap
          Notice.returned?).map (fun b => ⟨c, b⟩)

/-
  The leases whose bytes a thread is yet to subtract: those
  in its frames, and the one whose return has just begun.
-/
def unsubtracted (th : Hand) : List Lease :=
  Frame.leases th.frames ++
    match th.returning with
    | some (c, .act (.giveBack bytes) _) => [⟨c, bytes⟩]
    | _ => []

end Hand

/- What a thread is yet to tell, as its phase tells it. -/
theorem Shift.InPhase.sum_untold
    {x : Shift}
    (hInPhase : x.InPhase)
    (f : Lease → Nat) :
    Lease.sum f x.1.untold =
      Shift.out Phase.isUntold f x := by
  rcases x with ⟨th, _ | ⟨l, st⟩⟩
  · have hNone : th.returning = none := hInPhase
    simp [Hand.untold, hNone, Shift.out, Shift.weigh]
  · have hSome :
        th.returning = some (l.owner, st.steps l.bytes) :=
      hInPhase
    simp only [Hand.untold, hSome, Lease.sum_append,
      Shift.out, Shift.weigh]
    congr 1
    cases st <;>
      simp [Phase.steps, Phase.isUntold, Steps.run,
        Steps.release, Steps.atomic, Steps.bind,
        Steps.report, Lease.sum]

/- What a thread is yet to subtract, as its phase tells it. -/
theorem Shift.InPhase.sum_unsubtracted
    {x : Shift}
    (hInPhase : x.InPhase)
    (f : Lease → Nat) :
    Lease.sum f x.1.unsubtracted =
      Shift.out Phase.isLive f x := by
  rcases x with ⟨th, _ | ⟨l, st⟩⟩
  · have hNone : th.returning = none := hInPhase
    simp [Hand.unsubtracted, hNone, Shift.out, Shift.weigh]
  · have hSome :
        th.returning = some (l.owner, st.steps l.bytes) :=
      hInPhase
    simp only [Hand.unsubtracted, hSome, Lease.sum_append,
      Shift.out, Shift.weigh]
    congr 1
    cases st <;>
      simp [Phase.steps, Phase.isLive, Steps.release,
        Steps.atomic, Steps.bind]

namespace Heap

variable {κ : Type}
variable {h : Heap κ}
variable {xs : List Shift}
variable {hands : List Hand}
variable {reserved : List Lease}

/- What is out, told by the threads themselves. -/
private theorem Booked.out_eq
    {p : Phase → Bool}
    {leases : Hand → List Lease}
    (hBooked : h.Booked xs reserved)
    (hLeases :
      ∀ x : Shift, x.InPhase →
        ∀ f, Lease.sum f (leases x.1) = Shift.out p f x)
    (f : Lease → Nat) :
    h.out p f xs =
      h.leased f +
        Lease.sum f ((xs.map Prod.fst).flatMap leases) := by
  have hInPhase := hBooked.inPhase
  unfold out
  congr 1
  clear hBooked
  induction xs with
  | nil => rfl
  | cons x xs ih =>
      rw [List.map_cons, List.sum_cons, List.map_cons,
        List.flatMap_cons, Lease.sum_append,
        hLeases x (hInPhase x (List.mem_cons_self ..)),
        ih (fun x hx =>
          hInPhase x (List.mem_cons_of_mem _ hx))]

/-
  What was issued was returned, is held by an object, or is
  what threads are yet to tell.
-/
theorem Booked.kept_untold
    (hBooked : h.Booked xs reserved)
    (f : Lease → Nat) :
    Lease.sum f h.issued =
      Lease.sum f h.returned + h.leased f +
        Lease.sum f
          ((xs.map Prod.fst).flatMap Hand.untold) := by
  rw [hBooked.kept f,
    hBooked.out_eq (fun _ hx => hx.sum_untold),
    Nat.add_assoc]

/-
  Live bytes are those that objects hold, that threads are
  yet to subtract, and that are reserved.
-/
theorem Booked.live_unsubtracted
    (hBooked : h.Booked xs reserved)
    (c : CollectorId) :
    (h.counters c).live.toNat =
      h.leased (Lease.bytesAt c) +
          Lease.sum (Lease.bytesAt c)
            ((xs.map Prod.fst).flatMap Hand.unsubtracted) +
        Lease.sum (Lease.bytesAt c) reserved := by
  rw [hBooked.live c,
    hBooked.out_eq (fun _ hx => hx.sum_unsubtracted)]

------------------------------------------------------------
-- Nothing under Way
------------------------------------------------------------

/- Nothing is out but what objects hold. -/
private theorem out_eq_leased
    {p : Phase → Bool}
    {f : Lease → Nat}
    (hZero : ∀ x ∈ xs, Shift.out p f x = 0) :
    h.out p f xs = h.leased f := by
  unfold out
  rw [List.sum_eq_zero]
  · rfl
  · intro n hn
    rcases List.mem_map.mp hn with ⟨x, hx, rfl⟩
    exact hZero x hx

/- Threads that return nothing keep balanced books. -/
theorem Balanced.booked
    (hBalanced : h.Balanced [] reserved)
    (hHands :
      ∀ th ∈ hands, th.frames = [] ∧ th.returning = none) :
    h.Booked (hands.map (fun th => (th, none)))
      reserved := by
  have hOut :
      ∀ p f, h.out p f (hands.map (fun th => (th, none))) =
        h.leased f := by
    intro p f
    apply out_eq_leased
    intro x hx
    rcases List.mem_map.mp hx with ⟨th, hth, rfl⟩
    simp [Shift.out, Shift.weigh, (hHands th hth).1,
      Frame.leases]
  have hEarly :
      ∀ p f,
        Shift.early p f
          (hands.map (fun th => (th, none))) = 0 := by
    intro p f
    unfold Shift.early
    rw [List.map_map]
    exact
      List.sum_eq_zero (by simp [Shift.weigh])
  refine ⟨?_, ?_, ?_, ?_, hBalanced.allocations,
    hBalanced.allocated, ?_, ?_⟩
  · intro x hx
    rcases List.mem_map.mp hx with ⟨th, hth, rfl⟩
    exact (hHands th hth).2
  · intro f
    rw [hOut, hBalanced.kept f]
    simp [owing, Frame.leases]
  · intro c hc
    rw [hOut, ← hBalanced.owned c hc]
    simp [owing, Frame.leases]
  · intro c
    rw [hOut, hBalanced.live c]
    simp [owing, Frame.leases]
  · intro c
    rw [hEarly, hBalanced.releases c, Nat.add_zero]
  · intro c
    rw [hEarly, hBalanced.reclaimed c, Nat.add_zero]

/- The books balance when nothing is under way. -/
theorem Booked.balanced
    (hBooked : h.Booked xs reserved)
    (hIdle :
      ∀ x ∈ xs, x.1.frames = [] ∧ x.1.returning = none) :
    h.Balanced [] reserved := by
  have hNone : ∀ x ∈ xs, x.2 = none := by
    intro x hx
    exact (hBooked.inPhase x hx).eq_none (hIdle x hx).2
  have hOut : ∀ p f, h.out p f xs = h.leased f := by
    intro p f
    apply out_eq_leased
    intro x hx
    simp [Shift.out, Shift.weigh, (hIdle x hx).1,
      hNone x hx, Frame.leases]
  have hEarly : ∀ p f, Shift.early p f xs = 0 := by
    intro p f
    unfold Shift.early
    apply List.sum_eq_zero
    intro n hn
    rcases List.mem_map.mp hn with ⟨x, hx, rfl⟩
    rw [hNone x hx]
    rfl
  refine ⟨?_, ?_, ?_, hBooked.allocations,
    hBooked.allocated, ?_, ?_⟩
  · intro f
    rw [hBooked.kept f, hOut]
    simp [owing, Frame.leases]
  · intro c hc
    rw [← hBooked.owned c hc, hOut]
    simp [owing, Frame.leases]
  · intro c
    rw [hBooked.live c, hOut]
    simp [owing, Frame.leases]
  · intro c
    rw [hBooked.releases c, hEarly, Nat.add_zero]
  · intro c
    rw [hBooked.reclaimed c, hEarly, Nat.add_zero]

end Heap

end LeasedHeap
