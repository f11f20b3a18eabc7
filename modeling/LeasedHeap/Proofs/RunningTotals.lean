import LeasedHeap.Proofs.Reports

/-
  The trace and the counters agree.

  The live bytes told with a lease are a running difference:
  the bytes of the leases issued so far less those of the
  leases returned, and what array calls still have reserved.
  The counters are the lengths and the sums of the same
  trace, and the peak is the highest of the live bytes told
  since it was restarted.

  Key definitions include:
    * `Event.highest`
    * `Event.Running`
    * `Moment.Told`
    * `Moment.Unrestarted`
    * `Moment.Peaked`
    * `Moment.Agreed`

  Main declarations:
    * `Moment.Sound.told_run`
    * `Moment.peaked_run_fresh`
    * `Moment.Sound.covers_run`
    * `Moment.trace_agrees_with_counters`
-/

namespace LeasedHeap

------------------------------------------------------------
-- Totals of Events
------------------------------------------------------------

namespace Event

/-
  The highest of some live bytes and those that are told with
  the leases that a collector issues.
-/
def highest
    (c : CollectorId)
    (base : UInt64)
    (es : List Event) : UInt64 :=
  (es.filterMap (seen? c)).foldr
    (fun live highest => max highest live) base

/-
  Live bytes are the running difference of some events: with
  the bytes returned they are the bytes issued and those that
  are reserved.
-/
def Running
    (c : CollectorId)
    (live : UInt64)
    (es : List Event)
    (reserved : List Lease) : Prop :=
  live.toNat +
      Lease.sum (Lease.bytesAt c) (es.filterMap returned?) =
    Lease.sum (Lease.bytesAt c) (es.filterMap issued?) +
      Lease.sum (Lease.bytesAt c) reserved

variable {c : CollectorId}
variable {base : UInt64}
variable {es news : List Event}

theorem highest_append
    (es es' : List Event) :
    highest c base (es' ++ es) =
      highest c (highest c base es) es' := by
  unfold highest
  rw [List.filterMap_append, List.foldr_append]

/- Events that tell of no lease issued raise nothing. -/
theorem highest_eq_base
    (hUnseen : ∀ e ∈ es, e.seen? c = none) :
    highest c base es = base := by
  unfold highest
  rw [List.filterMap_eq_nil_iff.mpr hUnseen]
  rfl

/- Events that tell of no lease issue and return none. -/
theorem filterMap_of_isPlain
    (hPlain : ∀ e ∈ news, e.isPlain) :
    (news ++ es).filterMap issued? = es.filterMap issued? ∧
      (news ++ es).filterMap returned? =
        es.filterMap returned? := by
  have hIssued : news.filterMap issued? = [] :=
    List.filterMap_eq_nil_iff.mpr
      (fun e he => issued?_of_isPlain (hPlain e he))
  have hReturned : news.filterMap returned? = [] :=
    List.filterMap_eq_nil_iff.mpr
      (fun e he => returned?_of_isPlain (hPlain e he))
  rw [List.filterMap_append, List.filterMap_append, hIssued,
    hReturned]
  exact ⟨rfl, rfl⟩

/- The leases in a trace that one event was added to. -/
theorem filterMap_allocated
    (d : CollectorId)
    (bytes live : UInt64)
    (es : List Event) :
    (Event.heap d (.allocated bytes live) ::
          es).filterMap issued? =
        ⟨d, bytes⟩ :: es.filterMap issued? ∧
      (Event.heap d (.allocated bytes live) ::
          es).filterMap returned? =
        es.filterMap returned? :=
  ⟨rfl, rfl⟩

theorem filterMap_released
    (d : CollectorId)
    (bytes live : UInt64)
    (es : List Event) :
    (Event.heap d (.released bytes live) ::
          es).filterMap issued? =
        es.filterMap issued? ∧
      (Event.heap d (.released bytes live) ::
          es).filterMap returned? =
        ⟨d, bytes⟩ :: es.filterMap returned? :=
  ⟨rfl, rfl⟩

/- Live bytes are told of one collector. -/
theorem eq_of_live?
    {d : CollectorId}
    {n : Notice}
    {live : UInt64}
    (hTold : (Event.heap d n).live? c = some live) :
    d = c ∧ n.live? = some live := by
  change (if d = c then n.live? else none) = some live at hTold
  by_cases hOwner : d = c
  · rw [if_pos hOwner] at hTold
    exact ⟨hOwner, hTold⟩
  · rw [if_neg hOwner] at hTold
    cases hTold

/-
  A trace that was added to: one of its events was there, or
  it is among those added.
-/
theorem split_append
    {old later earlier : List Event}
    {e : Event}
    (hSplit : news ++ old = later ++ e :: earlier) :
    (∃ between,
      later = news ++ between ∧
        old = between ++ e :: earlier) ∨
      ∃ between,
        news = later ++ e :: between ∧
          earlier = between ++ old := by
  rcases List.append_eq_append_iff.mp hSplit with
    ⟨between, hLater, hOld⟩ | ⟨rest, hNews, hRest⟩
  · exact Or.inl ⟨between, hLater, hOld⟩
  · rcases List.cons_eq_append_iff.mp hRest with
      ⟨rfl, rfl⟩ | ⟨between, rfl, hEarlier⟩
    · exact Or.inl ⟨[], by simpa using hNews.symm, rfl⟩
    · exact Or.inr ⟨between, hNews, hEarlier⟩

end Event

namespace Moment

variable {κ : Type}
variable {m : Moment κ}
variable {c : CollectorId}

/- What is live is the running difference, at every moment. -/
theorem Sound.running
    (hSound : m.Sound)
    (c : CollectorId) :
    Event.Running c (m.world.heap.counters c).live
      m.world.heap.log m.reserved := by
  have hKept := hSound.balanced.kept (Lease.bytesAt c)
  have hLive := hSound.balanced.live c
  unfold Event.Running
  unfold Heap.issued Heap.returned at hKept
  unfold Heap.owing at hKept hLive
  rw [Lease.sum_nil] at hKept
  omega

------------------------------------------------------------
-- Live Bytes that Were Told
------------------------------------------------------------

/-
  A move told an event on top of some earlier ones, and the
  live bytes that it told are the running difference, with
  what other array calls still have reserved.
-/
def Told
    (m : Moment κ)
    (moves : List (Move κ))
    (c : CollectorId)
    (live : UInt64)
    (e : Event)
    (earlier : List Event) : Prop :=
  ∃ before v after,
    moves = before ++ v :: after ∧
      (m.run before).world.heap.log = earlier ∧
      ((m.run before).step v).world.heap.log = e :: earlier ∧
      Event.Running c live (e :: earlier)
        ((m.run before).step v).reserved

/- A restart tells nothing. -/
theorem Restarts.step
    {v : Move κ}
    (hRestarts : m.Restarts c v)
    (d : CollectorId) :
    (m.step v).world.heap.log = m.world.heap.log ∧
      (m.step v).world.heap.peak d =
        if d = c then (m.world.heap.counters c).live
        else m.world.heap.peak d := by
  rcases hRestarts with ⟨hFrames, rfl⟩
  unfold Moment.step
  rw [hFrames]
  exact ⟨rfl, World.resetPeak_peak m.world c d⟩

/- One notice was told, with the live bytes that it left. -/
private theorem tells_notice
    {h h' : Heap κ}
    {d : CollectorId}
    {n : Notice}
    {told : UInt64}
    (hLog : h'.log = .heap d n :: h.log)
    (hTold : n.live? = some told)
    (hLive : (h'.counters d).live = told)
    (c : CollectorId) :
    ∃ news,
      h'.log = news ++ h.log ∧
        ∀ e ∈ news, ∀ live, e.live? c = some live →
          news = [e] ∧ (h'.counters c).live = live := by
  refine ⟨[_], hLog, ?_⟩
  intro e he live hAgain
  rw [List.mem_singleton] at he
  subst he
  rcases Event.eq_of_live? hAgain with ⟨rfl, hNotice⟩
  rw [hTold] at hNotice
  exact ⟨rfl, hLive.trans (Option.some.inj hNotice)⟩

/-
  A move that tells live bytes tells nothing else, and they
  are those that it leaves.
-/
theorem Sound.tells_step
    (hSound : m.Sound)
    (v : Move κ)
    (c : CollectorId) :
    ∃ news,
      (m.step v).world.heap.log =
          news ++ m.world.heap.log ∧
        ∀ e ∈ news, ∀ live, e.live? c = some live →
          news = [e] ∧
            ((m.step v).world.heap.counters c).live =
              live := by
  by_cases hMove : ∃ d, m.Restarts d v
  · rcases hMove with ⟨d, hRestarts⟩
    exact ⟨[], (hRestarts.step d).1, by simp⟩
  · have hReports :=
      hSound.reports_step
        (fun d hRestarts => hMove ⟨d, hRestarts⟩)
    cases hReports with
    | plain hTells =>
        rcases hTells with ⟨news, hLog, hPlain, _⟩
        refine ⟨news, hLog, ?_⟩
        intro e he live hTold
        rw [Event.live?_of_isPlain (hPlain e he)] at hTold
        cases hTold
    | issued hLog hLive hPeak =>
        exact tells_notice hLog rfl hLive c
    | returned hLog hLive hPeak =>
        exact tells_notice hLog rfl hLive c

/-
  Whatever live bytes the trace tells, some move told them.
  The induction is on the last move, since the trace grows at
  its end.
-/
theorem told_run_fresh
    {provides : UInt64 → Bool}
    {moves : List (Move κ)}
    {later earlier : List Event}
    {e : Event}
    {live : UInt64}
    (hLog :
      ((fresh provides).run moves).world.heap.log =
        later ++ e :: earlier)
    (hTold : e.live? c = some live) :
    (fresh provides).Told moves c live e earlier := by
  induction moves using List.reverseRecOn
      generalizing later with
  | nil => cases later <;> cases hLog
  | append_singleton moves v ih =>
      rw [run_append, run_cons, run_nil] at hLog
      have hSound := sound_run_fresh provides moves
      rcases hSound.tells_step v c with ⟨news, hStep, hNews⟩
      rcases Event.split_append (hStep.symm.trans hLog) with
        ⟨between, rfl, hOld⟩ | ⟨between, hSplit, hOld⟩
      · -- the event was there before the last move
        rcases ih hOld with
          ⟨before, u, after, hMoves, hBefore, hAfter, hLive⟩
        refine
          ⟨before, u, after ++ [v], ?_, hBefore, hAfter,
            hLive⟩
        rw [hMoves, List.append_assoc]
        rfl
      · have hMem : e ∈ news := by
          rw [hSplit]
          simp
        rcases hNews e hMem live hTold with ⟨hOnly, hLive⟩
        have hLast :
            between = [] := by
          have hLength := congrArg List.length hSplit
          rw [hOnly] at hLength
          simp only [List.length_append, List.length_cons,
            List.length_nil] at hLength
          exact List.eq_nil_of_length_eq_zero (by omega)
        subst hLast
        have hNow :
            (((fresh provides).run moves).step
                v).world.heap.log =
              e :: earlier := by
          rw [hStep, hOnly, hOld]
          rfl
        refine ⟨moves, v, [], rfl, hOld.symm, hNow, ?_⟩
        rw [← hLive, ← hNow]
        exact (hSound.step v).running c

------------------------------------------------------------
-- Peaks
------------------------------------------------------------

/- No move restarts the peak of a collector. -/
def Unrestarted
    (m : Moment κ)
    (c : CollectorId) : List (Move κ) → Prop
| [] => True
| v :: vs =>
    ¬ m.Restarts c v ∧ (m.step v).Unrestarted c vs

/-
  A move that does not restart a peak raises it to what it
  tells.
-/
theorem Sound.peak_step
    (hSound : m.Sound)
    {v : Move κ}
    (hMove : ¬ m.Restarts c v) :
    ∃ news,
      (m.step v).world.heap.log =
          news ++ m.world.heap.log ∧
        (m.step v).world.heap.peak c =
          Event.highest c (m.world.heap.peak c) news := by
  by_cases hOther : ∃ d, m.Restarts d v
  · rcases hOther with ⟨d, hRestarts⟩
    have hStep := hRestarts.step c
    rw [if_neg (by rintro rfl; exact hMove hRestarts)]
      at hStep
    exact ⟨[], hStep⟩
  · have hReports :=
      hSound.reports_step
        (fun d hRestarts => hOther ⟨d, hRestarts⟩)
    cases hReports with
    | plain hTells =>
        rcases hTells with ⟨news, hLog, hPlain, hPeak⟩
        refine ⟨news, hLog, ?_⟩
        rw [hPeak, Event.highest_eq_base]
        exact fun e he =>
          Event.seen?_of_isPlain (hPlain e he) c
    | @issued d bytes live hLog hLive hPeak =>
        refine ⟨[_], hLog, ?_⟩
        rw [hPeak]
        unfold Event.highest
        by_cases hOwner : c = d
        · subst hOwner
          simp [Event.seen?, Notice.seen?]
        · simp [Event.seen?, hOwner, Ne.symm hOwner]
    | returned hLog hLive hPeak =>
        refine ⟨[_], hLog, ?_⟩
        rw [hPeak, Event.highest_eq_base]
        intro e he
        rw [List.mem_singleton] at he
        subst he
        simp [Event.seen?, Notice.seen?]

/- So do many such moves. -/
theorem Sound.peak_run
    (hSound : m.Sound)
    {moves : List (Move κ)}
    (hMoves : m.Unrestarted c moves) :
    ∃ news,
      (m.run moves).world.heap.log =
          news ++ m.world.heap.log ∧
        (m.run moves).world.heap.peak c =
          Event.highest c (m.world.heap.peak c) news := by
  induction moves generalizing m with
  | nil => exact ⟨[], rfl, rfl⟩
  | cons v moves ih =>
      rcases hMoves with ⟨hMove, hMoves⟩
      rcases hSound.peak_step hMove with
        ⟨news, hLog, hPeak⟩
      rcases ih (hSound.step v) hMoves with
        ⟨newer, hLog', hPeak'⟩
      refine ⟨newer ++ news, ?_, ?_⟩
      · rw [run_cons, hLog', hLog, List.append_assoc]
      · rw [run_cons, hPeak', hPeak, Event.highest_append]

/- A peak is never restarted, or there is a last time. -/
theorem unrestarted_or
    (m : Moment κ)
    (c : CollectorId)
    (moves : List (Move κ)) :
    m.Unrestarted c moves ∨
      ∃ before v after,
        moves = before ++ v :: after ∧
          (m.run before).Restarts c v ∧
          ((m.run before).step v).Unrestarted c after := by
  induction moves generalizing m with
  | nil => exact Or.inl trivial
  | cons v moves ih =>
      rcases ih (m.step v) with
        hNever | ⟨before, u, after, rfl, hLast⟩
      · by_cases hMove : m.Restarts c v
        · exact Or.inr ⟨[], v, moves, rfl, hMove, hNever⟩
        · exact Or.inl ⟨hMove, hNever⟩
      · exact Or.inr ⟨v :: before, u, after, rfl, hLast⟩

/-
  The peak after some moves is the highest of the live bytes
  told since the last restart, and of those at the restart.
-/
inductive Peaked
    (m : Moment κ)
    (moves : List (Move κ))
    (c : CollectorId) : Prop where
| unrestarted :
    m.Unrestarted c moves →
    (m.run moves).world.heap.peak c =
      Event.highest c 0 (m.run moves).world.heap.log →
    Peaked m moves c
| restarted
    {before after : List (Move κ)}
    {news : List Event} :
    moves = before ++ .act (.resetPeak c) :: after →
    (m.run before).frames = [] →
    ((m.run before).step
      (.act (.resetPeak c))).Unrestarted c after →
    (m.run moves).world.heap.log =
      news ++ (m.run before).world.heap.log →
    (m.run moves).world.heap.peak c =
      Event.highest c
        ((m.run before).world.heap.counters c).live news →
    Peaked m moves c

/- At the start no peak has been reached. -/
theorem peak_fresh
    (provides : UInt64 → Bool)
    (c : CollectorId) :
    (fresh (κ := κ) provides).world.heap.peak c = 0 := by
  unfold Heap.peak Heap.counters Heap.collector
  cases c <;> rfl

theorem peaked_run_fresh
    (provides : UInt64 → Bool)
    (moves : List (Move κ))
    (c : CollectorId) :
    (fresh provides).Peaked moves c := by
  rcases unrestarted_or (fresh provides) c moves with
    hNever |
      ⟨before, v, after, hMoves, hRestarts, hAfter⟩
  · rcases (sound_run_fresh provides []).peak_run hNever with
      ⟨news, hLog, hPeak⟩
    refine .unrestarted hNever ?_
    rw [run_nil] at hPeak hLog
    rw [hPeak, peak_fresh, hLog]
    congr 1
    exact (List.append_nil news).symm
  · have hStep := hRestarts.step c
    rcases
        ((sound_run_fresh provides before).step v).peak_run
          hAfter with
      ⟨news, hLog, hPeak⟩
    have hRun :
        (fresh provides).run moves =
          (((fresh provides).run before).step v).run
            after := by
      rw [hMoves, run_append, run_cons]
    rcases hRestarts with ⟨hFrames, rfl⟩
    rw [hStep.1, ← hRun] at hLog
    rw [hStep.2, if_pos rfl, ← hRun] at hPeak
    exact .restarted hMoves hFrames hAfter hLog hPeak

/- What is live and not reserved is no more than the peak. -/
def Covers
    (m : Moment κ)
    (c : CollectorId) : Prop :=
  (m.world.heap.counters c).live.toNat ≤
    (m.world.heap.peak c).toNat +
      Lease.sum (Lease.bytesAt c) m.reserved

/- A move keeps the peak above what it leaves. -/
theorem Sound.covers_step
    (hSound : m.Sound)
    (hCovers : m.Covers c)
    (v : Move κ) :
    (m.step v).Covers c := by
  have hBefore := hSound.running c
  have hAfter := (hSound.step v).running c
  unfold Covers at hCovers ⊢
  unfold Event.Running at hBefore hAfter
  by_cases hMove : ∃ d, m.Restarts d v
  · rcases hMove with ⟨d, hRestarts⟩
    have hStep := hRestarts.step c
    rw [hStep.1] at hAfter
    rw [hStep.2]
    split
    · rename_i hOwner
      subst hOwner
      omega
    · omega
  · have hReports :=
      hSound.reports_step
        (fun d hRestarts => hMove ⟨d, hRestarts⟩)
    cases hReports with
    | plain hTells =>
        rcases hTells with ⟨news, hLog, hPlain, hPeak⟩
        rw [hLog, (Event.filterMap_of_isPlain hPlain).1,
          (Event.filterMap_of_isPlain hPlain).2] at hAfter
        rw [hPeak]
        omega
    | @issued d bytes live hLog hLive hPeak =>
        rw [hPeak]
        by_cases hOwner : c = d
        · subst hOwner
          rw [if_pos rfl, Word.toNat_max, hLive]
          omega
        · have hBytes :
              Lease.bytesAt c ⟨d, bytes⟩ = 0 :=
            if_neg (Ne.symm hOwner)
          rw [hLog, (Event.filterMap_allocated _ _ _ _).1,
            (Event.filterMap_allocated _ _ _ _).2,
            Lease.sum_cons, hBytes] at hAfter
          rw [if_neg hOwner]
          omega
    | @returned d bytes live hLog hLive hPeak =>
        rw [hLog, (Event.filterMap_released _ _ _ _).1,
          (Event.filterMap_released _ _ _ _).2,
          Lease.sum_cons] at hAfter
        rw [hPeak]
        omega

theorem Sound.covers_run
    (hSound : m.Sound)
    (hCovers : m.Covers c)
    (moves : List (Move κ)) :
    (m.run moves).Covers c := by
  induction moves generalizing m with
  | nil => exact hCovers
  | cons v moves ih =>
      exact ih (hSound.step v) (hSound.covers_step hCovers v)

------------------------------------------------------------
-- Agreement
------------------------------------------------------------

/-
  The trace and the counters of a collector agree after some
  moves.
-/
structure Agreed
    (m : Moment κ)
    (moves : List (Move κ))
    (c : CollectorId) : Prop where
  told :
    ∀ later e earlier live,
      (m.run moves).world.heap.log =
          later ++ e :: earlier →
        e.live? c = some live →
          m.Told moves c live e earlier
  running :
    Event.Running c
      ((m.run moves).world.heap.counters c).live
      (m.run moves).world.heap.log (m.run moves).reserved
  allocations :
    ((m.run moves).world.heap.counters c).allocations =
      UInt64.ofNat
        (Lease.sum (Lease.countAt c)
          (m.run moves).world.heap.issued)
  allocated :
    ((m.run moves).world.heap.counters c).allocated =
      UInt64.ofNat
        (Lease.sum (Lease.bytesAt c)
          (m.run moves).world.heap.issued)
  releases :
    ((m.run moves).world.heap.counters c).releases =
      UInt64.ofNat
        (Lease.sum (Lease.countAt c)
          (m.run moves).world.heap.returned)
  reclaimed :
    ((m.run moves).world.heap.counters c).reclaimed =
      UInt64.ofNat
        (Lease.sum (Lease.bytesAt c)
          (m.run moves).world.heap.returned)
  peaked : m.Peaked moves c
  covers : (m.run moves).Covers c

theorem agreed_run_fresh
    (provides : UInt64 → Bool)
    (moves : List (Move κ))
    (c : CollectorId) :
    (fresh provides).Agreed moves c := by
  have hSound := sound_run_fresh provides moves
  refine
    ⟨fun later e earlier live hLog hTold =>
        told_run_fresh hLog hTold,
      hSound.running c,
      hSound.balanced.allocations c,
      hSound.balanced.allocated c,
      hSound.balanced.releases c,
      hSound.balanced.reclaimed c,
      peaked_run_fresh provides moves c, ?_⟩
  refine
    (sound_run_fresh provides []).covers_run ?_ moves
  unfold Covers fresh World.fresh
  unfold Heap.counters Heap.collector
  cases c <;> simp [Heap.fresh, Collector.ofConfig, Counters.zero]

end Moment

------------------------------------------------------------
-- Refused Calls
------------------------------------------------------------

/- Nothing that is told is a lease issued. -/
def Event.Unseen (e : Event) : Prop :=
  ∀ c, e.seen? c = none

/- The return of a lease is not seen by a peak. -/
theorem Event.unseen_released
    (c : CollectorId)
    (bytes live : UInt64) :
    (Event.heap c (.released bytes live)).Unseen := by
  simp [Event.Unseen, Event.seen?, Notice.seen?]

namespace Heap

variable {κ : Type}
variable {h h' : Heap κ}
variable {c : CollectorId}

/- What tells of no lease is not seen by a peak. -/
theorem Tells.unseen
    (hTells : Tells (fun e => e.isPlain) h h') :
    Tells Event.Unseen h h' := by
  rcases hTells with ⟨news, hLog, hPlain, hPeak⟩
  exact
    ⟨news, hLog,
      fun e he => Event.seen?_of_isPlain (hPlain e he),
      hPeak⟩

/- A refused block leases nothing. -/
theorem tells_allocate
    {size : UInt64}
    {r : Refusal}
    {heap : Heap κ}
    (hRefused :
      h.perform c ((h.terms c).allocate size) =
        (.error r, heap)) :
    Tells (fun e => e.isPlain) h heap := by
  have hHeap := congrArg Prod.snd hRefused
  have hAnswer := congrArg Prod.fst hRefused
  rw [perform_eq, Terms.run_allocate] at hHeap hAnswer
  simp only at hHeap
  rw [← hHeap]
  split at hAnswer
  · cases hAnswer
  · exact tells_tally (by simp [isPlain_refused]) rfl

/- Nor does an array that is refused when it is finished. -/
theorem tells_closeArray
    {width hinted : UInt64}
    {count : Nat}
    {r : Refusal}
    {heap : Heap κ}
    (hRefused :
      h.perform c
          ((h.terms c).closeArray width hinted count) =
        (.error r, heap)) :
    Tells (fun e => e.isPlain) h heap := by
  have hHeap := congrArg Prod.snd hRefused
  have hAnswer := congrArg Prod.fst hRefused
  rw [perform_eq, Terms.run_closeArray] at hHeap hAnswer
  simp only at hHeap hAnswer
  rw [← hHeap]
  split at hAnswer
  · refine tells_tally ?_ rfl
    simp [isPlain_refused]
  · split at hAnswer
    · rename_i hLe
      rw [if_pos hLe]
      split at hAnswer
      · cases hAnswer
      · refine tells_tally ?_ rfl
        simp [isPlain_refused]
    · cases hAnswer

/- Reclaiming tells of returns only, and moves no peak. -/
theorem tells_reclaim
    {kind : Event → Prop}
    (hKind :
      ∀ c bytes live, kind (.heap c (.released bytes live)))
    (h : Heap κ)
    (fs : List Frame) :
    Tells kind h (h.reclaim fs) := by
  induction h, fs using Heap.reclaim.induct with
  | case1 h =>
      rw [Heap.reclaim]
      exact .of_eq rfl rfl
  | case2 h f fs next ih =>
      rw [Heap.reclaim]
      refine .trans ?_ ih
      rcases h.step_cases f with
        hStep | ⟨p, hStep⟩ | ⟨i, hStep⟩ | ⟨l, hStep⟩
      · rw [hStep]
        exact .of_eq rfl rfl
      · rw [hStep]
        exact
          .of_eq (take_collectors h p).1
            (take_collectors h p).2
      · rw [hStep]
        exact
          .of_eq (release_collectors h i).1
            (release_collectors h i).2
      · rw [hStep]
        unfold giveBack
        rw [perform_eq, Steps.run_release]
        exact tells_tally (by simpa using hKind _ _ _) rfl

end Heap

namespace World

variable {κ : Type}
variable {w w' : World κ}
variable {c : CollectorId}
variable {r : Refusal}

/- A refused block leaves every peak. -/
theorem tells_allocate
    {size : UInt64}
    (hRefused : w.allocate c size = (.error r, w')) :
    Heap.Tells Event.Unseen w.heap w'.heap := by
  unfold allocate at hRefused
  split at hRefused
  · split at hRefused
    · rename_i r' heap hCall
      cases hRefused
      exact (Heap.tells_allocate hCall).unseen
    · cases hRefused
  · cases hRefused
    exact .of_eq rfl rfl

/- So does a drop of handles. -/
theorem tells_dropAll
    {kind : Event → Prop}
    (hKind :
      ∀ c bytes live, kind (.heap c (.released bytes live)))
    (w : World κ)
    (xs : List Handle) :
    Heap.Tells kind w.heap (w.dropAll xs).heap := by
  induction xs generalizing w with
  | nil => exact .of_eq rfl rfl
  | cons x xs ih =>
      refine .trans ?_ (ih (w.drop x).2)
      unfold drop
      split
      · exact .of_eq rfl rfl
      · exact Heap.tells_reclaim hKind _ _

/- So does an array that is refused when it is finished. -/
theorem tells_closeArray
    {s : Shape}
    {hinted : UInt64}
    {items : List s.Item}
    (hRefused :
      w.closeArray c s hinted items = (.error r, w')) :
    Heap.Tells Event.Unseen w.heap w'.heap := by
  unfold closeArray at hRefused
  split at hRefused
  · rename_i r' heap hCall
    cases hRefused
    exact
      (Heap.tells_closeArray hCall).unseen.trans
        (tells_dropAll Event.unseen_released _ _)
  · cases hRefused

/-
  A refused array call leaves every peak but for what its
  source did.
-/
theorem tells_array
    {applies : Applies κ}
    {s : Shape}
    {hint : UInt64}
    {owned : List Handle}
    {items : Program κ (List s.Item)}
    (hRefused :
      (Program.makeArray c s hint owned items).exec
        applies w = some (.error r, w')) :
    Heap.Tells Event.Unseen w.heap w'.heap ∨
      ∃ opened xs pulled,
        items.exec applies opened = some (xs, pulled) ∧
          Heap.Tells Event.Unseen w.heap opened.heap ∧
          Heap.Tells Event.Unseen pulled.heap w'.heap := by
  have hOpen := (w.tells_openArray c s hint).unseen
  simp only [Program.makeArray, Program.exec] at hRefused
  split at hRefused
  · rename_i r' opened hCall
    rw [hCall] at hOpen
    cases hRefused
    exact
      Or.inl
        (hOpen.trans
          (tells_dropAll Event.unseen_released _ _))
  · rename_i hinted opened hCall
    rw [hCall] at hOpen
    split at hRefused
    · cases hRefused
    · rename_i xs pulled hItems
      have hClose :
          pulled.closeArray c s hinted xs = (.error r, w') :=
        Prod.ext
          (congrArg Prod.fst (Option.some.inj hRefused))
          (congrArg Prod.snd (Option.some.inj hRefused))
      exact
        Or.inr
          ⟨opened, xs, pulled, hItems, hOpen,
            tells_closeArray hClose⟩

end World

namespace Moment

variable {κ : Type}

/-
  Moves that restart no peak of a collector and issue none of
  its leases leave its peak.
-/
theorem Sound.peak_unseen
    {m : Moment κ}
    (hSound : m.Sound)
    {moves : List (Move κ)}
    {news : List Event}
    {c : CollectorId}
    (hMoves : m.Unrestarted c moves)
    (hLog :
      (m.run moves).world.heap.log =
        news ++ m.world.heap.log)
    (hUnseen : ∀ e ∈ news, e.seen? c = none) :
    (m.run moves).world.heap.peak c =
      m.world.heap.peak c := by
  rcases hSound.peak_run hMoves with ⟨told, hTold, hPeak⟩
  have hSame : told = news :=
    List.append_cancel_right (hTold.symm.trans hLog)
  rw [hPeak, hSame, Event.highest_eq_base hUnseen]

/-
  After any moves, and after any program, the trace and the
  counters of every collector agree.  No peak moves while
  nothing is issued and nothing restarted, and a refused call
  issues nothing itself.
-/
theorem trace_agrees_with_counters
    (provides : UInt64 → Bool) :
    (∀ (moves : List (Move κ)) c,
        (fresh provides).Agreed moves c) ∧
      (∀ (behaves : Behaves κ) (depth : Nat) (α : Type)
        (p : Program κ α) (a : α) (w : World κ),
        World.run behaves depth p (.fresh provides) =
            some (a, w) →
          ∃ moves,
            (fresh provides).run moves = ⟨w, [], []⟩ ∧
              ∀ c, (fresh provides).Agreed moves c ∧
                (w.heap.counters c).live ≤ w.heap.peak c) ∧
      (∀ (before moves : List (Move κ)) news c,
        ((fresh provides).run before).Unrestarted c moves →
          ((fresh provides).run
              (before ++ moves)).world.heap.log =
            news ++
              ((fresh provides).run before).world.heap.log →
          (∀ e ∈ news, e.seen? c = none) →
          ((fresh provides).run
              (before ++ moves)).world.heap.peak c =
            ((fresh provides).run before).world.heap.peak
              c) ∧
      (∀ (w w' : World κ) c size r,
        w.allocate c size = (.error r, w') →
          Heap.Tells Event.Unseen w.heap w'.heap) ∧
      (∀ (applies : Applies κ) (w w' : World κ) c s hint
        owned (items : Program κ (List s.Item)) r,
        (Program.makeArray c s hint owned items).exec
            applies w = some (.error r, w') →
          Heap.Tells Event.Unseen w.heap w'.heap ∨
            ∃ opened xs pulled,
              items.exec applies opened =
                  some (xs, pulled) ∧
                Heap.Tells Event.Unseen w.heap
                  opened.heap ∧
                Heap.Tells Event.Unseen pulled.heap
                  w'.heap) := by
  refine
    ⟨agreed_run_fresh provides, ?_, ?_,
      fun w w' c size r => World.tells_allocate,
      fun applies w w' c s hint owned items r =>
        World.tells_array⟩
  · intro behaves depth α p a w hRun
    have hLeads : Leads (fresh provides) ⟨w, [], []⟩ :=
      leads_run hRun
    rcases hLeads with ⟨moves, hFresh⟩
    refine ⟨moves, hFresh, fun c => ?_⟩
    have hAgreed := agreed_run_fresh provides moves c
    refine ⟨hAgreed, ?_⟩
    have hCovers := hAgreed.covers
    unfold Covers at hCovers
    rw [hFresh, Lease.sum_nil] at hCovers
    exact UInt64.le_iff_toNat_le.mpr hCovers
  · intro before moves news c hMoves hLog hUnseen
    rw [run_append] at hLog ⊢
    exact
      (sound_run_fresh provides before).peak_unseen hMoves
        hLog hUnseen

/-
  A block is made while an array is under way that announced
  too much; the block is dropped, and the peak restarted.  A
  program makes a block.  A drop leaves a peak.  A collector
  with a low limit refuses a block, and an array whose source
  outgrew it.
-/
theorem trace_agrees_with_counters_reentrant :
    (fresh (κ := Unit) (fun _ => true)).Told
        [.act (.allocate 0 8),
          .openArray 0 (.numbers .byte) 4,
          .act (.allocate 0 16),
          .closeArray 0 (.numbers .byte) [1, 2],
          .act (.drop ⟨1⟩), .reclaim, .reclaim,
          .act (.resetPeak 0), .act (.allocate 0 1)]
        0 28 (.heap 0 (.allocated 16 28))
        [.heap 0 (.allocated 8 8)] ∧
      (∃ w : World Unit,
        World.run
            (fun _ _ => .done (.error (.raised "")))
            0 (.perform (.allocate 0 8))
            (.fresh (fun _ => true)) =
          some (.ok ⟨0⟩, w) ∧
        (w.heap.counters 0).live ≤ w.heap.peak 0) ∧
      ((fresh (κ := Unit) (fun _ => true)).run
          ([.act (.allocate 0 8)] ++
            [.act (.drop ⟨0⟩), .reclaim,
              .reclaim])).world.heap.peak 0 = 8 ∧
      ∃ w : World Unit,
        (∃ w' r, w.allocate 1 8 = (.error r, w') ∧
          Heap.Tells Event.Unseen w.heap w'.heap) ∧
        ∃ w' r,
          (Program.makeArray 1 (.numbers .byte) 2 []
              (.done [1, 2, 3, 4, 5])).exec
              (fun _ _ _ => none) w =
            some (.error r, w') ∧
          (Heap.Tells Event.Unseen w.heap w'.heap ∨
            ∃ opened, ∃ xs : List UInt64, ∃ pulled,
              (Program.done [1, 2, 3, 4, 5]).exec
                  (fun _ _ _ => none) opened =
                some (xs, pulled) ∧
              Heap.Tells Event.Unseen w.heap opened.heap ∧
              Heap.Tells Event.Unseen pulled.heap
                w'.heap) := by
  rcases trace_agrees_with_counters (κ := Unit)
      (fun _ => true) with
    ⟨hMoves, hPrograms, hQuiet, hBlocks, hArrays⟩
  have hRun :
      ∃ w : World Unit,
        World.run
            (fun _ _ => .done (.error (.raised "")))
            0 (.perform (.allocate 0 8))
            (.fresh (fun _ => true)) =
          some (.ok ⟨0⟩, w) :=
    ⟨_, rfl⟩
  refine ⟨?_, ?_, ?_, ?_⟩
  · exact
      (hMoves _ 0).told
        [.heap 0 (.allocated 1 11),
          .heap 0 (.released 16 10),
          .heap 0 (.allocated 2 26)]
        (.heap 0 (.allocated 16 28))
        [.heap 0 (.allocated 8 8)] 28 rfl rfl
  · rcases hRun with ⟨w, hRun⟩
    rcases hPrograms _ _ _ _ _ _ hRun with
      ⟨moves, _, hAgreed⟩
    exact ⟨w, hRun, (hAgreed 0).2⟩
  · refine
      hQuiet [.act (.allocate 0 8)]
        [.act (.drop ⟨0⟩), .reclaim, .reclaim]
        [.heap 0 (.released 8 0)] 0 ?_ rfl ?_
    · simp [Unrestarted, Restarts]
    · simp [Event.seen?, Notice.seen?]
  · have hBlock :
        ∃ w' r,
          (World.newCollector (κ := Unit)
            (.fresh (fun _ => true)) ⟨⟨some 4⟩⟩).2.allocate
              1 8 =
            (.error r, w') :=
      ⟨_, _, rfl⟩
    have hArray :
        ∃ w' r,
          (Program.makeArray 1 (.numbers .byte) 2 []
              (.done [1, 2, 3, 4, 5])).exec
              (fun _ _ _ => none)
              (World.newCollector (κ := Unit)
                (.fresh (fun _ => true)) ⟨⟨some 4⟩⟩).2 =
            some (.error r, w') :=
      ⟨_, _, rfl⟩
    rcases hBlock with ⟨w', r, hBlock⟩
    rcases hArray with ⟨w'', r', hArray⟩
    exact
      ⟨_, ⟨w', r, hBlock, hBlocks _ _ _ _ _ hBlock⟩, w'', r',
        hArray, hArrays _ _ _ _ _ _ _ _ _ hArray⟩

end Moment

end LeasedHeap
