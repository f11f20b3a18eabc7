import LeasedHeap.Proofs.Soundness

/-
  What moves report.

  A move adds to the trace what it reports.  At most one
  lease is issued or returned in a move; the live bytes that
  are told with it are those that the move leaves, and a
  lease that is issued raises the peak to them.  No other
  report moves a peak, and no other move but a restart does.

  Main declarations:
    * `Event.live?` and `Event.seen?`
    * `Heap.Reports`
    * `Moment.Restarts`
    * `Moment.Sound.reports_step`
-/

namespace LeasedHeap

------------------------------------------------------------
-- Live Bytes that Are Told
------------------------------------------------------------

namespace Notice

/- The live bytes that are told with a lease issued. -/
def seen? : Notice → Option UInt64
| .allocated _ live => some live
| _ => none

/- The live bytes that are told with a lease. -/
def live? : Notice → Option UInt64
| .allocated _ live => some live
| .released _ live => some live
| .refused _ => none

end Notice

namespace Event

/- The live bytes told with a lease that a collector issues. -/
def seen?
    (c : CollectorId) : Event → Option UInt64
| .heap d n => if d = c then n.seen? else none
| _ => none

/-
  The live bytes told with a lease that a collector issues or
  takes back.
-/
def live?
    (c : CollectorId) : Event → Option UInt64
| .heap d n => if d = c then n.live? else none
| _ => none

/- An event that tells of no lease. -/
def isPlain : Event → Bool
| .heap _ n => n.live?.isNone
| _ => true

variable {e : Event}

theorem issued?_of_isPlain
    (hPlain : e.isPlain) :
    e.issued? = none := by
  cases e with
  | heap c n => cases n <;> first | rfl | cases hPlain
  | enter arity args => rfl
  | mismatch expected found => rfl
  | exit => rfl

theorem returned?_of_isPlain
    (hPlain : e.isPlain) :
    e.returned? = none := by
  cases e with
  | heap c n => cases n <;> first | rfl | cases hPlain
  | enter arity args => rfl
  | mismatch expected found => rfl
  | exit => rfl

theorem live?_of_isPlain
    (hPlain : e.isPlain)
    (c : CollectorId) :
    e.live? c = none := by
  cases e with
  | heap d n => cases n <;> simp_all [isPlain, live?, Notice.live?]
  | enter arity args => rfl
  | mismatch expected found => rfl
  | exit => rfl

theorem seen?_of_isPlain
    (hPlain : e.isPlain)
    (c : CollectorId) :
    e.seen? c = none := by
  cases e with
  | heap d n =>
      cases n <;>
        simp_all [isPlain, seen?, Notice.live?, Notice.seen?]
  | enter arity args => rfl
  | mismatch expected found => rfl
  | exit => rfl

end Event

------------------------------------------------------------
-- Reports
------------------------------------------------------------

namespace Heap

variable {κ : Type}

/- The peak of a collector. -/
def peak
    (h : Heap κ)
    (c : CollectorId) : UInt64 :=
  (h.counters c).peak

/-
  One heap comes after another, and what was told in between
  is of a kind.  No peak moved.
-/
def Tells
    (kind : Event → Prop)
    (h h' : Heap κ) : Prop :=
  ∃ news, h'.log = news ++ h.log ∧ (∀ e ∈ news, kind e) ∧
    ∀ c, h'.peak c = h.peak c

/-
  One heap comes after another, and the trace tells what
  became of leases and peaks: nothing, or one lease was
  issued, or one was returned.
-/
inductive Reports (h h' : Heap κ) : Prop where
| plain :
    Tells (fun e => e.isPlain) h h' →
    Reports h h'
| issued {c : CollectorId} {bytes live : UInt64} :
    h'.log = .heap c (.allocated bytes live) :: h.log →
    (h'.counters c).live = live →
    (∀ d, h'.peak d =
      if d = c then max (h.peak c) live else h.peak d) →
    Reports h h'
| returned {c : CollectorId} {bytes live : UInt64} :
    h'.log = .heap c (.released bytes live) :: h.log →
    (h'.counters c).live = live →
    (∀ d, h'.peak d = h.peak d) →
    Reports h h'

variable {h h' h'' : Heap κ}

/- The counters of a heap are those of its collectors. -/
theorem counters_congr
    (hCollectors : h'.collectors = h.collectors)
    (c : CollectorId) :
    h'.counters c = h.counters c := by
  unfold counters collector
  rw [hCollectors]

/- Where no collector works, nothing is told. -/
theorem Tells.of_eq
    {kind : Event → Prop}
    (hCollectors : h'.collectors = h.collectors)
    (hLog : h'.log = h.log) :
    Tells kind h h' :=
  ⟨[], hLog, by simp,
    fun c => congrArg Counters.peak
      (counters_congr hCollectors c)⟩

theorem Tells.trans
    {kind : Event → Prop}
    (hFirst : Tells kind h h')
    (hSecond : Tells kind h' h'') :
    Tells kind h h'' := by
  rcases hFirst with ⟨news, hLog, hNews, hPeak⟩
  rcases hSecond with ⟨news', hLog', hNews', hPeak'⟩
  refine ⟨news' ++ news, ?_, ?_, ?_⟩
  · rw [hLog', hLog, List.append_assoc]
  · intro e he
    rcases List.mem_append.mp he with he | he
    · exact hNews' e he
    · exact hNews e he
  · intro c
    rw [hPeak', hPeak]

/- Objects do not matter. -/
theorem Reports.congr
    (hReports : h.Reports h')
    (hCollectors : h''.collectors = h'.collectors)
    (hLog : h''.log = h'.log) :
    h.Reports h'' := by
  have hCounters := counters_congr hCollectors
  cases hReports with
  | plain hTells =>
      exact .plain (hTells.trans (.of_eq hCollectors hLog))
  | issued hNews hLive hPeak =>
      refine .issued (hLog.trans hNews) ?_ (fun d => ?_)
      · rw [hCounters]
        exact hLive
      · rw [← hPeak d]
        exact congrArg Counters.peak (hCounters d)
  | returned hNews hLive hPeak =>
      refine .returned (hLog.trans hNews) ?_ (fun d => ?_)
      · rw [hCounters]
        exact hLive
      · rw [← hPeak d]
        exact congrArg Counters.peak (hCounters d)

/- Where no collector works, nothing is reported. -/
theorem reports_of_collectors_eq
    (hCollectors : h'.collectors = h.collectors)
    (hLog : h'.log = h.log) :
    h.Reports h' :=
  .plain (.of_eq hCollectors hLog)

/- What is told of an application is of no lease. -/
theorem reports_record
    (h : Heap κ)
    {e : Event}
    (hPlain : e.isPlain) :
    h.Reports (h.record e) :=
  .plain ⟨[e], rfl, by simpa using hPlain, fun _ => rfl⟩

------------------------------------------------------------
-- Calls
------------------------------------------------------------

variable {c : CollectorId}
variable {counters : Counters}

/- The peaks after some counters were replaced. -/
theorem peak_tally
    (h : Heap κ)
    (ns : List Notice)
    (hPeak : counters.peak = h.peak c)
    (d : CollectorId) :
    (h.tally c counters ns).peak d = h.peak d := by
  by_cases hc : c < h.collectors.size
  · unfold peak
    rw [counters_tally hc]
    split
    · rename_i hd
      rw [hPeak, hd]
      rfl
    · rfl
  · refine congrArg Counters.peak (counters_congr ?_ d)
    exact
      Array.setIfInBounds_eq_of_size_le
        (Nat.le_of_not_lt hc)

/- A call that leaves the peak tells what it reports. -/
theorem tells_tally
    {kind : Event → Prop}
    {ns : List Notice}
    (hKind : ∀ n ∈ ns, kind (.heap c n))
    (hPeak : counters.peak = h.peak c) :
    Tells kind h (h.tally c counters ns) := by
  refine
    ⟨ns.map (.heap c), rfl, ?_, peak_tally h ns hPeak⟩
  intro e he
  rcases List.mem_map.mp he with ⟨n, hn, rfl⟩
  exact hKind n hn

/- A refusal tells of no lease. -/
theorem isPlain_refused
    (c : CollectorId)
    (r : Refusal) :
    (Event.heap c (.refused r)).isPlain :=
  rfl

/- A lease is told with the live bytes that it leaves. -/
theorem reports_leased
    (hc : c < h.collectors.size)
    (bytes live : UInt64) :
    h.Reports
      (h.tally c
        (((h.counters c).withLive live).leased bytes live)
        [.allocated bytes live]) := by
  refine .issued rfl ?_ (fun d => ?_)
  · rw [counters_tally hc, if_pos rfl]
    rfl
  · unfold peak
    rw [counters_tally hc]
    split <;> rfl

/- So is the return of one, if its bytes are live. -/
theorem reports_returned
    {bytes : UInt64}
    (hc : c < h.collectors.size)
    (hLe : bytes ≤ (h.counters c).live) :
    h.Reports (h.perform c (Steps.release bytes)).2 := by
  rw [perform_eq, Steps.run_release]
  refine .returned rfl ?_ (fun d => ?_)
  · rw [counters_tally hc, if_pos rfl, Word.satSub,
      if_pos hLe]
    rfl
  · unfold peak
    rw [counters_tally hc]
    split
    · rename_i hd
      rw [hd]
      rfl
    · rfl

theorem reports_allocate
    (hc : c < h.collectors.size)
    (size : UInt64) :
    h.Reports
      (h.perform c ((h.terms c).allocate size)).2 := by
  rw [perform_eq, Terms.run_allocate]
  split
  · exact reports_leased hc _ _
  · exact .plain (tells_tally (by simp [isPlain_refused]) rfl)

/- To open an array leases nothing. -/
theorem tells_openArray
    (width hint : UInt64) :
    Tells (fun e => e.isPlain) h
      (h.perform c ((h.terms c).openArray width hint)).2 := by
  rw [perform_eq, Terms.run_openArray]
  split
  · exact tells_tally (by simp [isPlain_refused]) rfl
  · split
    · exact tells_tally (by simp) rfl
    · exact tells_tally (by simp [isPlain_refused]) rfl

theorem reports_closeArray
    (hc : c < h.collectors.size)
    (width hinted : UInt64)
    (count : Nat) :
    h.Reports
      (h.perform c
        ((h.terms c).closeArray width hinted count)).2 := by
  rw [perform_eq, Terms.run_closeArray]
  simp only
  split
  · exact .plain (tells_tally (by simp [isPlain_refused]) rfl)
  · split
    · split
      · exact reports_leased hc _ _
      · exact .plain (tells_tally (by simp [isPlain_refused]) rfl)
    · exact reports_leased hc _ _

/- Nothing else that is left to give up is of a collector. -/
theorem reports_step
    {f : Frame}
    (hFrame : ∀ l, f ≠ .lease l) :
    h.Reports (h.step f).2 :=
  reports_of_collectors_eq (step_collectors hFrame).1
    (step_collectors hFrame).2

end Heap

------------------------------------------------------------
-- Operations
------------------------------------------------------------

namespace World

variable {κ : Type}
variable (w : World κ)

/- A world without the collector makes no call. -/
theorem reports_allocate
    (c : CollectorId)
    (size : UInt64) :
    w.heap.Reports (w.allocate c size).2.heap := by
  unfold allocate
  split
  · rename_i hHas
    have hReports :=
      Heap.reports_allocate (h := w.heap) (c := c)
        (by simpa [Heap.hasCollector] using hHas) size
    split
    · rename_i r heap hCall
      rw [hCall] at hReports
      exact hReports
    · rename_i heap hCall
      rw [hCall] at hReports
      exact hReports.congr rfl rfl
  · exact Heap.reports_of_collectors_eq rfl rfl

theorem tells_openArray
    (c : CollectorId)
    (s : Shape)
    (hint : UInt64) :
    Heap.Tells (fun e => e.isPlain)
      w.heap (w.openArray c s hint).2.heap := by
  unfold openArray
  split
  · exact Heap.tells_openArray _ _
  · exact .of_eq rfl rfl

theorem reports_close
    {c : CollectorId}
    (hc : c < w.heap.collectors.size)
    (s : Shape)
    (hinted : UInt64)
    (items : List s.Item) :
    w.heap.Reports (w.close c s hinted items).heap := by
  have hReports :=
    Heap.reports_closeArray (h := w.heap) hc s.width hinted
      items.length
  unfold close
  split
  · rename_i r heap hCall
    rw [hCall] at hReports
    exact hReports
  · rename_i bytes heap hCall
    rw [hCall] at hReports
    rcases heap_store { w with heap } ⟨c, bytes⟩ s items with
      ⟨contents, hStore⟩
    rw [hStore]
    exact hReports.congr rfl rfl

theorem reports_enter
    (c : Closure)
    (args : Nat) :
    w.heap.Reports (w.enter c args).heap := by
  unfold enter
  split
  · rename_i env code hEnv hCode
    simp only
    split
    · refine
        (Heap.reports_record w.heap
          (e := .enter env.length args) rfl).congr ?_ ?_
      · unfold countRun
        split <;> rfl
      · unfold countRun
        split <;> rfl
    · exact
        .plain
          ⟨[.exit, .mismatch env.length args,
              .enter env.length args],
            rfl, by simp [Event.isPlain], fun _ => rfl⟩
  · exact Heap.reports_of_collectors_eq rfl rfl

/- One more copy of a reference makes no call. -/
theorem collectors_clone
    (r : Ref) :
    (w.clone r).2.heap.collectors = w.heap.collectors ∧
      (w.clone r).2.heap.log = w.heap.log := by
  have hRetain := Heap.retain_collectors (κ := κ)
  unfold clone
  split
  · cases r with
    | value v =>
        cases v with
        | integer n => exact ⟨rfl, rfl⟩
        | list p => exact hRetain _ _
        | closure c =>
            exact
              ⟨(hRetain _ _).1.trans (hRetain _ _).1,
                (hRetain _ _).2.trans (hRetain _ _).2⟩
    | array p => exact hRetain _ _
    | code q => exact hRetain _ _
  · exact ⟨rfl, rfl⟩

/- An action reports, unless it restarts a peak. -/
theorem reports_begin
    {a : Action κ}
    (hAction : ∀ c, a ≠ .resetPeak c) :
    w.heap.Reports (w.begin a).2.heap := by
  cases a with
  | newCollector config =>
      refine .plain ⟨[], rfl, by simp, fun c => ?_⟩
      unfold Heap.peak Heap.counters Heap.collector
      simp only [begin, newCollector, Array.getElem?_push]
      split
      · rename_i hc
        rw [hc, Array.getElem?_size]
        rfl
      · rfl
  | resetPeak c => exact absurd rfl (hAction c)
  | allocate c size => exact w.reports_allocate c size
  | clone r =>
      exact
        Heap.reports_of_collectors_eq
          (w.collectors_clone r).1 (w.collectors_clone r).2
  | drop x =>
      simp only [begin, letGo]
      split <;> exact Heap.reports_of_collectors_eq rfl rfl
  | writeNumber x i n =>
      simp only [begin, writeNumber]
      split
      · split <;>
          exact Heap.reports_of_collectors_eq rfl rfl
      · exact Heap.reports_of_collectors_eq rfl rfl
      · exact Heap.reports_of_collectors_eq rfl rfl
  | writeValue x i item =>
      simp only [begin]
      rcases exchange_cases w x i item with
        ⟨hExchange, _⟩ |
          ⟨p, lease, vs, old, v, _, _, _, hExchange, _⟩ <;>
        rw [hExchange] <;>
        exact Heap.reports_of_collectors_eq rfl rfl
  | newCode body values codes =>
      simp only [begin, newCode, issue, hold, heap_takeCodes,
        heap_takeValues]
      exact Heap.reports_of_collectors_eq rfl rfl

/- A restarted peak is what is live, and nothing is told. -/
theorem resetPeak_peak
    (c d : CollectorId) :
    (w.resetPeak c).heap.peak d =
      if d = c then (w.heap.counters c).live
      else w.heap.peak d := by
  unfold resetPeak Heap.peak
  rw [Heap.perform_eq, Steps.run_resetPeak]
  by_cases hc : c < w.heap.collectors.size
  · rw [Heap.counters_tally hc]
    split <;> rfl
  · have hSame :
        ∀ d, ((w.heap.tally c
            { w.heap.counters c with
              peak := (w.heap.counters c).live }
            []).counters d) = w.heap.counters d :=
      Heap.counters_congr
        (Array.setIfInBounds_eq_of_size_le
          (Nat.le_of_not_lt hc))
    rw [hSame]
    split
    · rename_i hd
      subst hd
      unfold Heap.counters Heap.collector
      rw [Array.getElem?_eq_none (Nat.le_of_not_lt hc)]
      rfl
    · rfl

end World

------------------------------------------------------------
-- Moves
------------------------------------------------------------

namespace Moment

variable {κ : Type}
variable {m : Moment κ}

/- A move restarts the peak of a collector. -/
def Restarts
    (m : Moment κ)
    (c : CollectorId)
    (v : Move κ) : Prop :=
  m.frames = [] ∧ v = .act (.resetPeak c)

/- Every move but a restart reports. -/
theorem Sound.reports_step
    (hSound : m.Sound)
    {v : Move κ}
    (hMove : ∀ c, ¬ m.Restarts c v) :
    m.world.heap.Reports (m.step v).world.heap := by
  rcases step_cases m v with
    ⟨hFrames, hStep⟩ | ⟨f, fs, hFrames, hStep⟩ | hStep
  · rw [hStep]
    cases v with
    | act a =>
        apply World.reports_begin
        rintro c rfl
        exact hMove c ⟨hFrames, rfl⟩
    | openArray c s hint =>
        have hTells := m.world.tells_openArray c s hint
        unfold Moment.start
        simp only
        split
        · rename_i r w hOpen
          rw [hOpen] at hTells
          exact .plain hTells
        · rename_i hinted w hOpen
          rw [hOpen] at hTells
          exact .plain hTells
    | closeArray k s items =>
        unfold Moment.start
        simp only
        split
        · exact Heap.reports_of_collectors_eq rfl rfl
        · rename_i c hinted hk
          apply World.reports_close
          exact
            hSound.balanced.lt_of_reserved
              (List.mem_of_getElem? hk)
    | enter c args => exact World.reports_enter _ _ _
    | exit => exact Heap.reports_record _ rfl
    | reclaim => exact Heap.reports_of_collectors_eq rfl rfl
  · rw [hStep]
    cases f with
    | lease l =>
        have hMem : l ∈ Frame.leases m.frames := by
          rw [hFrames]
          exact List.mem_cons_self
        have hLive := hSound.balanced.live l.owner
        rw [hFrames, Heap.owing_cons_lease, Lease.bytesAt,
          if_pos rfl] at hLive
        refine
          Heap.reports_returned
            (hSound.balanced.lt_of_pending hMem) ?_
        rw [UInt64.le_iff_toNat_le]
        omega
    | value v => exact Heap.reports_step (by simp)
    | activation v pending => exact Heap.reports_step (by simp)
    | handle i => exact Heap.reports_step (by simp)
  · rw [hStep]
    exact Heap.reports_of_collectors_eq rfl rfl

end Moment

end LeasedHeap
