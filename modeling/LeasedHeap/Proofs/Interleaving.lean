import LeasedHeap.Proofs.Accounts
import Mathlib.Algebra.Order.BigOperators.Group.List
import Mathlib.Algebra.Order.Group.Nat
import Mathlib.Data.List.Perm.Basic

/-
  Threads that take turns lose nothing.

  Every thread has an account of the call that it is in.  At
  every moment of every schedule the live bytes are what the
  accounts owe and what the threads hold, so nothing wraps or
  saturates, and the limit is kept.  When all threads are
  idle, the counts are those of the leases that were granted
  and of those that were dropped.

  Main declarations:
    * `Pool.returned` and `Pool.granted`
    * `Account.Turns`
    * `Pool.Kept` and `Pool.Kept.step`
    * `Pool.Sound`
    * `Pool.Kept.run` and `Pool.Kept.sound`
-/

namespace LeasedHeap

------------------------------------------------------------
-- What Threads Come To
------------------------------------------------------------

namespace Worker

/- The bytes of the leases that a thread holds. -/
def held (th : Worker) : Nat :=
  (th.leases.map UInt64.toNat).sum

/- The leases that the calls of a thread came to. -/
def granted (th : Worker) : List UInt64 :=
  th.results.filterMap CallResult.leased?

/- The lease that a thread starts to return in its turn. -/
def starting? (th : Worker) : Option UInt64 :=
  match th.running, th.calls with
  | none, call :: _ => call.returned? th.leases
  | _, _ => none

end Worker

namespace Pool

/- The leases that the calls of all threads came to. -/
def granted (p : Pool) : List UInt64 :=
  p.workers.flatMap Worker.granted

/- The leases that are dropped in the turns of a schedule. -/
def returned (p : Pool) : List Nat → List UInt64
| [] => []
| i :: schedule =>
    (p.workers[i]?.bind Worker.starting?).toList ++
      (p.step i).returned schedule

end Pool

------------------------------------------------------------
-- Turns of Accounts
------------------------------------------------------------

/-
  The counters and an account change alike.  `more` are the
  leases whose return the account has now to count.
-/
structure Account.Turns
    (t : Terms)
    (c c' : Counters)
    (b b' : Account)
    (more : List UInt64) : Prop where
  live : c'.live.toNat + b.owed = c.live.toNat + b'.owed
  limit : t.limit.admits c'.live
  peak : t.limit.admits c'.peak
  allocations :
    ∃ d, c'.allocations = c.allocations + UInt64.ofNat d ∧
      b'.allocations = b.allocations + d
  allocated :
    ∃ d, c'.allocated = c.allocated + UInt64.ofNat d ∧
      b'.allocated = b.allocated + d
  releases :
    ∃ d, c'.releases = c.releases + UInt64.ofNat d ∧
      b'.releases + d = b.releases + more.length
  reclaimed :
    ∃ d, c'.reclaimed = c.reclaimed + UInt64.ofNat d ∧
      b'.reclaimed + d =
        b.reclaimed + (more.map UInt64.toNat).sum

namespace Account

variable {t : Terms}
variable {c c' : Counters}
variable {b b' : Account}
variable {more : List UInt64}

/- Counters that stay, and an account that is worth as much. -/
theorem Turns.of_counters
    (hLimit : t.limit.admits c.live)
    (hPeak : t.limit.admits c.peak)
    (hOwed : b'.owed = b.owed)
    (hAllocations : b'.allocations = b.allocations)
    (hAllocated : b'.allocated = b.allocated)
    (hReleases :
      b'.releases = b.releases + more.length)
    (hReclaimed :
      b'.reclaimed =
        b.reclaimed + (more.map UInt64.toNat).sum) :
    Turns t c c b b' more := by
  refine
    ⟨by rw [hOwed], hLimit, hPeak, ⟨0, ?_⟩, ⟨0, ?_⟩,
      ⟨0, ?_⟩, ⟨0, ?_⟩⟩
  · exact ⟨(UInt64.add_zero _).symm, hAllocations⟩
  · exact ⟨(UInt64.add_zero _).symm, hAllocated⟩
  · exact ⟨(UInt64.add_zero _).symm, hReleases⟩
  · exact ⟨(UInt64.add_zero _).symm, hReclaimed⟩

theorem Turns.refl
    (b : Account)
    (hLimit : t.limit.admits c.live)
    (hPeak : t.limit.admits c.peak) :
    Turns t c c b b [] :=
  .of_counters hLimit hPeak rfl rfl rfl rfl rfl

/- What an operation counts as live is owed. -/
theorem counted_eq
    {op : Atomic}
    (hAllows : b.Allows t op)
    (r : op.Reply) :
    (b.owed : Int) + op.counted r =
      (b.after op r).owed := by
  cases op with
  | addWithin limit n => cases r <;> simp [after, Atomic.counted]
  | giveBack n =>
      have hOwed : n.toNat ≤ b.owed := hAllows
      simp only [after, Atomic.counted]
      omega
  | loadLive => simp [after, Atomic.counted]
  | raisePeak n => simp [after, Atomic.counted]
  | storePeak n => simp [after, Atomic.counted]
  | countAllocation => simp [after, Atomic.counted]
  | countRelease => simp [after, Atomic.counted]
  | addAllocated n => simp [after, Atomic.counted]
  | addReclaimed n => simp [after, Atomic.counted]

/- Bytes that were counted within the limit. -/
private theorem turns_addWithin
    {limit : Limit}
    (n : UInt64)
    (hAllows : limit = t.limit)
    (hLimit : t.limit.admits c.live)
    (hPeak : t.limit.admits c.peak) :
    Turns t c (c.act (.addWithin limit n)).2 b
      (b.after (.addWithin limit n)
        (c.act (.addWithin limit n)).1) [] := by
  have hSame := Turns.refl b hLimit hPeak
  simp only [Counters.act]
  cases hAdd : Word.add? c.live n with
  | none => exact hSame
  | some next =>
      by_cases hAdmits : limit.admits next
      · have hNext := Word.add?_eq_some_iff.mp hAdd
        simp only [hAdmits, if_true]
        refine
          { hSame with
            live := ?_
            limit := hAllows ▸ hAdmits }
        simp only [after]
        omega
      · simp only [hAdmits]
        exact hSame

/- Bytes that were owed and are given back. -/
private theorem turns_giveBack
    {n : UInt64}
    (hAllows : n.toNat ≤ b.owed)
    (hFits : b.Fits t c)
    (hPeak : t.limit.admits c.peak) :
    Turns t c (c.act (.giveBack n)).2 b
      (b.after (.giveBack n) (c.act (.giveBack n)).1)
      [] := by
  have hOwed := hFits.owed
  have hLe : n ≤ c.live := by
    rw [UInt64.le_iff_toNat_le]
    omega
  have hSub := UInt64.toNat_sub_of_le _ _ hLe
  refine
    { Turns.refl b hFits.limit hPeak with
      live := ?_
      limit := ?_ }
  · simp only [Counters.act, after]
    omega
  · have hLess : c.live - n ≤ c.live := by
      rw [UInt64.le_iff_toNat_le]
      omega
    exact t.limit.admits_of_le hLess hFits.limit

/- An operation that the account allows. -/
theorem turns_act
    {op : Atomic}
    (hAllows : b.Allows t op)
    (hFits : b.Fits t c)
    (hPeak : t.limit.admits c.peak) :
    Turns t c (c.act op).2 b (b.after op (c.act op).1)
      [] := by
  have hSame := Turns.refl b hFits.limit hPeak
  cases op with
  | addWithin limit n =>
      exact turns_addWithin n hAllows hFits.limit hPeak
  | giveBack n => exact turns_giveBack hAllows hFits hPeak
  | loadLive => exact hSame
  | raisePeak n =>
      exact
        { hSame with
          peak := t.limit.admits_max hPeak hAllows }
  | storePeak n => exact { hSame with peak := hAllows }
  | countAllocation =>
      exact { hSame with allocations := ⟨1, rfl, rfl⟩ }
  | addAllocated n =>
      refine
        { hSame with allocated := ⟨n.toNat, ?_, rfl⟩ }
      rw [UInt64.ofNat_toNat]
      rfl
  | countRelease =>
      refine { hSame with releases := ⟨1, rfl, ?_⟩ }
      exact Nat.sub_add_cancel hAllows
  | addReclaimed n =>
      refine
        { hSame with reclaimed := ⟨n.toNat, ?_, ?_⟩ }
      · rw [UInt64.ofNat_toNat]
        rfl
      · exact Nat.sub_add_cancel hAllows

end Account

------------------------------------------------------------
-- Turns of Threads
------------------------------------------------------------

namespace Worker

variable {t : Terms}
variable {c : Counters}
variable {th : Worker}
variable {b : Account}

/- A thread is in a call that keeps its account, or in none. -/
def Kept
    (t : Terms)
    (th : Worker)
    (b : Account) : Prop :=
  th.owed = b.owed ∧
    match th.running with
    | none => b = .zero
    | some s => s.Keeps t (fun r b => b = .closing r) b

/- The account of a thread, over all of its calls. -/
def total
    (th : Worker)
    (b : Account) : Account where
  owed := b.owed + th.held
  allocations := b.allocations + th.granted.length
  allocated :=
    b.allocated + (th.granted.map UInt64.toNat).sum
  releases := b.releases
  reclaimed := b.reclaimed

/- What a thread holds and was granted stays in its calls. -/
private theorem turns_total
    {c' : Counters}
    {b' : Account}
    {th' : Worker}
    (hTurns : Account.Turns t c c' b b' [])
    (hLeases : th'.leases = th.leases)
    (hResults : th'.results = th.results) :
    Account.Turns t c c' (th.total b) (th'.total b') [] := by
  have hHeld : th'.held = th.held := by
    unfold held
    rw [hLeases]
  have hGranted : th'.granted = th.granted := by
    unfold granted
    rw [hResults]
  rcases hTurns.allocations with ⟨d, hCount, hNow⟩
  rcases hTurns.allocated with ⟨e, hBytes, hSum⟩
  have hLive := hTurns.live
  refine
    { hTurns with
      live := ?_
      allocations := ⟨d, hCount, ?_⟩
      allocated := ⟨e, hBytes, ?_⟩ }
  · simp only [total, hHeld]
    omega
  · simp only [total, hGranted]
    omega
  · simp only [total, hGranted]
    omega

/- A lease that is to be returned leaves the hand. -/
private theorem sum_eraseIdx
    {leases : List UInt64}
    {k : Nat}
    {bytes : UInt64}
    (hk : leases[k]? = some bytes) :
    bytes.toNat +
        ((leases.eraseIdx k).map UInt64.toNat).sum =
      (leases.map UInt64.toNat).sum := by
  rcases List.getElem?_eq_some_iff.mp hk with ⟨hLt, rfl⟩
  have hPerm := List.getElem_cons_eraseIdx_perm hLt
  have hSum := (hPerm.map UInt64.toNat).sum_eq
  rw [List.map_cons, List.sum_cons] at hSum
  exact hSum

/- The lease that a call is to return leaves the hand. -/
private theorem held_start
    {call : Call}
    {calls : List Call}
    (hCalls : th.calls = call :: calls) :
    (Account.opening (call.returned? th.leases)).owed +
        (th.start t).held =
      th.held := by
  simp only [start, hCalls, held]
  cases call with
  | drop k =>
      simp only [Call.returned?]
      cases hk : th.leases[k]? with
      | none =>
          have hOut := List.getElem?_eq_none_iff.mp hk
          rw [List.eraseIdx_of_length_le hOut]
          exact Nat.zero_add _
      | some bytes => exact sum_eraseIdx hk
  | allocate size => exact Nat.zero_add _
  | array width hint count => exact Nat.zero_add _
  | resetPeak => exact Nat.zero_add _

/- A call starts with the lease that it is to return. -/
private theorem Kept.start
    (hKept : th.Kept t b)
    (hIdle : th.running = none)
    (hLimit : t.limit.admits c.live)
    (hPeak : t.limit.admits c.peak) :
    ∃ b', (th.start t).Kept t b' ∧
      Account.Turns t c c (th.total b)
        ((th.start t).total b') th.starting?.toList := by
  have hZero : b = .zero := by
    have hRunning := hKept.2
    rw [hIdle] at hRunning
    exact hRunning
  subst hZero
  cases hCalls : th.calls with
  | nil =>
      have hNone : th.starting? = none := by
        simp [starting?, hIdle, hCalls]
      refine ⟨.zero, ?_, ?_⟩
      · simpa [start, hCalls] using hKept
      · rw [hNone]
        simp only [start, hCalls]
        exact .refl _ hLimit hPeak
  | cons call calls =>
      have hStarting :
          th.starting? = call.returned? th.leases := by
        simp [starting?, hIdle, hCalls]
      have hGranted : (th.start t).granted = th.granted := by
        simp only [start, hCalls, granted]
      refine ⟨.opening (call.returned? th.leases), ?_, ?_⟩
      · constructor
        · simp only [start, hCalls]
          cases call.returned? th.leases with
          | none => rfl
          | some bytes => rfl
        · simp only [start, hCalls]
          exact call.keeps_steps t th.leases
      · rw [hStarting]
        refine .of_counters hLimit hPeak ?_ ?_ ?_ ?_ ?_
        · have hHeld := held_start (t := t) hCalls
          simp only [total, Account.zero, Nat.zero_add]
          exact hHeld
        · simp only [total, hGranted,
            Account.allocations_opening]
          rfl
        · simp only [total, hGranted,
            Account.allocated_opening]
          rfl
        · simp only [total, Account.releases_opening]
          exact (Nat.zero_add _).symm
        · simp only [total, Account.reclaimed_opening]
          exact (Nat.zero_add _).symm

/- A call ends with the lease that it came to. -/
private theorem Kept.finish
    {r : CallResult}
    (hKept : th.Kept t b)
    (hDone : th.running = some (.done r))
    (hLimit : t.limit.admits c.live)
    (hPeak : t.limit.admits c.peak) :
    (th.finish r).Kept t .zero ∧
      Account.Turns t c c (th.total b)
        ((th.finish r).total .zero) [] := by
  have hClosing : b = .closing r := by
    have hRunning := hKept.2
    rw [hDone] at hRunning
    exact hRunning
  subst hClosing
  refine ⟨⟨rfl, rfl⟩, ?_⟩
  cases r with
  | leased bytes =>
      refine .of_counters hLimit hPeak ?_ ?_ ?_ rfl rfl
      · simp [total, held, Worker.finish, Account.closing,
          CallResult.leased?, Account.zero]
        omega
      · simp [total, granted, Worker.finish,
          Account.closing, CallResult.leased?, Account.zero]
        omega
      · simp [total, granted, Worker.finish,
          Account.closing, CallResult.leased?, Account.zero]
  | refused refusal => exact .refl _ hLimit hPeak
  | settled => exact .refl _ hLimit hPeak

/- One turn of a thread changes its account as it should. -/
theorem Kept.step
    (hKept : th.Kept t b)
    (hFits : b.Fits t c)
    (hPeak : t.limit.admits c.peak) :
    ∃ b', (th.step t c).2.Kept t b' ∧
      Account.Turns t c (th.step t c).1 (th.total b)
        ((th.step t c).2.total b')
        th.starting?.toList := by
  have hBusy :
      ∀ {s}, th.running = some s → th.starting? = none := by
    intro s hSome
    simp [starting?, hSome]
  cases hRunning : th.running with
  | none =>
      have hStep : th.step t c = (c, th.start t) := by
        simp [Worker.step, hRunning]
      rw [hStep]
      exact hKept.start hRunning hFits.limit hPeak
  | some s =>
      rw [hBusy hRunning]
      have hCall := hKept.2
      rw [hRunning] at hCall
      cases s with
      | done r =>
          have hStep : th.step t c = (c, th.finish r) := by
            simp [Worker.step, hRunning]
          rw [hStep]
          exact
            ⟨.zero,
              hKept.finish hRunning hFits.limit hPeak⟩
      | note n rest =>
          have hStep :
              th.step t c =
                (c, { th with running := some rest }) := by
            simp [Worker.step, hRunning]
          rw [hStep]
          refine ⟨b, ⟨hKept.1, hCall⟩, ?_⟩
          exact
            turns_total (.refl b hFits.limit hPeak) rfl rfl
      | act op rest =>
          have hStep :
              th.step t c =
                ((c.act op).2,
                  { th with
                    running := some (rest (c.act op).1)
                    owed :=
                      th.owed +
                        op.counted (c.act op).1 }) := by
            simp [Worker.step, hRunning]
          rw [hStep]
          have hTurns :=
            Account.turns_act hCall.1 hFits hPeak
          refine
            ⟨b.after op (c.act op).1, ⟨?_, ?_⟩,
              turns_total hTurns rfl rfl⟩
          · simp only [hKept.1]
            exact
              Account.counted_eq hCall.1 (c.act op).1
          · exact hCall.2 c hFits

end Worker

------------------------------------------------------------
-- Turns of Pools
------------------------------------------------------------

/- One of some numbers is replaced. -/
theorem sum_map_set
    {α : Type}
    (f : α → Nat)
    {l : List α}
    {i : Nat}
    {a : α}
    (hi : l[i]? = some a)
    (b : α) :
    ((l.set i b).map f).sum + f a =
      (l.map f).sum + f b := by
  rcases List.getElem?_eq_some_iff.mp hi with ⟨hLt, rfl⟩
  have hNew :=
    ((List.set_perm_cons_eraseIdx hLt b).map f).sum_eq
  have hOld :=
    ((List.getElem_cons_eraseIdx_perm hLt).map f).sum_eq
  rw [List.map_cons, List.sum_cons] at hNew hOld
  omega

namespace Pool

/-
  Every thread keeps an account, and the counters are what
  the accounts come to.  `returned` are the leases dropped so
  far; accounts tell which of them are yet to be counted.
-/
structure Kept
    (p : Pool)
    (ws : List (Worker × Account))
    (returned : List UInt64) : Prop where
  workers : p.workers = ws.map Prod.fst
  kept : ∀ x ∈ ws, x.1.Kept p.terms x.2
  live :
    p.counters.live.toNat =
      (ws.map (fun x => (x.1.total x.2).owed)).sum
  limit : p.terms.limit.admits p.counters.live
  peak : p.terms.limit.admits p.counters.peak
  allocations :
    p.counters.allocations =
      UInt64.ofNat
        (ws.map (fun x => (x.1.total x.2).allocations)).sum
  allocated :
    p.counters.allocated =
      UInt64.ofNat
        (ws.map (fun x => (x.1.total x.2).allocated)).sum
  releases :
    ∃ n, p.counters.releases = UInt64.ofNat n ∧
      n + (ws.map (fun x => (x.1.total x.2).releases)).sum =
        returned.length
  reclaimed :
    ∃ n, p.counters.reclaimed = UInt64.ofNat n ∧
      n +
          (ws.map (fun x => (x.1.total x.2).reclaimed)).sum =
        (returned.map UInt64.toNat).sum

variable {p : Pool}
variable {ws : List (Worker × Account)}
variable {returned : List UInt64}

/- At the start nobody has done anything. -/
theorem kept_ofCalls
    (t : Terms)
    (calls : List (List Call)) :
    (ofCalls t calls).Kept
      (calls.map (fun cs => (Worker.ofCalls cs, .zero)))
      [] := by
  have hZero :
      ∀ f : Worker × Account → Nat,
        (∀ cs, f (Worker.ofCalls cs, .zero) = 0) →
          ((calls.map
            (fun cs => (Worker.ofCalls cs, Account.zero))).map
              f).sum = 0 := by
    intro f hf
    rw [List.map_map]
    exact List.sum_eq_zero (by simp [hf])
  refine ⟨?_, ?_, ?_, ?_, ?_, ?_, ?_, ⟨0, rfl, ?_⟩,
    ⟨0, rfl, ?_⟩⟩
  · simp [ofCalls]
  · intro x hx
    rcases List.mem_map.mp hx with ⟨cs, _, rfl⟩
    exact ⟨rfl, rfl⟩
  · rw [hZero _ (fun _ => rfl)]
    rfl
  · exact Limit.admits_zero
  · exact Limit.admits_zero
  · rw [hZero _ (fun _ => rfl)]
    rfl
  · rw [hZero _ (fun _ => rfl)]
    rfl
  · rw [hZero _ (fun _ => rfl)]
    rfl
  · rw [hZero _ (fun _ => rfl)]
    rfl

/- What a thread owes is live. -/
theorem Kept.fits
    (hKept : p.Kept ws returned)
    {x : Worker × Account}
    (hx : x ∈ ws) :
    x.2.Fits p.terms p.counters := by
  refine ⟨hKept.limit, ?_⟩
  have hLe :
      (x.1.total x.2).owed ≤
        (ws.map (fun x => (x.1.total x.2).owed)).sum :=
    List.single_le_sum (by simp) _
      (List.mem_map_of_mem hx)
  rw [← hKept.live] at hLe
  simp only [Worker.total] at hLe
  omega

/- The account of one thread and the counters change alike. -/
private theorem Kept.turn
    (hKept : p.Kept ws returned)
    {i : Nat}
    {th th' : Worker}
    {b b' : Account}
    {c' : Counters}
    {more : List UInt64}
    (hi : ws[i]? = some (th, b))
    (hNext : th'.Kept p.terms b')
    (hTurns :
      Account.Turns p.terms p.counters c' (th.total b)
        (th'.total b') more) :
    ({ p with
        counters := c'
        workers := p.workers.set i th' }).Kept
      (ws.set i (th', b')) (returned ++ more) := by
  have hSet :=
    fun f : Worker × Account → Nat =>
      sum_map_set f hi (th', b')
  refine ⟨?_, ?_, ?_, hTurns.limit, hTurns.peak, ?_, ?_,
    ?_, ?_⟩
  · rw [List.map_set, hKept.workers]
  · intro x hx
    rcases List.mem_or_eq_of_mem_set hx with hOld | rfl
    · exact hKept.kept x hOld
    · exact hNext
  · have hSum := hSet (fun x => (x.1.total x.2).owed)
    have hLive := hTurns.live
    have hBefore := hKept.live
    simp only at hSum ⊢
    omega
  · rcases hTurns.allocations with ⟨d, hCount, hNow⟩
    have hSum := hSet (fun x => (x.1.total x.2).allocations)
    simp only at hSum ⊢
    rw [hCount, hKept.allocations, ← UInt64.ofNat_add]
    congr 1
    omega
  · rcases hTurns.allocated with ⟨d, hCount, hNow⟩
    have hSum := hSet (fun x => (x.1.total x.2).allocated)
    simp only at hSum ⊢
    rw [hCount, hKept.allocated, ← UInt64.ofNat_add]
    congr 1
    omega
  · rcases hTurns.releases with ⟨d, hCount, hNow⟩
    rcases hKept.releases with ⟨n, hBefore, hTold⟩
    have hSum := hSet (fun x => (x.1.total x.2).releases)
    refine ⟨n + d, ?_, ?_⟩
    · rw [hCount, hBefore, UInt64.ofNat_add]
    · rw [List.length_append]
      simp only at hSum ⊢
      omega
  · rcases hTurns.reclaimed with ⟨d, hCount, hNow⟩
    rcases hKept.reclaimed with ⟨n, hBefore, hTold⟩
    have hSum := hSet (fun x => (x.1.total x.2).reclaimed)
    refine ⟨n + d, ?_, ?_⟩
    · rw [hCount, hBefore, UInt64.ofNat_add]
    · rw [List.map_append, List.sum_append]
      simp only at hSum ⊢
      omega

/- Every turn of every thread keeps the accounts. -/
theorem Kept.step
    (hKept : p.Kept ws returned)
    (i : Nat) :
    ∃ ws', (p.step i).Kept ws'
      (returned ++
        (p.workers[i]?.bind
          Worker.starting?).toList) := by
  cases hi : ws[i]? with
  | none =>
      have hNone : p.workers[i]? = none := by
        rw [hKept.workers, List.getElem?_map, hi]
        rfl
      refine ⟨ws, ?_⟩
      simpa [Pool.step, hNone] using hKept
  | some x =>
      rcases x with ⟨th, b⟩
      have hMem := List.mem_of_getElem? hi
      have hThread : p.workers[i]? = some th := by
        rw [hKept.workers, List.getElem?_map, hi]
        rfl
      rcases (hKept.kept _ hMem).step (hKept.fits hMem)
          hKept.peak with
        ⟨b', hNext, hTurns⟩
      refine
        ⟨ws.set i ((th.step p.terms p.counters).2, b'), ?_⟩
      simp only [Pool.step, hThread, Option.bind_some]
      exact hKept.turn hi hNext hTurns

/- Every schedule keeps the accounts. -/
theorem Kept.run
    (hKept : p.Kept ws returned)
    (schedule : List Nat) :
    ∃ ws', (p.run schedule).Kept ws'
      (returned ++ p.returned schedule) := by
  induction schedule generalizing p ws returned with
  | nil =>
      refine ⟨ws, ?_⟩
      simpa [Pool.run, Pool.returned] using hKept
  | cons i schedule ih =>
      rcases hKept.step i with ⟨ws', hStep⟩
      rcases ih hStep with ⟨ws'', hRun⟩
      refine ⟨ws'', ?_⟩
      rw [List.append_assoc] at hRun
      exact hRun

------------------------------------------------------------
-- Sound Pools
------------------------------------------------------------

/-
  What holds at every moment of every schedule.  Bytes owed
  are those that a running call has reserved, or was leased
  and has not handed over, or is to return and has not yet
  subtracted.
-/
structure Sound
    (p : Pool)
    (returned : List UInt64) : Prop where
  owed : ∀ th ∈ p.workers, 0 ≤ th.owed
  live :
    p.counters.live.toNat =
      (p.workers.map
        (fun th => th.owed.toNat + th.held)).sum
  limit : p.terms.limit.admits p.counters.live
  peak : p.terms.limit.admits p.counters.peak
  subtracts :
    ∀ th ∈ p.workers, ∀ n rest,
      th.running = some (.act (.giveBack n) rest) →
        n ≤ p.counters.live ∧
          (Word.satSub p.counters.live n).toNat + n.toNat =
            p.counters.live.toNat
  adds :
    ∀ th ∈ p.workers, ∀ limit n rest before,
      th.running = some (.act (.addWithin limit n) rest) →
        (p.counters.act (.addWithin limit n)).1 =
            some before →
          (Word.satAdd before n).toNat =
            before.toNat + n.toNat
  idle :
    p.isIdle →
      p.counters.allocations =
          UInt64.ofNat p.granted.length ∧
        p.counters.allocated =
          UInt64.ofNat (p.granted.map UInt64.toNat).sum ∧
        p.counters.releases =
          UInt64.ofNat returned.length ∧
        p.counters.reclaimed =
          UInt64.ofNat (returned.map UInt64.toNat).sum

/- Threads have accounts. -/
private theorem Kept.exists_account
    (hKept : p.Kept ws returned)
    {th : Worker}
    (hMem : th ∈ p.workers) :
    ∃ b, (th, b) ∈ ws ∧ th.Kept p.terms b := by
  rw [hKept.workers] at hMem
  rcases List.mem_map.mp hMem with ⟨⟨_, b⟩, hx, rfl⟩
  exact ⟨b, hx, hKept.kept _ hx⟩

/- Threads that are in no call have counted what they got. -/
private theorem Kept.sum_of_idle
    (hKept : p.Kept ws returned)
    (hIdle : p.isIdle)
    {f : Worker × Account → Nat}
    {g : Worker → Nat}
    (hZero : ∀ th, f (th, .zero) = g th) :
    (ws.map f).sum = (p.workers.map g).sum := by
  rw [hKept.workers, List.map_map]
  congr 1
  apply List.map_congr_left
  rintro ⟨th, b⟩ hx
  have hMem : th ∈ p.workers := by
    rw [hKept.workers]
    exact List.mem_map_of_mem hx
  have hNone : th.running = none := by
    have hAll := List.all_eq_true.mp hIdle th hMem
    simpa [Worker.isIdle] using hAll
  have hAccount := (hKept.kept _ hx).2
  simp only [hNone] at hAccount
  subst hAccount
  exact hZero th

/- Pools whose accounts are kept are sound. -/
theorem Kept.sound
    (hKept : p.Kept ws returned) :
    p.Sound returned := by
  refine
    ⟨?_, ?_, hKept.limit, hKept.peak, ?_, ?_, ?_⟩
  · intro th hMem
    rcases hKept.exists_account hMem with ⟨b, _, hOwed, _⟩
    omega
  · rw [hKept.live, hKept.workers, List.map_map]
    congr 1
    apply List.map_congr_left
    rintro ⟨th, b⟩ hx
    have hOwed := (hKept.kept _ hx).1
    simp only [Function.comp_apply, Worker.total] at hOwed ⊢
    omega
  · intro th hMem n rest hNext
    rcases hKept.exists_account hMem with
      ⟨b, hx, _, hCall⟩
    rw [hNext] at hCall
    have hOwed : n.toNat ≤ b.owed := hCall.1
    have hFits : b.owed ≤ p.counters.live.toNat :=
      (hKept.fits hx).owed
    have hLe : n ≤ p.counters.live := by
      rw [UInt64.le_iff_toNat_le]
      exact Nat.le_trans hOwed hFits
    refine ⟨hLe, ?_⟩
    rw [Word.satSub, if_pos hLe,
      UInt64.toNat_sub_of_le _ _ hLe]
    omega
  · intro th _ limit n rest before _ hGranted
    simp only [Counters.act] at hGranted
    cases hAdd : Word.add? p.counters.live n with
    | none =>
        rw [hAdd] at hGranted
        cases hGranted
    | some next =>
        simp only [hAdd] at hGranted
        split at hGranted
        · cases hGranted
          rw [Word.satAdd, hAdd]
          exact Word.add?_eq_some_iff.mp hAdd
        · cases hGranted
  · intro hIdle
    rcases hKept.releases with ⟨n, hReleases, hTold⟩
    rcases hKept.reclaimed with ⟨k, hReclaimed, hBytes⟩
    refine ⟨?_, ?_, ?_, ?_⟩
    · rw [hKept.allocations, granted, List.length_flatMap]
      congr 1
      refine hKept.sum_of_idle hIdle (fun th => ?_)
      simp [Worker.total, Account.zero]
    · rw [hKept.allocated, granted, List.map_flatMap,
        List.flatMap_def, List.sum_flatten, List.map_map]
      congr 1
      refine hKept.sum_of_idle hIdle (fun th => ?_)
      simp [Worker.total, Account.zero]
    · rw [hReleases, ← hTold,
        hKept.sum_of_idle hIdle (g := fun _ => 0)
          (fun _ => rfl)]
      simp
    · rw [hReclaimed, ← hBytes,
        hKept.sum_of_idle hIdle (g := fun _ => 0)
          (fun _ => rfl)]
      simp

/-
  However threads take turns, at every moment the live bytes
  are what is owed and what is held, no operation on them
  wraps or saturates, the limit is kept, and no count is
  lost.
-/
theorem sound_of_schedule
    (t : Terms)
    (calls : List (List Call))
    (schedule : List Nat) :
    ((ofCalls t calls).run schedule).Sound
      ((ofCalls t calls).returned schedule) := by
  rcases (kept_ofCalls t calls).run schedule with ⟨ws, hRun⟩
  exact hRun.sound

end Pool

end LeasedHeap
