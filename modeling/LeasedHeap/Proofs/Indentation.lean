import LeasedHeap.Proofs.Texts

/-
  Indentation follows the brackets.

  A cursor that moves over a text knows how many brackets are
  open, and stops at a line that does not begin with four
  blanks for each.  Over an indented text it moves from the
  first letter to the last: what is written for a tree leaves
  as many brackets open as it found, and these are as many as
  the level at which the tree is written.

  Main declarations:
    * `Indented`
    * `Cursor.scan`
    * `Tree.scan_indented`
    * `Tree.whole_indented`
    * `Tree.isIndented`
-/

namespace LeasedHeap

------------------------------------------------------------
-- Indented Texts
------------------------------------------------------------

/- A letter that opens a bracket. -/
def isOpening (c : Char) : Bool :=
  c == '(' || c == '[' || c == '\x7b'

/- A letter that closes a bracket. -/
def isClosing (c : Char) : Bool :=
  c == ')' || c == ']' || c == '\x7d'

/- The blanks that come first. -/
def blanks (cs : List Char) : Nat :=
  (cs.takeWhile (fun c => c == ' ')).length

/- One if a bracket is closed behind the first blanks. -/
def closesFirst (cs : List Char) : Nat :=
  if ((cs.dropWhile (fun c => c == ' ')).head?).any
      isClosing then
    1
  else
    0

/-
  A line is indented by four blanks for each bracket that is
  open at its start, but for one that it closes first.  What
  is empty and what is a number stays on one line.
-/
structure Indented (text : List Char) : Prop where
  lines :
    ∀ before after,
      text = before ++ after →
        before = [] ∨ before.getLast? = some '\n' →
          blanks after +
              4 * (before.countP isClosing +
                closesFirst after) =
            4 * before.countP isOpening
  empties :
    ∀ before c after,
      text = before ++ c :: '\n' :: after →
        isOpening c = true → closesFirst after = 0
  numbers :
    ∀ before after,
      text =
          before ++
            ['I', 'n', 't', 'e', 'g', 'e', 'r', '('] ++
            after →
        ∃ i rest, after = Tree.number i ++ ')' :: rest

------------------------------------------------------------
-- Cursors
------------------------------------------------------------

/-
  A place in a text: the brackets that are open, the blanks
  so far if only blanks are before it in its line, and whether
  a bracket was the last thing and was opened.
-/
structure Cursor where
  opened : Nat
  margin : Option Nat
  fresh : Bool

namespace Cursor

variable {s s' : Cursor}
variable {c : Char}
variable {cs : List Char}

/- Go past a letter within a line. -/
def past (s : Cursor) (c : Char) : Cursor :=
  ⟨if isOpening c then s.opened + 1
    else if isClosing c then s.opened - 1
    else s.opened,
    none, isOpening c⟩

/- A letter may come after so many blanks. -/
def Fits (s : Cursor) (k : Nat) (c : Char) : Prop :=
  if isClosing c then
    k + 4 = 4 * s.opened ∧ s.fresh = false
  else
    k = 4 * s.opened ∧ c ≠ '\n'

instance
    (s : Cursor)
    (k : Nat)
    (c : Char) : Decidable (s.Fits k c) := by
  unfold Fits
  infer_instance

/- Move over one letter. -/
def step (s : Cursor) (c : Char) : Option Cursor :=
  match s.margin with
  | some k =>
      if c = ' ' then some { s with margin := some (k + 1) }
      else if s.Fits k c then some (s.past c)
      else none
  | none =>
      if c = '\n' then some { s with margin := some 0 }
      else if isClosing c ∧ s.opened = 0 then none
      else some (s.past c)

/- Move over some letters. -/
def scan (s : Cursor) : List Char → Option Cursor
| [] => some s
| c :: cs => (s.step c).bind (fun s => s.scan cs)

theorem scan_append
    (s : Cursor)
    (cs ds : List Char) :
    s.scan (cs ++ ds) =
      (s.scan cs).bind (fun s => s.scan ds) := by
  induction cs generalizing s with
  | nil => rfl
  | cons c cs ih =>
      rw [List.cons_append, scan, scan, Option.bind_assoc]
      exact Option.bind_congr fun next _ => ih next

/- What is scanned can be left behind. -/
theorem scan_append_of
    (hScan : s.scan cs = some s')
    (ds : List Char) :
    s.scan (cs ++ ds) = s'.scan ds := by
  rw [scan_append, hScan, Option.bind_some]

/- A scan stops at any place in between. -/
theorem exists_scan_of_append
    {ds : List Char}
    (hScan : s.scan (cs ++ ds) = some s') :
    ∃ next,
      s.scan cs = some next ∧ next.scan ds = some s' := by
  rw [scan_append] at hScan
  exact Option.bind_eq_some_iff.mp hScan

/- No letter both opens and closes. -/
theorem not_isClosing
    (hOpening : isOpening c = true) :
    isClosing c = false := by
  simp only [isOpening, Bool.or_eq_true, beq_iff_eq]
    at hOpening
  rcases hOpening with (rfl | rfl) | rfl <;> rfl

/- A bracket that was opened is the last thing. -/
theorem step_opening
    (hStep : s.step c = some s')
    (hOpening : isOpening c = true) :
    s'.margin = none ∧ s'.fresh = true := by
  have hLetter : c ≠ ' ' ∧ c ≠ '\n' := by
    constructor <;>
      · rintro rfl
        cases hOpening
  unfold step at hStep
  split at hStep
  · rw [if_neg hLetter.1] at hStep
    split at hStep
    · cases hStep
      exact ⟨rfl, hOpening⟩
    · cases hStep
  · rw [if_neg hLetter.2] at hStep
    split at hStep
    · cases hStep
    · cases hStep
      exact ⟨rfl, hOpening⟩

/- Brackets are counted as they are opened and closed. -/
theorem opened_step
    (hStep : s.step c = some s') :
    s'.opened + [c].countP isClosing =
      s.opened + [c].countP isOpening := by
  have hPast :
      (isClosing c = true → 0 < s.opened) →
        (s.past c).opened + [c].countP isClosing =
          s.opened + [c].countP isOpening := by
    intro hOpen
    by_cases hOpening : isOpening c = true
    · simp [past, hOpening, not_isClosing hOpening]
    · by_cases hClosing : isClosing c = true
      · have hSome := hOpen hClosing
        simp [past, hOpening, hClosing]
        omega
      · simp [past, hOpening, hClosing]
  unfold step at hStep
  split at hStep
  · rename_i k hMargin
    split at hStep
    · rename_i hBlank
      cases hStep
      subst hBlank
      rfl
    · split at hStep
      · rename_i hFits
        cases hStep
        refine hPast fun hClosing => ?_
        rw [Fits, if_pos hClosing] at hFits
        omega
      · cases hStep
  · split at hStep
    · rename_i hNewline
      cases hStep
      subst hNewline
      rfl
    · split at hStep
      · cases hStep
      · rename_i hNot
        cases hStep
        exact
          hPast fun hClosing =>
            Nat.pos_of_ne_zero fun hZero =>
              hNot ⟨hClosing, hZero⟩

theorem opened_scan
    (hScan : s.scan cs = some s') :
    s'.opened + cs.countP isClosing =
      s.opened + cs.countP isOpening := by
  induction cs generalizing s with
  | nil =>
      cases hScan
      rfl
  | cons c cs ih =>
      rcases Option.bind_eq_some_iff.mp hScan with
        ⟨next, hStep, hRest⟩
      have hFirst := opened_step hStep
      have hLater := ih hRest
      rw [← List.singleton_append, List.countP_append,
        List.countP_append]
      omega

/- A new line begins without blanks. -/
theorem margin_of_newline
    (hScan : s.scan (cs ++ ['\n']) = some s') :
    s'.margin = some 0 := by
  rcases exists_scan_of_append hScan with ⟨next, _, hLast⟩
  rcases Option.bind_eq_some_iff.mp hLast with
    ⟨last, hStep, hEnd⟩
  cases hEnd
  unfold step at hStep
  split at hStep
  · simp [Fits, isClosing] at hStep
  · cases hStep
    rfl

/-
  A line has the blanks that its brackets ask for, and does
  not close what the line before has just opened.
-/
theorem blanks_of_scan
    {k : Nat}
    (hScan : s.scan cs = some s')
    (hMargin : s.margin = some k)
    (hEnd : s'.margin = none) :
    k + blanks cs + 4 * closesFirst cs = 4 * s.opened ∧
      (s.fresh = true → closesFirst cs = 0) := by
  induction cs generalizing s k with
  | nil =>
      cases hScan
      rw [hMargin] at hEnd
      cases hEnd
  | cons c cs ih =>
      rcases Option.bind_eq_some_iff.mp hScan with
        ⟨next, hStep, hRest⟩
      simp only [step, hMargin] at hStep
      split at hStep
      · rename_i hBlank
        subst hBlank
        cases hStep
        have hLater := ih hRest rfl
        have hBlanks : blanks (' ' :: cs) = blanks cs + 1 :=
          rfl
        have hCloses :
            closesFirst (' ' :: cs) = closesFirst cs :=
          rfl
        rw [hBlanks, hCloses]
        refine ⟨?_, hLater.2⟩
        rw [← hLater.1]
        omega
      · rename_i hBlank
        have hBlanks : blanks (c :: cs) = 0 := by
          simp [blanks, hBlank]
        have hCloses :
            closesFirst (c :: cs) =
              if isClosing c then 1 else 0 := by
          simp [closesFirst, hBlank]
        rw [hBlanks, hCloses]
        split at hStep
        · rename_i hFits
          unfold Fits at hFits
          by_cases hClosing : isClosing c = true
          · rw [if_pos hClosing] at hFits ⊢
            refine ⟨by omega, ?_⟩
            rw [hFits.2]
            exact fun hFresh => absurd hFresh (by decide)
          · rw [if_neg hClosing] at hFits ⊢
            exact ⟨by omega, fun _ => rfl⟩
        · cases hStep

end Cursor

------------------------------------------------------------
-- Trees on the Way
------------------------------------------------------------

namespace Cursor

/- A tree may be written at a level. -/
def Ready (s : Cursor) (level : Nat) : Prop :=
  s.opened = level ∧
    (s.margin = none ∨ s.margin = some (4 * level))

variable {s : Cursor}
variable {level : Nat}

/- Letters that are no brackets leave the brackets alone. -/
theorem exists_scan_plain
    {cs : List Char}
    (hPlain :
      ∀ c ∈ cs, c ≠ '\n' ∧ isOpening c = false ∧
        isClosing c = false)
    (level : Nat)
    (fresh : Bool) :
    ∃ fresh',
      (Cursor.mk level none fresh).scan cs =
        some ⟨level, none, fresh'⟩ := by
  induction cs generalizing fresh with
  | nil => exact ⟨fresh, rfl⟩
  | cons c cs ih =>
      rcases hPlain c List.mem_cons_self with
        ⟨hNewline, hOpening, hClosing⟩
      rcases ih
          (fun d hd => hPlain d (List.mem_cons_of_mem _ hd))
          false with
        ⟨fresh', hScan⟩
      refine ⟨fresh', ?_⟩
      simpa [scan, step, past, hNewline, hOpening, hClosing]
        using hScan

theorem scan_margin
    (opened level : Nat)
    (fresh : Bool) :
    (Cursor.mk opened (some 0) fresh).scan
        (Tree.margin level) =
      some ⟨opened, some (4 * level), fresh⟩ := by
  have hBlanks :
      ∀ n k,
        (Cursor.mk opened (some k) fresh).scan
            (List.replicate n ' ') =
          some ⟨opened, some (k + n), fresh⟩ := by
    intro n
    induction n with
    | zero => exact fun k => rfl
    | succ n ih =>
        intro k
        rw [List.replicate_succ, scan]
        simp only [step, if_true, Option.bind_some, ih]
        rw [Nat.add_right_comm, Nat.add_assoc]
  rw [Tree.margin, hBlanks, Nat.zero_add]

/- A closing bracket has the margin of the level outside. -/
theorem scan_margin_close
    (level : Nat)
    {c : Char}
    (hClosing : isClosing c = true)
    (hBlank : c ≠ ' ') :
    (Cursor.mk (level + 1) (some 0) false).scan
        (Tree.margin level ++ [c]) =
      some ⟨level, none, isOpening c⟩ := by
  have hFits :
      (Cursor.mk (level + 1) (some (4 * level)) false).Fits
        (4 * level) c := by
    rw [Fits, if_pos hClosing]
    exact ⟨rfl, rfl⟩
  have hOpening : isOpening c = false := by
    cases hOpen : isOpening c with
    | false => rfl
    | true => rw [not_isClosing hOpen] at hClosing; cases hClosing
  rw [scan_append_of (scan_margin _ _ _)]
  simp [scan, step, past, hBlank, hFits, hClosing, hOpening]

/- Digits and their sign are no brackets. -/
theorem number_plain
    (i : Int64) :
    ∀ c ∈ Tree.number i,
      c ≠ '\n' ∧ isOpening c = false ∧
        isClosing c = false := by
  intro c hc
  have hNe :
      ∀ d : Char, d ≠ '-' → d.isDigit = false → c ≠ d := by
    rintro d hSign hDigit rfl
    exact Tree.not_mem_number hSign hDigit i hc
  refine ⟨hNe _ (by decide) (by decide), ?_, ?_⟩
  · simp [isOpening, hNe '(' (by decide) (by decide),
      hNe '[' (by decide) (by decide),
      hNe '\x7b' (by decide) (by decide)]
  · simp [isClosing, hNe ')' (by decide) (by decide),
      hNe ']' (by decide) (by decide),
      hNe '\x7d' (by decide) (by decide)]

/-
  Where a tree may be written, it does not matter whether it
  begins the line.
-/
theorem scan_ready
    {c : Char}
    (hReady : s.Ready level)
    (hFirst : c ≠ ' ' ∧ c ≠ '\n' ∧ isClosing c = false)
    (cs : List Char) :
    s.scan (c :: cs) =
      (Cursor.mk level none false).scan (c :: cs) := by
  rcases hReady with ⟨rfl, hMargin⟩
  rcases hFirst with ⟨hBlank, hNewline, hClosing⟩
  rcases hMargin with hMargin | hMargin <;>
    simp [scan, step, past, Fits, hMargin, hBlank, hNewline,
      hClosing]

theorem ready_line
    (level : Nat)
    (fresh : Bool) :
    (Cursor.mk level (some (4 * level)) fresh).Ready level :=
  ⟨rfl, Or.inr rfl⟩

theorem ready_within
    (level : Nat)
    (fresh : Bool) :
    (Cursor.mk level none fresh).Ready level :=
  ⟨rfl, Or.inl rfl⟩

theorem scan_integer
    (hReady : s.Ready level)
    (i : Int64) :
    s.scan (Tree.integerText i) =
      some ⟨level, none, false⟩ := by
  rcases exists_scan_plain (number_plain i)
      (level + 1) true with
    ⟨fresh, hNumber⟩
  have hMark :
      s.scan ['I', 'n', 't', 'e', 'g', 'e', 'r', '('] =
        some ⟨level + 1, none, true⟩ :=
    (scan_ready hReady (by decide) _).trans rfl
  rw [Tree.integerText, scan_append_of hMark,
    scan_append_of hNumber]
  rfl

/- What opens a bracket and ends the line. -/
theorem scan_list
    (hReady : s.Ready level) :
    s.scan ['L', 'i', 's', 't', '(', '\n'] =
      some ⟨level + 1, some 0, true⟩ :=
  (scan_ready hReady (by decide) _).trans rfl

theorem scan_closure
    (hReady : s.Ready level) :
    s.scan
        ['C', 'l', 'o', 's', 'u', 'r', 'e', ' ', '\x7b',
          '\n'] =
      some ⟨level + 1, some 0, true⟩ :=
  (scan_ready hReady (by decide) _).trans rfl

theorem scan_bracket
    (hReady : s.Ready level) :
    s.scan ['[', '\n'] =
      some ⟨level + 1, some 0, true⟩ :=
  (scan_ready hReady (by decide) _).trans rfl

/- Brackets with nothing in between stay in the line. -/
theorem scan_empty
    (hReady : s.Ready level) :
    s.scan ['[', ']'] = some ⟨level, none, false⟩ :=
  (scan_ready hReady (by decide) _).trans rfl

/- The fields of a closure. -/
theorem scan_env
    (hReady : s.Ready level) :
    s.scan ['e', 'n', 'v', ':', ' '] =
      some ⟨level, none, false⟩ :=
  (scan_ready hReady (by decide) _).trans rfl

theorem scan_code
    (hReady : s.Ready level) :
    s.scan
        ['c', 'o', 'd', 'e', ':', ' ', '<', 'c', 'o', 'd',
          'e', ' ', '*', '>', ',', '\n'] =
      some ⟨level, some 0, false⟩ :=
  (scan_ready hReady (by decide) _).trans rfl

/- What ends the line of an item. -/
theorem scan_comma
    (hReady : s.Ready level) :
    s.scan [',', '\n'] = some ⟨level, some 0, false⟩ :=
  (scan_ready hReady (by decide) _).trans rfl

end Cursor

namespace Tree

open Cursor

mutual

/-
  What is written for a tree leaves the brackets as it finds
  them, and ends within a line.  The induction is on the tree;
  the level grows with the brackets.
-/
theorem scan_indented :
    ∀ (t : Tree) {s : Cursor} {level : Nat},
      s.Ready level →
        s.scan (t.indented level) =
          some ⟨level, none, false⟩
| .integer i, s, level, hReady => scan_integer hReady i
| .list ts, s, level, hReady => by
    rw [indented, scan_append_of (scan_list hReady),
      scan_append_of (scan_margin _ _ _),
      scan_append_of (scan_column ts (ready_line _ _)),
      scan_append_of (scan_comma (ready_within _ _))]
    exact scan_margin_close level rfl (by decide)
| .closure ts q, s, level, hReady => by
    rw [indented, scan_append_of (scan_closure hReady),
      scan_append_of (scan_margin _ _ _),
      scan_append_of (scan_env (ready_line _ _)),
      scan_append_of (scan_column ts (ready_within _ _)),
      scan_append_of (scan_comma (ready_within _ _)),
      scan_append_of (scan_margin _ _ _),
      scan_append_of (scan_code (ready_line _ _))]
    exact scan_margin_close level rfl (by decide)

theorem scan_column :
    ∀ (ts : List Tree) {s : Cursor} {level : Nat},
      s.Ready level →
        s.scan (column level ts) =
          some ⟨level, none, false⟩
| [], s, level, hReady => scan_empty hReady
| t :: ts, s, level, hReady => by
    rw [column, scan_append_of (scan_bracket hReady),
      scan_append_of (scan_margin _ _ _),
      scan_append_of (scan_indented t (ready_line _ _)),
      scan_append_of (scan_comma (ready_within _ _))]
    exact scan_columnRest ts

theorem scan_columnRest :
    ∀ (ts : List Tree) {level : Nat},
      (Cursor.mk (level + 1) (some 0) false).scan
          (columnRest level ts) =
        some ⟨level, none, false⟩
| [], level => scan_margin_close level rfl (by decide)
| t :: ts, level => by
    rw [columnRest, scan_append_of (scan_margin _ _ _),
      scan_append_of (scan_indented t (ready_line _ _)),
      scan_append_of (scan_comma (ready_within _ _))]
    exact scan_columnRest ts

end

------------------------------------------------------------
-- Numbers
------------------------------------------------------------

/-
  A parenthesis comes after a T, as in a list, or before a
  number that is closed at once.
-/
def Whole (cs : List Char) : Prop :=
  ∀ before after, cs = before ++ '(' :: after →
    before.getLast? = some 't' ∨
      ∃ i rest, after = number i ++ ')' :: rest

theorem Whole.append
    {cs ds : List Char}
    (hLeft : Whole cs)
    (hRight : Whole ds) :
    Whole (cs ++ ds) := by
  intro before after hCut
  rcases List.append_eq_append_iff.mp hCut with
    ⟨middle, hBefore, hRest⟩ | ⟨middle, hFront, hAfter⟩
  · rcases hRight middle after hRest with
      hLast | hNumber
    · rw [hBefore, List.getLast?_append, hLast]
      exact Or.inl rfl
    · exact Or.inr hNumber
  · cases middle with
    | nil =>
        rcases hRight [] after hAfter.symm with hLast | hNumber
        · cases hLast
        · exact Or.inr hNumber
    | cons c middle =>
        rw [List.cons_append, List.cons.injEq] at hAfter
        rcases hAfter with ⟨rfl, rfl⟩
        rcases hLeft before middle hFront with
          hLast | ⟨i, rest, rfl⟩
        · exact Or.inl hLast
        · refine Or.inr ⟨i, rest ++ ds, ?_⟩
          simp

theorem whole_of_not_mem
    {cs : List Char}
    (hNot : '(' ∉ cs) :
    Whole cs := by
  rintro before after rfl
  exact absurd (by simp) hNot

theorem whole_margin (level : Nat) : Whole (margin level) :=
  whole_of_not_mem (by simp [margin])

/- There is only one parenthesis. -/
theorem whole_around
    {cs ds : List Char}
    (hLeft : '(' ∉ cs)
    (hRight : '(' ∉ ds)
    (hWhole :
      cs.getLast? = some 't' ∨
        ∃ i rest, ds = number i ++ ')' :: rest) :
    Whole (cs ++ '(' :: ds) := by
  intro before after hCut
  rcases (List.append_cons_inj_of_notMem hLeft hRight).mp hCut
    with ⟨rfl, _, rfl⟩
  exact hWhole

theorem whole_list :
    Whole ['L', 'i', 's', 't', '(', '\n'] := by
  change Whole (['L', 'i', 's', 't'] ++ '(' :: ['\n'])
  exact whole_around (by decide) (by decide) (Or.inl rfl)

theorem whole_integer (i : Int64) : Whole (integerText i) := by
  change
    Whole
      (['I', 'n', 't', 'e', 'g', 'e', 'r'] ++
        '(' :: (number i ++ [')']))
  refine
    whole_around (by decide) ?_ (Or.inr ⟨i, [], rfl⟩)
  rw [List.mem_append]
  rintro (hNumber | hClose)
  · exact not_mem_number (by decide) (by decide) i hNumber
  · revert hClose
    decide

mutual

theorem whole_indented :
    ∀ (t : Tree) (level : Nat), Whole (t.indented level)
| .integer i, _ => whole_integer i
| .list ts, level => by
    rw [indented]
    exact
      whole_list.append
        ((whole_margin _).append
          ((whole_column ts _).append
            ((whole_of_not_mem (by decide)).append
              ((whole_margin _).append
                (whole_of_not_mem (by decide))))))
| .closure ts q, level => by
    rw [indented]
    exact
      (whole_of_not_mem (by decide)).append
        ((whole_margin _).append
          ((whole_of_not_mem (by decide)).append
            ((whole_column ts _).append
              ((whole_of_not_mem (by decide)).append
                ((whole_margin _).append
                  ((whole_of_not_mem (by decide)).append
                    ((whole_margin _).append
                      (whole_of_not_mem (by decide)))))))))

theorem whole_column :
    ∀ (ts : List Tree) (level : Nat), Whole (column level ts)
| [], _ => by
    rw [column]
    exact whole_of_not_mem (by decide)
| t :: ts, level => by
    rw [column]
    exact
      (whole_of_not_mem (by decide)).append
        ((whole_margin _).append
          ((whole_indented t _).append
            ((whole_of_not_mem (by decide)).append
              (whole_columnRest ts level))))

theorem whole_columnRest :
    ∀ (ts : List Tree) (level : Nat),
      Whole (columnRest level ts)
| [], level =>
    (whole_margin level).append (whole_of_not_mem (by decide))
| t :: ts, level => by
    rw [columnRest]
    exact
      (whole_margin _).append
        ((whole_indented t _).append
          ((whole_of_not_mem (by decide)).append
            (whole_columnRest ts level)))

end

------------------------------------------------------------
-- Indented Trees
------------------------------------------------------------

/- What is written for a tree on its own is indented. -/
theorem isIndented
    (t : Tree) :
    Indented (t.indented 0) := by
  have hScan :
      (Cursor.mk 0 (some 0) false).scan (t.indented 0) =
        some ⟨0, none, false⟩ :=
    scan_indented t (ready_line 0 false)
  constructor
  · intro before after hText hStart
    rw [hText] at hScan
    rcases exists_scan_of_append hScan with
      ⟨s, hBefore, hAfter⟩
    have hOpened :
        s.opened + before.countP isClosing =
          0 + before.countP isOpening :=
      opened_scan hBefore
    have hMargin : s.margin = some 0 := by
      rcases hStart with rfl | hLast
      · cases hBefore
        rfl
      · rcases List.getLast?_eq_some_iff.mp hLast with
          ⟨line, rfl⟩
        exact margin_of_newline hBefore
    have hBlanks := (blanks_of_scan hAfter hMargin rfl).1
    omega
  · intro before c after hText hOpening
    rw [hText] at hScan
    rcases exists_scan_of_append hScan with
      ⟨s, _, hRest⟩
    rcases Option.bind_eq_some_iff.mp hRest with
      ⟨opened, hStep, hRest⟩
    rcases Option.bind_eq_some_iff.mp hRest with
      ⟨line, hNewline, hAfter⟩
    rcases step_opening hStep hOpening with
      ⟨hMargin, hFresh⟩
    simp only [step, hMargin, if_true] at hNewline
    cases hNewline
    exact (blanks_of_scan hAfter rfl rfl).2 hFresh
  · intro before after hText
    rcases whole_indented t 0
        (before ++ ['I', 'n', 't', 'e', 'g', 'e', 'r']) after
        (by rw [hText]; simp) with
      hLast | hNumber
    · rw [List.getLast?_append] at hLast
      cases hLast
    · exact hNumber

end Tree

end LeasedHeap
