import LeasedHeap.Proofs.Indentation

/-
  The full layouts carry one structure.

  Without blanks and line ends, and without commas before
  closing brackets, the indented text of a value is the full
  text on one line.  What is left is the compact text of its
  tree.  It can be told from whatever follows it, so it tells
  apart trees that differ in more than the names of codes.

  Main declarations:
    * `Tree.codeless` and `Tree.compact`
    * `Tree.compact_cancel`
    * `Tree.unblank_spelled`
    * `Tree.uncomma_squeeze_indented`
    * `Moment.full_layouts_carry_the_structure`
-/

namespace LeasedHeap

------------------------------------------------------------
-- Compact Texts
------------------------------------------------------------

/- A text without its blanks. -/
def unblank (cs : List Char) : List Char :=
  cs.filter (fun c => c != ' ')

/- A text without its blanks and its line ends. -/
def squeeze (cs : List Char) : List Char :=
  cs.filter (fun c => c != ' ' && c != '\n')

/- A text without the commas before closing brackets. -/
def uncomma : List Char → List Char
| [] => []
| c :: cs =>
    if c = ',' ∧ cs.head?.any isClosing then
      uncomma cs
    else
      c :: uncomma cs

namespace Tree

/- A tree with all codes identified. -/
def codeless (t : Tree) : Tree :=
  t.renamed (fun _ => 0)

/- Trees with all codes identified. -/
def codelessAll (ts : List Tree) : List Tree :=
  renamedAll (fun _ => 0) ts

mutual

/- What is written for a tree, without any blank. -/
def compact : Tree → List Char
| .integer i => integerText i
| .list ts =>
    ['L', 'i', 's', 't', '('] ++ (compactRow ts ++ [')'])
| .closure ts _ =>
    ['C', 'l', 'o', 's', 'u', 'r', 'e', '\x7b', 'e', 'n', 'v',
        ':'] ++
      (compactRow ts ++
        [',', 'c', 'o', 'd', 'e', ':', '<', 'c', 'o', 'd',
          'e', '*', '>', '\x7d'])

def compactRow : List Tree → List Char
| [] => ['[', ']']
| t :: ts => '[' :: (t.compact ++ compactRest ts)

def compactRest : List Tree → List Char
| [] => [']']
| t :: ts => ',' :: (t.compact ++ compactRest ts)

end

------------------------------------------------------------
-- Telling Trees Apart
------------------------------------------------------------

/- Numbers that are closed can be told from what follows. -/
theorem integerText_cancel
    {i j : Int64}
    {cs ds : List Char}
    (hText : integerText i ++ cs = integerText j ++ ds) :
    i = j ∧ cs = ds := by
  simp only [integerText, List.append_assoc,
    List.append_cancel_left_eq] at hText
  have hClosed :
      ∀ es : List Char, Outline.NoDigit ([')'] ++ es) := by
    intro es
    simp [Outline.NoDigit]
  have hRead := Outline.readInteger_append i (hClosed cs)
  have hRead' := Outline.readInteger_append j (hClosed ds)
  unfold number at hText
  rw [hText, hRead'] at hRead
  cases hRead
  exact ⟨rfl, rfl⟩

/- No tree begins with a bracket. -/
theorem exists_cons_of_compact
    (t : Tree) :
    ∃ c cs, t.compact = c :: cs ∧ c ≠ ']' := by
  cases t <;> exact ⟨_, _, rfl, by decide⟩

mutual

/-
  A compact text tells the tree but for its codes, and where
  it ends.  The induction is on one tree; the other has the
  same first letter, or the texts differ at once.
-/
theorem compact_cancel :
    ∀ (t u : Tree) {cs ds : List Char},
      t.compact ++ cs = u.compact ++ ds →
        t.codeless = u.codeless ∧ cs = ds
| .integer i, .integer j, cs, ds, hText => by
    rcases integerText_cancel hText with ⟨rfl, rfl⟩
    exact ⟨rfl, rfl⟩
| .list ts, .list us, cs, ds, hText => by
    simp only [compact, List.append_assoc,
      List.append_cancel_left_eq] at hText
    rcases compactRow_cancel ts us hText with ⟨hRow, hRest⟩
    exact
      ⟨congrArg Tree.list hRow,
        List.append_cancel_left hRest⟩
| .closure ts _, .closure us _, cs, ds, hText => by
    simp only [compact, List.append_assoc,
      List.append_cancel_left_eq] at hText
    rcases compactRow_cancel ts us hText with ⟨hRow, hRest⟩
    exact
      ⟨congrArg (Tree.closure · 0) hRow,
        List.append_cancel_left hRest⟩
| .integer _, .list _, _, _, hText => by
    simp [compact, integerText] at hText
| .integer _, .closure _ _, _, _, hText => by
    simp [compact, integerText] at hText
| .list _, .integer _, _, _, hText => by
    simp [compact, integerText] at hText
| .list _, .closure _ _, _, _, hText => by
    simp [compact] at hText
| .closure _ _, .integer _, _, _, hText => by
    simp [compact, integerText] at hText
| .closure _ _, .list _, _, _, hText => by
    simp [compact] at hText

theorem compactRow_cancel :
    ∀ (ts us : List Tree) {cs ds : List Char},
      compactRow ts ++ cs = compactRow us ++ ds →
        codelessAll ts = codelessAll us ∧ cs = ds
| [], [], cs, ds, hText =>
    ⟨rfl, List.append_cancel_left hText⟩
| t :: ts, u :: us, cs, ds, hText => by
    simp only [compactRow, List.cons_append,
      List.append_assoc, List.cons.injEq, true_and] at hText
    rcases compact_cancel t u hText with ⟨hFirst, hText⟩
    rcases compactRest_cancel ts us hText with ⟨hRow, hRest⟩
    exact ⟨congrArg₂ List.cons hFirst hRow, hRest⟩
| [], u :: us, cs, ds, hText => by
    rcases exists_cons_of_compact u with
      ⟨c, letters, hCons, hNe⟩
    simp only [compactRow, hCons, List.cons_append,
      List.cons.injEq] at hText
    exact absurd hText.2.1.symm hNe
| t :: ts, [], cs, ds, hText => by
    rcases exists_cons_of_compact t with
      ⟨c, letters, hCons, hNe⟩
    simp only [compactRow, hCons, List.cons_append,
      List.cons.injEq] at hText
    exact absurd hText.2.1 hNe

theorem compactRest_cancel :
    ∀ (ts us : List Tree) {cs ds : List Char},
      compactRest ts ++ cs = compactRest us ++ ds →
        codelessAll ts = codelessAll us ∧ cs = ds
| [], [], cs, ds, hText =>
    ⟨rfl, List.append_cancel_left hText⟩
| t :: ts, u :: us, cs, ds, hText => by
    simp only [compactRest, List.cons_append,
      List.append_assoc, List.cons.injEq, true_and] at hText
    rcases compact_cancel t u hText with ⟨hFirst, hText⟩
    rcases compactRest_cancel ts us hText with
      ⟨hRow, hRest⟩
    exact ⟨congrArg₂ List.cons hFirst hRow, hRest⟩
| [], _ :: _, _, _, hText => by
    simp [compactRest] at hText
| _ :: _, [], _, _, hText => by
    simp [compactRest] at hText

end

------------------------------------------------------------
-- Texts on One Line
------------------------------------------------------------

theorem unblank_append
    (cs ds : List Char) :
    unblank (cs ++ ds) = unblank cs ++ unblank ds :=
  List.filter_append ..

/- No blank and no line end is in a number or around it. -/
theorem not_space_of_mem_integerText
    {i : Int64}
    {c : Char}
    (hc : c ∈ integerText i) :
    c ≠ ' ' ∧ c ≠ '\n' := by
  have hBlank : ' ' ∉ number i :=
    not_mem_number (by decide) (by decide) i
  have hNewline : '\n' ∉ number i :=
    not_mem_number (by decide) (by decide) i
  constructor <;>
    · rintro rfl
      simp [integerText, hBlank, hNewline] at hc

theorem unblank_integerText
    (i : Int64) :
    unblank (integerText i) = integerText i := by
  refine List.filter_eq_self.mpr fun c hc => ?_
  exact bne_iff_ne.mpr (not_space_of_mem_integerText hc).1

mutual

/- Without blanks, what is spelled for a tree is compact. -/
theorem unblank_spelled :
    ∀ t : Tree, unblank t.spelled = t.compact
| .integer i => unblank_integerText i
| .list ts => by
    rw [spelled, unblank_append, unblank_append,
      unblank_spelledRow ts]
    rfl
| .closure ts _ => by
    rw [spelled, unblank_append, unblank_append,
      unblank_spelledRow ts]
    rfl

theorem unblank_spelledRow :
    ∀ ts : List Tree, unblank (spelledRow ts) = compactRow ts
| [] => rfl
| t :: ts => by
    change unblank (['['] ++ (t.spelled ++ spelledRest ts)) = _
    rw [unblank_append, unblank_append, unblank_spelled t,
      unblank_spelledRest ts]
    rfl

theorem unblank_spelledRest :
    ∀ ts : List Tree,
      unblank (spelledRest ts) = compactRest ts
| [] => rfl
| t :: ts => by
    change
      unblank ([',', ' '] ++ (t.spelled ++ spelledRest ts)) = _
    rw [unblank_append, unblank_append, unblank_spelled t,
      unblank_spelledRest ts]
    rfl

end

mutual

/- No code is named in a full text. -/
theorem spelled_codeless :
    ∀ t : Tree, t.codeless.spelled = t.spelled
| .integer _ => rfl
| .list ts => by
    rw [spelled, ← spelledRow_codeless ts]
    rfl
| .closure ts _ => by
    rw [spelled, ← spelledRow_codeless ts]
    rfl

theorem spelledRow_codeless :
    ∀ ts : List Tree,
      spelledRow (codelessAll ts) = spelledRow ts
| [] => rfl
| t :: ts => by
    rw [spelledRow, ← spelled_codeless t,
      ← spelledRest_codeless ts]
    rfl

theorem spelledRest_codeless :
    ∀ ts : List Tree,
      spelledRest (codelessAll ts) = spelledRest ts
| [] => rfl
| t :: ts => by
    rw [spelledRest, ← spelled_codeless t,
      ← spelledRest_codeless ts]
    rfl

end

/- Full texts tell trees apart, but for their codes. -/
theorem spelled_eq_iff
    (t u : Tree) :
    t.spelled = u.spelled ↔ t.codeless = u.codeless := by
  constructor
  · intro hText
    have hCompact : t.compact ++ [] = u.compact ++ [] := by
      rw [← unblank_spelled, hText, unblank_spelled]
    exact (compact_cancel t u hCompact).1
  · intro hSame
    rw [← spelled_codeless, hSame, spelled_codeless]

------------------------------------------------------------
-- Texts on Many Lines
------------------------------------------------------------

theorem squeeze_append
    (cs ds : List Char) :
    squeeze (cs ++ ds) = squeeze cs ++ squeeze ds :=
  List.filter_append ..

theorem squeeze_margin
    (level : Nat) :
    squeeze (margin level) = [] := by
  simp [squeeze, margin]

theorem squeeze_integerText
    (i : Int64) :
    squeeze (integerText i) = integerText i := by
  refine List.filter_eq_self.mpr fun c hc => ?_
  rcases not_space_of_mem_integerText hc with
    ⟨hBlank, hNewline⟩
  rw [bne_iff_ne.mpr hBlank, bne_iff_ne.mpr hNewline]
  rfl

/- What has no comma stays. -/
theorem uncomma_append
    {cs : List Char}
    (hNot : ',' ∉ cs)
    (ds : List Char) :
    uncomma (cs ++ ds) = cs ++ uncomma ds := by
  induction cs with
  | nil => rfl
  | cons c cs ih =>
      rw [List.mem_cons, not_or] at hNot
      rw [List.cons_append, uncomma,
        if_neg (fun h => hNot.1 h.1.symm), ih hNot.2]
      rfl

/- So does a comma before anything but a closing bracket. -/
theorem uncomma_comma
    {c : Char}
    (hOther : isClosing c = false)
    (cs : List Char) :
    uncomma ([','] ++ c :: cs) = ',' :: uncomma (c :: cs) := by
  rw [List.singleton_append, uncomma]
  simp [hOther]

/- No tree begins with a closing bracket. -/
theorem exists_cons_of_indented
    (t : Tree)
    (level : Nat) :
    ∃ c cs,
      squeeze (t.indented level) = c :: cs ∧
        isClosing c = false := by
  cases t <;> exact ⟨_, _, rfl, rfl⟩

mutual

/-
  Without blanks, line ends and the commas at the end, what is
  written for a tree is compact.  The induction is on the
  tree; no tree ends with a comma, so it does not matter what
  follows.
-/
theorem uncomma_indented :
    ∀ (t : Tree) (level : Nat) (cs : List Char),
      uncomma (squeeze (t.indented level) ++ cs) =
        t.compact ++ uncomma cs
| .integer i, level, cs => by
    have hNumber : ',' ∉ number i :=
      not_mem_number (by decide) (by decide) i
    have hNot : ',' ∉ integerText i := by
      simp [integerText, hNumber]
    rw [indented, squeeze_integerText, uncomma_append hNot,
      compact]
| .list ts, level, cs => by
    have hSqueeze :
        squeeze ((Tree.list ts).indented level) =
          ['L', 'i', 's', 't', '('] ++
            (squeeze (column (level + 1) ts) ++
              [',', ')']) := by
      simp only [indented, squeeze_append, squeeze_margin]
      rfl
    rw [hSqueeze, List.append_assoc, List.append_assoc,
      uncomma_append (by decide), uncomma_column ts, compact,
      List.append_assoc, List.append_assoc]
    rfl
| .closure ts q, level, cs => by
    have hSqueeze :
        squeeze ((Tree.closure ts q).indented level) =
          ['C', 'l', 'o', 's', 'u', 'r', 'e', '\x7b', 'e', 'n',
              'v', ':'] ++
            (squeeze (column (level + 1) ts) ++
              [',', 'c', 'o', 'd', 'e', ':', '<', 'c', 'o',
                'd', 'e', '*', '>', ',', '\x7d']) := by
      simp only [indented, squeeze_append, squeeze_margin]
      rfl
    rw [hSqueeze, List.append_assoc, List.append_assoc,
      uncomma_append (by decide), uncomma_column ts, compact,
      List.append_assoc, List.append_assoc]
    rfl

theorem uncomma_column :
    ∀ (ts : List Tree) (level : Nat) (cs : List Char),
      uncomma (squeeze (column level ts) ++ cs) =
        compactRow ts ++ uncomma cs
| [], _, _ => rfl
| t :: ts, level, cs => by
    have hSqueeze :
        squeeze (column level (t :: ts)) =
          ['['] ++
            (squeeze (t.indented (level + 1)) ++
              ([','] ++ squeeze (columnRest level ts))) := by
      simp only [column, squeeze_append, squeeze_margin]
      rfl
    rw [hSqueeze, List.append_assoc, List.append_assoc,
      uncomma_append (by decide), uncomma_indented t,
      List.append_assoc, uncomma_columnRest ts, compactRow]
    simp

theorem uncomma_columnRest :
    ∀ (ts : List Tree) (level : Nat) (cs : List Char),
      uncomma
          ([','] ++ (squeeze (columnRest level ts) ++ cs)) =
        compactRest ts ++ uncomma cs
| [], level, cs => by
    rw [columnRest, squeeze_append, squeeze_margin]
    rfl
| t :: ts, level, cs => by
    have hSqueeze :
        squeeze (columnRest level (t :: ts)) =
          squeeze (t.indented (level + 1)) ++
            ([','] ++ squeeze (columnRest level ts)) := by
      simp only [columnRest, squeeze_append, squeeze_margin]
      rfl
    rcases exists_cons_of_indented t (level + 1) with
      ⟨c, letters, hCons, hOther⟩
    calc
      uncomma
            ([','] ++
              (squeeze (columnRest level (t :: ts)) ++ cs)) =
          uncomma
            ([','] ++
              (squeeze (t.indented (level + 1)) ++
                ([','] ++
                  (squeeze (columnRest level ts) ++
                    cs)))) := by
            rw [hSqueeze, List.append_assoc,
              List.append_assoc]
      _ = ',' ::
            uncomma
              (squeeze (t.indented (level + 1)) ++
                ([','] ++
                  (squeeze (columnRest level ts) ++
                    cs))) := by
            rw [hCons]
            exact uncomma_comma hOther _
      _ = ',' ::
            (t.compact ++ (compactRest ts ++ uncomma cs)) := by
            rw [uncomma_indented t, uncomma_columnRest ts]
      _ = compactRest (t :: ts) ++ uncomma cs := by
            rw [compactRest, List.cons_append,
              List.append_assoc]

end

/- All on one line, an indented text is a full text. -/
theorem uncomma_squeeze_indented
    (t : Tree) :
    uncomma (squeeze (t.indented 0)) =
      unblank t.spelled := by
  have hText := uncomma_indented t 0 []
  rw [List.append_nil] at hText
  rw [hText, unblank_spelled]
  exact List.append_nil _

end Tree

------------------------------------------------------------
-- Layouts of Reachable Values
------------------------------------------------------------

namespace Moment

variable {κ κ' : Type}

/-
  At every moment of every run, full texts show all of the
  tree of a value but for its codes: texts of this run and of
  any other are equal exactly when the trees are, with all
  codes identified.  The indented text shows the same, with
  the lines indented by the brackets that are open.
-/
theorem full_layouts_carry_the_structure
    {provides provides' : UInt64 → Bool}
    {moves : List (Move κ)}
    {moves' : List (Move κ')}
    {m : Moment κ}
    {m' : Moment κ'}
    (hHere : (fresh provides).run moves = m)
    (hThere : (fresh provides').run moves' = m') :
    (∀ v w t u,
      m.world.heap.Unfolds v t →
        m'.world.heap.Unfolds w u →
          (m.world.heap.render .full v =
              m'.world.heap.render .full w ↔
            t.codeless = u.codeless)) ∧
      (∀ v,
        uncomma
            (squeeze
              (m.world.heap.render .indented v).toList) =
          unblank (m.world.heap.render .full v).toList) ∧
      ∀ v,
        Indented
          (m.world.heap.render .indented v).toList := by
  have hSound : m.Sound :=
    hHere ▸ sound_run_fresh provides moves
  have hSound' : m'.Sound :=
    hThere ▸ sound_run_fresh provides' moves'
  refine ⟨?_, ?_, ?_⟩
  · intro v w t u hv hw
    rw [← String.toList_inj, Heap.toList_render_full,
      Heap.toList_render_full, Tree.spelled_eq_iff,
      (hSound.exact.unfolds_iff hv.admits).mp hv,
      (hSound'.exact.unfolds_iff hw.admits).mp hw]
  · intro v
    rw [Heap.toList_render_indented, Heap.toList_render_full,
      Tree.uncomma_squeeze_indented]
  · intro v
    rw [Heap.toList_render_indented]
    exact Tree.isIndented _

/-
  A list of a closure and an empty list in one run, and in
  another a closure over the same integer with another code.
  The closures have one text, which the list has not.
-/
theorem full_layouts_carry_the_structure_nested :
    ∃ m m' : Moment Unit,
      (fresh (fun _ => true)).run
          [.act (.newCode () [] []),
            .act (.clone (.value (.integer 7))),
            .openArray 0 (.closure ⟨0⟩) 1,
            .closeArray 0 (.closure ⟨0⟩) [⟨1⟩],
            .openArray 0 .list 0,
            .closeArray 0 .list [],
            .openArray 0 .list 2,
            .closeArray 0 .list [⟨2⟩, ⟨3⟩]] = m ∧
        (fresh (fun _ => true)).run
            [.act (.newCode () [] []),
              .act (.newCode () [] []),
              .act (.clone (.value (.integer 7))),
              .openArray 0 (.closure ⟨1⟩) 1,
              .closeArray 0 (.closure ⟨1⟩) [⟨2⟩]] = m' ∧
        m.world.heap.render .full (.closure ⟨1, 0⟩) =
          m'.world.heap.render .full (.closure ⟨2, 1⟩) ∧
        m.world.heap.render .full (.list 3) ≠
          m'.world.heap.render .full (.closure ⟨2, 1⟩) ∧
        uncomma
            (squeeze
              (m.world.heap.render .indented
                (.list 3)).toList) =
          unblank
            (m.world.heap.render .full (.list 3)).toList ∧
        Indented
          (m.world.heap.render .indented
            (.list 3)).toList := by
  refine ⟨_, _, rfl, rfl, ?_⟩
  generalize hHere : (fresh _).run _ = m
  generalize hThere : (fresh _).run _ = m'
  rcases full_layouts_carry_the_structure hHere hThere with
    ⟨hTexts, hSame, hLines⟩
  have hClosure :
      m.world.heap.Unfolds (.closure ⟨1, 0⟩)
        (.closure [.integer 7] 0) :=
    .closure (by rw [← hHere]; rfl) (by rw [← hHere]; rfl)
      (.cons (.integer 7) .nil)
  have hList :
      m.world.heap.Unfolds (.list 3)
        (.list [.closure [.integer 7] 0, .list []]) :=
    .list (by rw [← hHere]; rfl)
      (.cons hClosure
        (.cons (.list (by rw [← hHere]; rfl) .nil) .nil))
  have hOther :
      m'.world.heap.Unfolds (.closure ⟨2, 1⟩)
        (.closure [.integer 7] 1) :=
    .closure (by rw [← hThere]; rfl) (by rw [← hThere]; rfl)
      (.cons (.integer 7) .nil)
  refine ⟨?_, ?_, hSame _, hLines _⟩
  · rw [hTexts _ _ _ _ hClosure hOther]
    rfl
  · rw [Ne, hTexts _ _ _ _ hList hOther]
    simp [Tree.codeless, Tree.renamed]

end Moment

end LeasedHeap
