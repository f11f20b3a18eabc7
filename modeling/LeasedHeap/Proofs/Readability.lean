import LeasedHeap.Proofs.Comparison

/-
  Short texts can be read.

  The short text of a value shows its integers and its lists,
  and of a closure the arity only.  What it shows is the
  outline of the value, and the text is as good as the
  outline: a reader gets it back, wherever the text stands in
  a larger one.  The reader stops at the end of the outline;
  all it needs is that no digit follows.

  Main declarations:
    * `Outline`, `Outline.text` and `Tree.outline`
    * `Outline.read` and `Outline.read_text_append`
    * `Heap.render_short`
    * `Heap.Within`
    * `Moment.short_texts_are_outlines`
-/

namespace LeasedHeap

------------------------------------------------------------
-- Outlines
------------------------------------------------------------

/- A tree with arities in place of closures. -/
inductive Outline where
| integer : Int64 → Outline
| list : List Outline → Outline
| closure : Nat → Outline

namespace Tree

mutual

/- A tree with every closure replaced by its arity. -/
def outline : Tree → Outline
| .integer i => .integer i
| .list ts => .list (outlines ts)
| .closure ts _ => .closure ts.length

/- The outlines of some trees. -/
def outlines : List Tree → List Outline
| [] => []
| t :: ts => t.outline :: outlines ts

end

theorem outlines_eq_map
    (ts : List Tree) :
    outlines ts = ts.map outline := by
  induction ts with
  | nil => rfl
  | cons t ts ih => rw [outlines, ih, List.map_cons]

mutual

/- Whether there is no closure in a tree. -/
def closureFree : Tree → Bool
| .integer _ => true
| .list ts => allClosureFree ts
| .closure _ _ => false

/- Whether there is no closure in some trees. -/
def allClosureFree : List Tree → Bool
| [] => true
| t :: ts => t.closureFree && allClosureFree ts

end

end Tree

namespace Outline

mutual

/- The tree of an outline, if no arity is in it. -/
def tree? : Outline → Option Tree
| .integer i => some (.integer i)
| .list os => (trees? os).map .list
| .closure _ => none

/- The trees of some outlines, if no arity is in them. -/
def trees? : List Outline → Option (List Tree)
| [] => some []
| o :: os => do
    let t ← o.tree?
    let ts ← trees? os
    some (t :: ts)

end

mutual

/- Without closures, an outline is as good as the tree. -/
theorem tree?_outline :
    ∀ {t : Tree},
      t.closureFree = true → t.outline.tree? = some t
| .integer i, _ => rfl
| .list ts, hFree => by
    rw [Tree.closureFree] at hFree
    rw [Tree.outline, tree?, trees?_outlines hFree,
      Option.map_some]

theorem trees?_outlines :
    ∀ {ts : List Tree},
      Tree.allClosureFree ts = true →
        trees? (Tree.outlines ts) = some ts
| [], _ => rfl
| t :: ts, hFree => by
    rw [Tree.allClosureFree, Bool.and_eq_true] at hFree
    simp [Tree.outlines, trees?, tree?_outline hFree.1,
      trees?_outlines hFree.2]

end

------------------------------------------------------------
-- The Letters of an Outline
------------------------------------------------------------

/- What a closure begins with. -/
def mark : List Char :=
  ['#', '<', 'c', 'l', 'o', 's', 'u', 'r', 'e', '/']

theorem toList_mark : "#<closure/".toList = mark := by
  rfl

mutual

/- What is written for an outline. -/
def letters : Outline → List Char
| .integer i => (toString i.toInt).toList
| .list [] => ['(', ')']
| .list (o :: os) => '(' :: (o.letters ++ further os)
| .closure n =>
    mark ++ ((toString n).toList ++ ['>'])

/- What is written after an item, with the items to come. -/
def further : List Outline → List Char
| [] => [')']
| o :: os => ' ' :: (o.letters ++ further os)

end

/- The text of an outline. -/
def text (o : Outline) : String :=
  String.ofList o.letters

------------------------------------------------------------
-- Reading Numbers
------------------------------------------------------------

/- No digit comes first. -/
def NoDigit (cs : List Char) : Prop :=
  ∀ c ∈ cs.head?, c.isDigit = false

/- Read a row of digits. -/
def readNat (cs : List Char) : Option (Nat × List Char) :=
  match cs.takeWhile Char.isDigit with
  | [] => none
  | ds =>
      some
        (Nat.ofDigitChars 10 ds 0,
          cs.dropWhile Char.isDigit)

/- Read digits with a sign. -/
def readInt (cs : List Char) : Option (Int × List Char) :=
  match cs with
  | '-' :: ds =>
      (readNat ds).map (fun r => (-(r.1 : Int), r.2))
  | ds => (readNat ds).map (fun r => ((r.1 : Int), r.2))

/- Read an integer that is in range. -/
def readInteger
    (cs : List Char) : Option (Outline × List Char) := do
  let (z, rest) ← readInt cs
  if (Int64.ofInt z).toInt = z then
    some (.integer (Int64.ofInt z), rest)
  else
    none

/- The digits of a number. -/
theorem isDigit_of_mem_nat
    {n : Nat}
    {c : Char}
    (hc : c ∈ (toString n).toList) :
    c.isDigit = true := by
  rw [Nat.toString_eq_repr, Nat.toList_repr] at hc
  exact
    Nat.isDigit_of_mem_toDigits (by decide) (by decide) hc

/- The first digit of a number. -/
theorem exists_cons_of_nat
    (n : Nat) :
    ∃ c cs,
      (toString n).toList = c :: cs ∧ c.isDigit = true := by
  cases hText : (toString n).toList with
  | nil => simp at hText
  | cons c cs =>
      refine ⟨c, cs, rfl, isDigit_of_mem_nat (n := n) ?_⟩
      rw [hText]
      exact List.mem_cons_self

/- A number is read up to where its digits end. -/
theorem readNat_append
    (n : Nat)
    {rest : List Char}
    (hRest : NoDigit rest) :
    readNat ((toString n).toList ++ rest) =
      some (n, rest) := by
  have hDigits :
      ∀ c ∈ (toString n).toList, c.isDigit = true :=
    fun _ => isDigit_of_mem_nat
  have hNone :
      rest.takeWhile Char.isDigit = [] ∧
        rest.dropWhile Char.isDigit = rest := by
    cases rest with
    | nil => exact ⟨rfl, rfl⟩
    | cons c rest => simp [hRest c rfl]
  rw [readNat, List.takeWhile_append_of_pos hDigits,
    List.dropWhile_append_of_pos hDigits, hNone.1, hNone.2,
    List.append_nil, Nat.toString_eq_repr, Nat.toList_repr]
  split
  · exact absurd ‹_› Nat.toDigits_ne_nil
  · rw [Nat.ofDigitChars_toDigits (by decide) (by decide)]

theorem toList_negSucc
    (n : Nat) :
    (toString (Int.negSucc n)).toList =
      '-' :: (toString (n + 1)).toList := by
  rw [Int.toString_eq_repr, Int.repr, String.toList_append]
  rfl

/- A number begins with its sign or a digit. -/
theorem exists_cons_of_int
    (z : Int) :
    ∃ c cs,
      (toString z).toList = c :: cs ∧
        (c = '-' ∨ c.isDigit = true) := by
  cases z with
  | ofNat n =>
      rcases exists_cons_of_nat n with
        ⟨c, cs, hCons, hDigit⟩
      exact ⟨c, cs, hCons, .inr hDigit⟩
  | negSucc n => exact ⟨_, _, toList_negSucc n, .inl rfl⟩

/- So is a number with a sign. -/
theorem readInt_append
    (z : Int)
    {rest : List Char}
    (hRest : NoDigit rest) :
    readInt ((toString z).toList ++ rest) =
      some (z, rest) := by
  cases z with
  | ofNat n =>
      rcases exists_cons_of_nat n with
        ⟨c, cs, hCons, hDigit⟩
      have hRead := readNat_append n hRest
      rw [show toString (Int.ofNat n) = toString n from rfl]
      rw [hCons, List.cons_append] at hRead ⊢
      rw [readInt.eq_2, hRead]
      · rfl
      · rintro ds hc
        cases hc
        cases hDigit
  | negSucc n =>
      rw [toList_negSucc, List.cons_append, readInt,
        readNat_append (n + 1) hRest]
      rfl

/- And so is an integer: it is in range. -/
theorem readInteger_append
    (i : Int64)
    {rest : List Char}
    (hRest : NoDigit rest) :
    readInteger ((toString i.toInt).toList ++ rest) =
      some (.integer i, rest) := by
  rw [readInteger, readInt_append _ hRest]
  simp [Int64.ofInt_toInt]

------------------------------------------------------------
-- Reading Outlines
------------------------------------------------------------

/- Read letters that are known. -/
def expect (s cs : List Char) : Option (List Char) :=
  if s.isPrefixOf cs then some (cs.drop s.length) else none

/- Read a closure, as its arity. -/
def readClosure
    (cs : List Char) : Option (Outline × List Char) := do
  let cs ← expect mark cs
  let (n, cs) ← readNat cs
  let cs ← expect ['>'] cs
  some (.closure n, cs)

mutual

/-
  Read an outline, and what follows it.  Every item is
  shorter than what it is an item of, so as much fuel as
  there are letters is enough.
-/
def readFrom :
    Nat → List Char → Option (Outline × List Char)
| 0, _ => none
| _ + 1, '(' :: ')' :: cs => some (.list [], cs)
| fuel + 1, '(' :: cs => do
    let (o, cs) ← readFrom fuel cs
    let (os, cs) ← readFurther fuel cs
    some (.list (o :: os), cs)
| _ + 1, '#' :: cs => readClosure ('#' :: cs)
| _ + 1, cs => readInteger cs

/- Read the items to come, and what follows their list. -/
def readFurther :
    Nat → List Char → Option (List Outline × List Char)
| 0, _ => none
| _ + 1, ')' :: cs => some ([], cs)
| fuel + 1, ' ' :: cs => do
    let (o, cs) ← readFrom fuel cs
    let (os, cs) ← readFurther fuel cs
    some (o :: os, cs)
| _ + 1, _ => none

end

/- Read an outline off a text, and what follows it. -/
def read (text : String) : Option (Outline × String) :=
  (readFrom text.length text.toList).map
    (fun r => (r.1, String.ofList r.2))

theorem expect_append
    (s rest : List Char) :
    expect s (s ++ rest) = some rest := by
  simp [expect]

/- A closure is read up to its bracket. -/
theorem readClosure_append
    (n : Nat)
    (rest : List Char) :
    readClosure ((closure n).letters ++ rest) =
      some (.closure n, rest) := by
  have hNext : NoDigit (['>'] ++ rest) := by
    simp [NoDigit]
  rw [letters, List.append_assoc, List.append_assoc]
  simp only [readClosure, Option.bind_eq_bind,
    Option.bind_some, expect_append,
    readNat_append n hNext]

/- No digit follows an item of a list. -/
theorem noDigit_further
    (os : List Outline)
    (rest : List Char) :
    NoDigit (further os ++ rest) := by
  cases os <;> simp [further, NoDigit]

/- An outline does not begin with a closing bracket. -/
theorem letters_ne_close
    (o : Outline) :
    ∃ c cs, o.letters = c :: cs ∧ c ≠ ')' := by
  cases o with
  | integer i =>
      rcases exists_cons_of_int i.toInt with
        ⟨c, cs, hCons, hFirst⟩
      refine ⟨c, cs, hCons, ?_⟩
      rintro rfl
      revert hFirst
      decide
  | list os => cases os <;> exact ⟨_, _, rfl, by decide⟩
  | closure n => exact ⟨_, _, rfl, by decide⟩

/- Something that begins as a number is read as one. -/
theorem readFrom_number
    {c : Char}
    (hFirst : c = '-' ∨ c.isDigit = true)
    (fuel : Nat)
    (cs : List Char) :
    readFrom (fuel + 1) (c :: cs) =
      readInteger (c :: cs) := by
  rw [readFrom]
  all_goals
    rintro _ h
    cases h
    revert hFirst
    decide

/- A list that is not empty is read item by item. -/
theorem readFrom_list
    {c : Char}
    (hFirst : c ≠ ')')
    (fuel : Nat)
    (cs : List Char) :
    readFrom (fuel + 1) ('(' :: c :: cs) = (do
      let (o, cs) ← readFrom fuel (c :: cs)
      let (os, cs) ← readFurther fuel cs
      some (.list (o :: os), cs)) := by
  rw [readFrom]
  rintro _ h
  cases h
  exact hFirst rfl

mutual

/-
  An outline is read off its letters, and what follows is
  left as it is.  The induction is on the outline; the letters
  of an item end where no digit follows.
-/
theorem readFrom_append :
    ∀ (o : Outline) {fuel : Nat} {rest : List Char},
      o.letters.length ≤ fuel →
        NoDigit rest →
          readFrom fuel (o.letters ++ rest) = some (o, rest)
| .integer i, fuel, rest, hFuel, hRest => by
    rcases exists_cons_of_int i.toInt with
      ⟨c, cs, hCons, hFirst⟩
    have hRead := readInteger_append i hRest
    rw [letters] at hFuel ⊢
    rw [hCons] at hFuel hRead ⊢
    obtain _ | fuel := fuel
    · cases hFuel
    · rw [List.cons_append] at hRead ⊢
      rw [readFrom_number hFirst, hRead]
| .list [], fuel, rest, hFuel, hRest => by
    obtain _ | fuel := fuel
    · cases hFuel
    · rfl
| .list (o :: os), fuel, rest, hFuel, hRest => by
    rcases letters_ne_close o with ⟨c, cs, hCons, hFirst⟩
    obtain _ | fuel := fuel
    · cases hFuel
    · rw [letters, List.length_cons, List.length_append]
        at hFuel
      have hItem :
          readFrom fuel
              (o.letters ++ (further os ++ rest)) =
            some (o, further os ++ rest) :=
        readFrom_append o (by omega)
          (noDigit_further os rest)
      have hItems :
          readFurther fuel (further os ++ rest) =
            some (os, rest) :=
        readFurther_append os (by omega)
      rw [hCons, List.cons_append] at hItem
      rw [letters, List.cons_append, List.append_assoc, hCons,
        List.cons_append, readFrom_list hFirst, hItem]
      simp [hItems]
| .closure n, fuel, rest, hFuel, hRest => by
    obtain _ | fuel := fuel
    · cases hFuel
    · exact readClosure_append n rest

theorem readFurther_append :
    ∀ (os : List Outline) {fuel : Nat} {rest : List Char},
      (further os).length ≤ fuel →
        readFurther fuel (further os ++ rest) =
          some (os, rest)
| [], fuel, rest, hFuel => by
    obtain _ | fuel := fuel
    · cases hFuel
    · rfl
| o :: os, fuel, rest, hFuel => by
    obtain _ | fuel := fuel
    · cases hFuel
    · rw [further, List.length_cons, List.length_append]
        at hFuel
      have hItem :
          readFrom fuel
              (o.letters ++ (further os ++ rest)) =
            some (o, further os ++ rest) :=
        readFrom_append o (by omega)
          (noDigit_further os rest)
      have hItems :
          readFurther fuel (further os ++ rest) =
            some (os, rest) :=
        readFurther_append os (by omega)
      rw [further, List.cons_append, List.append_assoc,
        readFurther, hItem]
      simp [hItems]

end

/- Texts of outlines are read, whatever follows. -/
theorem read_text_append
    (o : Outline)
    {rest : String}
    (hRest : NoDigit rest.toList) :
    read (o.text ++ rest) = some (o, rest) := by
  have hRead :
      readFrom (o.text ++ rest).length
          (o.letters ++ rest.toList) =
        some (o, rest.toList) :=
    readFrom_append o (by simp [text]) hRest
  rw [read, String.toList_append, text,
    String.toList_ofList, ← text, hRead, Option.map_some,
    String.ofList_toList]

example :
    (read "((-5) #<closure/2>) 7").map Prod.snd =
      some " 7" := by
  decide

end Outline

/- Read a tree without closures, and what follows it. -/
def Tree.read (text : String) : Option (Tree × String) := do
  let (o, rest) ← Outline.read text
  let t ← o.tree?
  some (t, rest)

namespace Outline

/- A text shows one outline only. -/
theorem text_injective :
    Function.Injective text := by
  intro o o' hText
  have hEnd : NoDigit "".toList := by simp [NoDigit]
  have hRead := read_text_append o hEnd
  rw [hText, read_text_append o' hEnd] at hRead
  cases hRead
  rfl

end Outline

------------------------------------------------------------
-- Texts of Values
------------------------------------------------------------

namespace Heap

variable {κ κ' : Type}
variable {h : Heap κ}
variable {h' : Heap κ'}

/- What a piece says, in the short style. -/
def pieceLetters
    (h : Heap κ) : Piece → List Char
| .words s => s.toList
| .value _ v => (h.tree v).outline.letters

/- Blanks stand between items, a bracket after the last. -/
private theorem letters_append_further
    (h : Heap κ)
    (v : Value)
    (vs : List Value) :
    (h.tree v).outline.letters ++
        Outline.further
          (vs.map (fun w => (h.tree w).outline)) =
      (Piece.separated " " 0 (v :: vs)).flatMap
          h.pieceLetters ++ [')'] := by
  induction vs generalizing v with
  | nil => simp [Piece.separated, pieceLetters, Outline.further]
  | cons w vs ih =>
      rw [List.map_cons, Outline.further, ih w, Piece.separated]
      simp [pieceLetters]

/- The layout of a value shows its outline. -/
private theorem flatMap_layoutShort
    (h : Heap κ)
    (v : Value) :
    (Style.layoutShort (h.items v) v).flatMap
        h.pieceLetters =
      (h.tree v).outline.letters := by
  cases v with
  | integer i =>
      simp [Style.layoutShort, pieceLetters, Tree.outline,
        Outline.letters]
  | list p =>
      rw [tree_list, Tree.outline, Tree.outlines_eq_map,
        List.map_map, Style.layoutShort]
      cases h.items (.list p) with
      | nil => rfl
      | cons v vs =>
          have hItems := letters_append_further h v vs
          rw [List.map_cons, Outline.letters]
          simp only [List.flatMap_cons, List.flatMap_append]
          exact congrArg ('(' :: ·) hItems.symm
  | closure c =>
      rw [tree_closure, Tree.outline, Outline.letters,
        List.length_map, ← Outline.toList_mark]
      simp only [Style.layoutShort, pieceLetters,
        List.flatMap_cons, List.flatMap_nil,
        List.append_nil, String.toList_append,
        List.append_assoc]
      rfl

/- A text is what its pieces say. -/
private theorem toList_write_short
    (text : String)
    (ps : List Piece) :
    (h.write .short text ps).toList =
      text.toList ++ ps.flatMap h.pieceLetters := by
  induction text, ps using write.induct h .short with
  | case1 text => simp [write]
  | case2 text s rest ih =>
      rw [write, ih, String.toList_append, List.append_assoc]
      rfl
  | case3 text depth v rest ih =>
      rw [write, ih, Style.layout, List.flatMap_append,
        flatMap_layoutShort]
      rfl

/- The short text of a value is the text of its outline. -/
theorem render_short
    (h : Heap κ)
    (v : Value) :
    h.render .short v = (h.tree v).outline.text := by
  rw [← String.toList_inj, render, toList_write_short,
    Outline.text, String.toList_ofList]
  simp [pieceLetters]

/- Texts are the same where outlines are. -/
theorem render_short_eq_iff
    (v w : Value) :
    h.render .short v = h'.render .short w ↔
      (h.tree v).outline = (h'.tree w).outline := by
  rw [render_short, render_short,
    Outline.text_injective.eq_iff]

------------------------------------------------------------
-- Texts within Texts
------------------------------------------------------------

/- The texts of the items before an item. -/
def textBefore (h : Heap κ) : List Value → String
| [] => ""
| v :: vs => h.render .short v ++ " " ++ h.textBefore vs

/- The texts of the items after an item. -/
def textAfter (h : Heap κ) : List Value → String
| [] => ")"
| v :: vs => " " ++ h.render .short v ++ h.textAfter vs

/-
  A value within another: the same, or within an element of a
  list.  The two texts are what is written before it and what
  is written after it.
-/
inductive Within
    (h : Heap κ)
    (v : Value) : String → String → Value → Prop where
| here : Within h v "" "" v
| item
    {p : ObjectId}
    {left right : List Value}
    {w : Value}
    {before after : String} :
    h.elements? p = some (left ++ w :: right) →
    Within h v before after w →
    Within h v ("(" ++ h.textBefore left ++ before)
      (after ++ h.textAfter right) (.list p)

/- What is written after an item begins with no digit. -/
private theorem toList_textAfter
    (h : Heap κ)
    (vs : List Value) :
    (h.textAfter vs).toList =
      Outline.further
        (vs.map (fun w => (h.tree w).outline)) := by
  induction vs with
  | nil => simp [textAfter, Outline.further]
  | cons v vs ih =>
      rw [textAfter, String.toList_append,
        String.toList_append, ih, render_short]
      simp [Outline.text, Outline.further]

/- The text of a list begins with the text of its head. -/
private theorem render_list_cons
    {p : ObjectId}
    {v : Value}
    {vs : List Value}
    (hItems : h.items (.list p) = v :: vs) :
    h.render .short (.list p) =
      "(" ++ h.render .short v ++ h.textAfter vs := by
  rw [← String.toList_inj, String.toList_append,
    String.toList_append, toList_textAfter, render_short,
    render_short, tree_list, hItems, Tree.outline,
    Tree.outlines_eq_map]
  simp [Outline.text, Outline.letters, Function.comp_def]

/- What is written after an item, cut at another. -/
private theorem textAfter_append
    (h : Heap κ)
    (left right : List Value)
    (w : Value) :
    h.textAfter (left ++ w :: right) =
      " " ++ h.textBefore left ++ h.render .short w ++
        h.textAfter right := by
  induction left with
  | nil => simp [textAfter, textBefore]
  | cons v left ih =>
      rw [List.cons_append, textAfter, ih, textBefore]
      simp only [String.append_assoc]

/- The text of a list, cut at an item. -/
private theorem render_list
    {p : ObjectId}
    {left right : List Value}
    {w : Value}
    (hItems : h.items (.list p) = left ++ w :: right) :
    h.render .short (.list p) =
      "(" ++ h.textBefore left ++ h.render .short w ++
        h.textAfter right := by
  cases left with
  | nil => simpa [textBefore] using render_list_cons hItems
  | cons v left =>
      rw [List.cons_append] at hItems
      rw [render_list_cons hItems, textAfter_append,
        textBefore]
      simp only [String.append_assoc]

/-
  The text of a value stands in the text of whatever it is
  within, at its place, and no digit follows it there.
-/
theorem Exact.render_within
    {outer : ObjectId → Nat}
    (hExact : h.Exact outer)
    {v w : Value}
    {before after : String}
    (hWithin : h.Within v before after w)
    (hAdmits : h.admits w) :
    h.render .short w =
        before ++ h.render .short v ++ after ∧
      Outline.NoDigit after.toList := by
  induction hWithin with
  | here => simp [Outline.NoDigit]
  | @item p left right w before after hElements hWithin ih =>
      rcases hExact.elements hAdmits rfl hElements with
        ⟨hItems, hOlder⟩
      have hItem :=
        (hOlder w
          (List.mem_append_right _ List.mem_cons_self)).1
      rcases ih hItem with ⟨hText, hNext⟩
      constructor
      · rw [render_list hItems, hText]
        simp only [String.append_assoc]
      · rw [String.toList_append, toList_textAfter]
        intro c hc
        rw [List.head?_append] at hc
        cases hHead : after.toList.head? with
        | none =>
            rw [hHead, Option.none_or] at hc
            have hLast := Outline.noDigit_further
              (right.map (fun w => (h.tree w).outline)) []
            rw [List.append_nil] at hLast
            exact hLast c hc
        | some d =>
            rw [hHead, Option.some_or] at hc
            exact hNext c (hHead ▸ hc)

------------------------------------------------------------
-- Legible Heaps
------------------------------------------------------------

/-
  The short text of a value is read as the outline of what it
  unfolds into, whatever follows the text: alone, or at its
  place in the text of whatever the value is within.  Without
  closures the reader gets the whole tree, and texts are
  equal where values are.
-/
structure Legible (h : Heap κ) : Prop where
  outline :
    ∀ v t, h.Unfolds v t →
      ∀ rest, Outline.NoDigit rest.toList →
        Outline.read (h.render .short v ++ rest) =
          some (t.outline, rest)
  tree :
    ∀ v t, h.Unfolds v t → t.closureFree = true →
      ∀ rest, Outline.NoDigit rest.toList →
        Tree.read (h.render .short v ++ rest) =
          some (t, rest)
  within :
    ∀ v w before after, h.Within v before after w →
      h.admits w →
        h.render .short w =
            before ++ h.render .short v ++ after ∧
          Outline.NoDigit after.toList
  equal_iff :
    ∀ v w t u, h.Unfolds v t → h.Unfolds w u →
      t.closureFree = true → u.closureFree = true →
        (h.render .short v = h.render .short w ↔
          h.equal v w = true)

/- Heaps with exact counts are legible. -/
theorem Exact.legible
    {outer : ObjectId → Nat}
    (hExact : h.Exact outer) :
    h.Legible := by
  have hTree :
      ∀ {v t}, h.Unfolds v t → t = h.tree v :=
    fun hUnfolds =>
      (hExact.unfolds_iff hUnfolds.admits).mp hUnfolds
  have hOutline :
      ∀ v t, h.Unfolds v t →
        ∀ rest, Outline.NoDigit rest.toList →
          Outline.read (h.render .short v ++ rest) =
            some (t.outline, rest) := by
    intro v t hUnfolds rest hRest
    rw [render_short, ← hTree hUnfolds,
      Outline.read_text_append t.outline hRest]
  refine ⟨hOutline, ?_, ?_, ?_⟩
  · intro v t hUnfolds hFree rest hRest
    rw [Tree.read, hOutline v t hUnfolds rest hRest]
    simp [Outline.tree?_outline hFree]
  · intro v w before after hWithin hAdmits
    exact hExact.render_within hWithin hAdmits
  · intro v w t u hv hw hFree hFree'
    rw [render_short_eq_iff, Heap.equal_iff, ← hTree hv,
      ← hTree hw]
    constructor
    · intro hSame
      have hBoth := Outline.tree?_outline hFree
      rw [hSame, Outline.tree?_outline hFree'] at hBoth
      exact (Option.some.inj hBoth).symm
    · rintro rfl
      rfl

end Heap

------------------------------------------------------------
-- Texts of Reachable Values
------------------------------------------------------------

namespace Moment

variable {κ κ' : Type}

/-
  At every moment of every run, short texts show outlines,
  no less and no more: texts of this run and of any other are
  equal exactly when the values unfold into trees with the
  same outline, and a reader that knows nothing of either run
  gets the outline back.
-/
theorem short_texts_are_outlines
    {provides provides' : UInt64 → Bool}
    {moves : List (Move κ)}
    {moves' : List (Move κ')}
    {m : Moment κ}
    {m' : Moment κ'}
    (hHere : (fresh provides).run moves = m)
    (hThere : (fresh provides').run moves' = m') :
    m.world.heap.Legible ∧
      ∀ v w t u,
        m.world.heap.Unfolds v t →
          m'.world.heap.Unfolds w u →
            (m.world.heap.render .short v =
                m'.world.heap.render .short w ↔
              t.outline = u.outline) := by
  have hSound : m.Sound :=
    hHere ▸ sound_run_fresh provides moves
  have hSound' : m'.Sound :=
    hThere ▸ sound_run_fresh provides' moves'
  refine ⟨hSound.exact.legible, ?_⟩
  intro v w t u hv hw
  rw [Heap.render_short_eq_iff,
    (hSound.exact.unfolds_iff hv.admits).mp hv,
    (hSound'.exact.unfolds_iff hw.admits).mp hw]

/-
  A list of an empty list and of minus five in one run, and a
  list of minus five in another.
-/
theorem short_texts_are_outlines_nested :
    ∃ m m' : Moment Unit,
      (fresh (fun _ => true)).run
          [.openArray 0 .list 0,
            .closeArray 0 .list [],
            .act (.clone (.value (.integer (-5)))),
            .openArray 0 .list 2,
            .closeArray 0 .list [⟨0⟩, ⟨1⟩]] = m ∧
        (fresh (fun _ => true)).run
            [.act (.clone (.value (.integer (-5)))),
              .openArray 0 .list 1,
              .closeArray 0 .list [⟨0⟩]] = m' ∧
        Tree.read (m.world.heap.render .short (.list 1)) =
          some (.list [.list [], .integer (-5)], "") ∧
        Tree.read (m'.world.heap.render .short (.list 0)) =
          some (.list [.integer (-5)], "") ∧
        (∃ before after,
          m.world.heap.render .short (.list 1) =
              before ++
                m.world.heap.render .short (.integer (-5)) ++
                after ∧
            Tree.read
                (m.world.heap.render .short (.integer (-5)) ++
                  after) =
              some (.integer (-5), after)) ∧
        m.world.heap.render .short (.list 1) ≠
          m'.world.heap.render .short (.list 0) := by
  refine ⟨_, _, rfl, rfl, ?_⟩
  generalize hHere : (fresh _).run _ = m
  generalize hThere : (fresh _).run _ = m'
  rcases short_texts_are_outlines hHere hThere with
    ⟨hLegible, hTexts⟩
  have hLegible' := (short_texts_are_outlines hThere hHere).1
  have hInteger :
      m.world.heap.Unfolds (.integer (-5)) (.integer (-5)) :=
    .integer (-5)
  have hElements :
      m.world.heap.elements? 1 =
        some ([.list 0] ++ .integer (-5) :: []) := by
    rw [← hHere]
    rfl
  have hList :
      m.world.heap.Unfolds (.list 1)
        (.list [.list [], .integer (-5)]) :=
    .list hElements
      (.cons (.list (by rw [← hHere]; rfl) .nil)
        (.cons hInteger .nil))
  have hOther :
      m'.world.heap.Unfolds (.list 0)
        (.list [.integer (-5)]) :=
    .list (by rw [← hThere]; rfl)
      (.cons (.integer (-5)) .nil)
  have hEnd : Outline.NoDigit "".toList := by
    simp [Outline.NoDigit]
  refine ⟨?_, ?_, ?_, ?_⟩
  · have hRead := hLegible.tree _ _ hList rfl "" hEnd
    rwa [String.append_empty] at hRead
  · have hRead := hLegible'.tree _ _ hOther rfl "" hEnd
    rwa [String.append_empty] at hRead
  · have hWithin :=
      hLegible.within _ _ _ _ (.item hElements .here)
        hList.admits
    exact
      ⟨_, _, hWithin.1,
        hLegible.tree _ _ hInteger rfl _ hWithin.2⟩
  · rw [Ne, hTexts _ _ _ _ hList hOther]
    simp [Tree.outline, Tree.outlines]

end Moment

end LeasedHeap
