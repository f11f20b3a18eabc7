import LeasedHeap.ApplyError
import LeasedHeap.Equality
import LeasedHeap.Text
import LeasedHeap.World

/-
  Programs that work on a world.

  A program asks about the world, acts on it, makes arrays
  from items that are pulled while the array call runs, and
  applies closures.  It is data, so nothing that a program
  does escapes these five forms.

  Key definitions include:
    * `Query`
    * `Action`
    * `Program`
    * `World.answer`
    * `World.act`
-/

namespace LeasedHeap

------------------------------------------------------------
-- Queries
------------------------------------------------------------

/- What can be asked without changing anything. -/
inductive Query where
/- A collector's configuration and counters. -/
| collector : CollectorId → Query
/- What a handle refers to. -/
| ref : Handle → Query
/- The lease and the items of a payload. -/
| payload : ObjectId → Query
/- Two sequences are as long and equal item by item. -/
| equal : List Value → List Value → Query
/- The text of a value. -/
| render : Style → Value → Query
/- The text of a row of values. -/
| renderRow : List Value → Query

/- The type of an answer. -/
abbrev Query.Reply : Query → Type
| .collector _ => Collector
| .ref _ => Option Ref
| .payload _ => Option Payload
| .equal _ _ => Bool
| .render _ _ => String
| .renderRow _ => String

/- Answer a query. -/
def World.answer
    {κ : Type}
    (w : World κ) : (q : Query) → q.Reply
| .collector c => w.heap.collector c
| .ref x => w.ref? x
| .payload p => w.heap.payload? p
| .equal vs ws => w.heap.equalItems vs ws
| .render style v => w.heap.render style v
| .renderRow vs => w.heap.renderRow vs

------------------------------------------------------------
-- Actions
------------------------------------------------------------

/- What can be done in one go. -/
inductive Action (κ : Type) where
| newCollector : Config → Action κ
| resetPeak : CollectorId → Action κ
| allocate : CollectorId → UInt64 → Action κ
| clone : Ref → Action κ
| drop : Handle → Action κ
| writeNumber : Handle → Nat → UInt64 → Action κ
| writeValue : Handle → Nat → Handle → Action κ
| newCode : κ → List Handle → List Handle → Action κ

/- The type of what an action gives back. -/
abbrev Action.Reply {κ : Type} : Action κ → Type
| .newCollector _ => CollectorId
| .resetPeak _ => Unit
| .allocate _ _ => Except Refusal Handle
| .clone _ => Option Handle
| .drop _ => Bool
| .writeNumber _ _ _ => Written
| .writeValue _ _ _ => Written
| .newCode _ _ _ => Handle

/- Carry out an action. -/
def World.act
    {κ : Type}
    (w : World κ) : (a : Action κ) → a.Reply × World κ
| .newCollector config => w.newCollector config
| .resetPeak c => ((), w.resetPeak c)
| .allocate c size => w.allocate c size
| .clone r => w.clone r
| .drop x => w.drop x
| .writeNumber x i n => w.writeNumber x i n
| .writeValue x i item => w.writeValue x i item
| .newCode body values codes => w.newCode body values codes

------------------------------------------------------------
-- Programs
------------------------------------------------------------

/- What an application or a code comes to. -/
abbrev Outcome :=
  Except ApplyError Handle

/-
  A program that ends in an `α`.

  `array c s hint owned items rest` makes an array in
  collector `c` from a source that announces at least `hint`
  items.  The source holds the handles `owned` from the
  start; they are dropped if the call is refused before any
  item is pulled.  Otherwise the program `items` pulls the
  items, while the announced bytes are reserved.

  `apply f args rest` applies a value to values; `rest` is
  given nothing if the value is no closure.
-/
inductive Program (κ : Type) : Type → Type 1 where
| done {α : Type} : α → Program κ α
| ask {α : Type} :
    (q : Query) → (q.Reply → Program κ α) → Program κ α
| act {α : Type} :
    (a : Action κ) → (a.Reply → Program κ α) → Program κ α
| array {α : Type} :
    CollectorId → (s : Shape) → UInt64 → List Handle →
    Program κ (List s.Item) →
    (Except Refusal Handle → Program κ α) → Program κ α
| apply {α : Type} :
    Value → List Value →
    (Option Outcome → Program κ α) → Program κ α

namespace Program

variable {κ α β : Type}

/- One program after another. -/
def bind {α : Type} :
    Program κ α → (α → Program κ β) → Program κ β
| .done a, f => f a
| .ask q rest, f => .ask q (fun r => (rest r).bind f)
| .act a rest, f => .act a (fun r => (rest r).bind f)
| .array c s hint owned items rest, f =>
    .array c s hint owned items (fun r => (rest r).bind f)
| .apply v args rest, f =>
    .apply v args (fun r => (rest r).bind f)

instance : Monad (Program κ) where
  pure := .done
  bind := bind

/- Ask one query. -/
def query (q : Query) : Program κ q.Reply :=
  .ask q .done

/- Do one action. -/
def perform (a : Action κ) : Program κ a.Reply :=
  .act a .done

/- Make one array. -/
def makeArray
    (c : CollectorId)
    (s : Shape)
    (hint : UInt64)
    (owned : List Handle)
    (items : Program κ (List s.Item)) :
    Program κ (Except Refusal Handle) :=
  .array c s hint owned items .done

/- Apply one value. -/
def call
    (f : Value)
    (args : List Value) : Program κ (Option Outcome) :=
  .apply f args .done

end Program

end LeasedHeap
