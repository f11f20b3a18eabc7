/-
  Excerpts of long texts: the length, both ends and a digest
  instead of the text.

  Key definitions include:
    * `Excerpt`
    * `Excerpt.digest`
    * `Excerpt.ofText`
-/

namespace LeasedHeap

/- A text, or what is shown of a long one. -/
inductive Excerpt where
| whole : String → Excerpt
/- The bytes, the first and last characters, a digest. -/
| clipped : Nat → String → String → UInt32 → Excerpt
deriving DecidableEq, Repr

namespace Excerpt

/- The number of characters shown of each end. -/
def endLength : Nat :=
  24

/-
  The digest of a text: from a fixed start, each byte is
  mixed in and the result multiplied by a fixed prime,
  modulo `2 ^ 32`.
-/
def digest (text : String) : UInt32 :=
  text.toUTF8.foldl
    (fun d b => (d ^^^ b.toUInt32) * 16777619) 2166136261

/- Show a text whole if it is at most so many bytes long. -/
def ofText
    (most : Nat)
    (text : String) : Excerpt :=
  if text.utf8ByteSize ≤ most then
    .whole text
  else
    .clipped text.utf8ByteSize
      (text.take endLength).toString
      (text.takeEnd endLength).toString
      (digest text)

end Excerpt

end LeasedHeap
