import LeasedHeap.Word

/-
  Byte limits and the configuration of a collector.

  Key definitions include:
    * `Limit`
    * `Limit.admits`
    * `Config`
    * `Config.ofSettings`
-/

namespace LeasedHeap

------------------------------------------------------------
-- Limits
------------------------------------------------------------

/-
  The most bytes that may be live at once.  No number means
  that any amount may be.
-/
structure Limit where
  bytes : Option UInt64
deriving DecidableEq, Repr

namespace Limit

/- No bound at all. -/
def unlimited : Limit :=
  ⟨none⟩

/- A live byte count within the limit; equality is within. -/
def admits
    (l : Limit)
    (live : UInt64) : Bool :=
  match l.bytes with
  | none => true
  | some bound => decide (live ≤ bound)

/- The limit in words, as refusals quote it. -/
def text (l : Limit) : String :=
  match l.bytes with
  | none => "no limit"
  | some bound => "limit: " ++ toString bound ++ " bytes"

/- The structure of a limit, spelled out. -/
def debug (l : Limit) : String :=
  match l.bytes with
  | none => "HeapLimit(None)"
  | some bound => "HeapLimit(Some(" ++ toString bound ++ "))"

end Limit

------------------------------------------------------------
-- Configurations
------------------------------------------------------------

/- What a collector is made with. -/
structure Config where
  limit : Limit
deriving DecidableEq, Repr

namespace Config

/- Collectors are unlimited unless told otherwise. -/
def standard : Config :=
  ⟨.unlimited⟩

/- The structure of a configuration, spelled out. -/
def debug (c : Config) : String :=
  "HeapConfig \x7b limit: " ++ c.limit.debug ++ " \x7d"

/- One setting of a configuration. -/
inductive Setting where
| bytes : UInt64 → Setting
| mebibytes : UInt64 → Setting
| standard : Setting
deriving DecidableEq, Repr

/- The bytes in a mebibyte. -/
def mebibyte : UInt64 :=
  1048576

/-
  Apply one setting.  A number of mebibytes beyond the words
  stands for the largest word.
-/
def set
    (c : Config) : Setting → Config
| .bytes n => { c with limit := ⟨some n⟩ }
| .mebibytes n =>
    { c with limit := ⟨some (Word.satMul n mebibyte)⟩ }
| .standard => standard

/- Settings apply in order, on top of the standard. -/
def ofSettings (settings : List Setting) : Config :=
  settings.foldl set standard

end Config

end LeasedHeap
