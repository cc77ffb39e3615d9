/-
  Resumable.Config
  ────────────────
  **SETTINGS OF A MACHINE**, by default or from the two settings of the
  environment: how many frames may be live at once, and whether printed lines
  are shown as well as kept.
-/
import Resumable.Text.Blank

namespace Resumable

open Text

/-- The settings of a machine. -/
structure Config where
  /-- The most frames that may be live at once. -/
  frameLimit : Nat := 1000
  /-- Whether printed lines are shown as well as kept. -/
  echo : Bool := false
  /-- Whether the environment was left unread. -/
  environmentIgnored : Bool := false
  deriving DecidableEq, Repr

namespace Config

/-- The number a decimal digit stands for. -/
def digit? (c : Char) : Option Nat :=
  if '0' ≤ c ∧ c ≤ '9' then some (c.val.toNat - 48) else none

/-- Counts are 64-bit: they lie below two to the sixty-fourth. -/
def countBound : Nat := 18446744073709551616

/-- The number of a text of decimal digits, at least one, a plus sign allowed
before them, if it is a count. -/
def count? (chars : List Char) : Option Nat := do
  let digits ← match chars with
    | '+' :: rest => rest.mapM digit?
    | _ => chars.mapM digit?
  if digits.isEmpty then none
  else
    let n := digits.foldl (fun n d => n * 10 + d) 0
    if n < countBound then some n else none

/-- The frame limit of a setting: a positive number between blanks, else the default. -/
def limitOf (setting : Option String) : Nat :=
  match setting.bind (fun text => count? (trimmed text)) with
  | some (n + 1) => n + 1
  | _ => ({} : Config).frameLimit

/-- A switch is on when it is set to anything but nothing or zero. -/
def switchOf (setting : Option String) : Bool :=
  setting.any (fun text => text != "" && text != "0")

/-- The settings of an environment with the given limit and echo settings,
unless the environment is to be ignored. -/
def resolve (ignore : Bool) (limit echo : Option String) : Config :=
  if ignore then { environmentIgnored := true }
  else { frameLimit := limitOf limit, echo := switchOf echo }

/-- Set the frame limit; one frame can always be live. -/
def withFrameLimit (c : Config) (limit : Nat) : Config :=
  { c with frameLimit := max limit 1 }

/-- Set whether printed lines are shown. -/
def withEcho (c : Config) (echo : Bool) : Config :=
  { c with echo := echo }

end Config

end Resumable
