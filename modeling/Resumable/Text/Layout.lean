/-
  Resumable.Text.Layout
  ─────────────────────
  **COLUMNS AND QUOTED NAMES.**

  What a listing and a description are set with: padding to a minimum width,
  one on each side, joining with a separator, and the written form of a name
  between double quotes.
-/
import Resumable.Text.Hidden

namespace Resumable.Text

/-! ## §1. Columns. -/

/-- `text` with blanks before it, up to `width` characters; longer text stays whole. -/
def padLeft (width : Nat) (text : String) : String :=
  String.ofList (List.replicate (width - text.length) ' ') ++ text

/-- `text` with blanks after it, up to `width` characters; longer text stays whole. -/
def padRight (width : Nat) (text : String) : String :=
  text ++ String.ofList (List.replicate (width - text.length) ' ')

/-- The texts in order, `separator` between neighbours. -/
def joined (separator : String) (texts : List String) : String :=
  separator.intercalate texts

/-! ## §2. Digits. -/

/-- The digits of `n` in base sixteen, lower case, without leading zeros. -/
def hexDigits (n : Nat) : String :=
  String.ofList (Nat.toDigits 16 n)

/-- A byte as exactly two digits in base sixteen. -/
def hexByte (b : UInt8) : String :=
  String.ofList [Nat.digitChar (b.toNat / 16), Nat.digitChar (b.toNat % 16)]

/-! ## §3. Quoted names. -/

/-- A character as it stands between double quotes. -/
def quotedChar (c : Char) : String :=
  match c with
  | '"' => "\\\""
  | '\\' => "\\\\"
  | '\n' => "\\n"
  | '\r' => "\\r"
  | '\t' => "\\t"
  | '\x00' => "\\0"
  | c => if isHidden c then "\\u\x7b" ++ hexDigits c.val.toNat ++ "\x7d" else c.toString

/-- A name between double quotes, its special characters escaped. -/
def quoted (name : String) : String :=
  "\"" ++ String.join (name.toList.map quotedChar) ++ "\""

end Resumable.Text
