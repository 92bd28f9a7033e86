/-
  Interproc.Text.Inspect
  ──────────────────────
  The detailed text of a value, for log lines and traces: constructors and field
  names are spelled out and strings are quoted, all on one line.  The short text
  of a value, which reports show, is its `ToString` text.
-/
import Interproc.Text.Combining
import Interproc.Text.Invisible

namespace Interproc

/-- Values with a detailed text. -/
class Inspect (α : Type) where
  /-- The detailed text, on one line. -/
  inspect : α → String

export Inspect (inspect)

namespace Text

/-! ## §1. Numbers. -/

/-- A number in base sixteen with capital digits, marked by `0x`. -/
def hex (n : Nat) : String := "0x" ++ (String.ofList (Nat.toDigits 16 n)).toUpper

/-! ## §2. Quoted strings. -/

/-- Whether a character shows as itself in quoted text. -/
def isPrintable (c : Char) : Bool := !invisible.contains c && !combining.contains c

/-- A character as it stands in quoted text: the quote and the backslash are escaped, and so is
every character that would not show. -/
def quotedChar (c : Char) : String :=
  if c = '"' then "\\\""
  else if c = '\\' then "\\\\"
  else if c = '\n' then "\\n"
  else if c = '\t' then "\\t"
  else if c = '\r' then "\\r"
  else if c.toNat = 0 then "\\0"
  else if isPrintable c then c.toString
  else "\\u\x7b" ++ String.ofList (Nat.toDigits 16 c.toNat) ++ "\x7d"

/-- A string between quotes. -/
def quoted (s : String) : String := "\"" ++ String.join (s.toList.map quotedChar) ++ "\""

/-! ## §3. Composite values. -/

/-- Texts between braces, separated by commas. -/
def braced (items : List String) : String := "\x7b" ++ ", ".intercalate items ++ "\x7d"

/-- Texts between brackets, separated by commas. -/
def bracketed (items : List String) : String := "[" ++ ", ".intercalate items ++ "]"

/-- A constructor applied to arguments. -/
def applied (name : String) (arguments : List String) : String :=
  name ++ "(" ++ ", ".intercalate arguments ++ ")"

/-- A constructor with named fields. -/
def record (name : String) (fields : List (String × String)) : String :=
  name ++ " \x7b " ++ ", ".intercalate (fields.map fun f => f.1 ++ ": " ++ f.2) ++ " \x7d"

end Text

instance : Inspect Nat := ⟨toString⟩

instance : Inspect Bool := ⟨fun b => if b then "true" else "false"⟩

instance : Inspect String := ⟨Text.quoted⟩

instance {α : Type} [Inspect α] : Inspect (List α) := ⟨fun l => Text.bracketed (l.map inspect)⟩

end Interproc
