/-
  Interproc.Json.Value
  ────────────────────
  JSON documents: values, reading them from text, and writing text.

  Reading is strict about the grammar and lenient about what nobody looks at: a
  string whose escapes do not spell a text is still a string (`string none`), and
  a number that is not written as plain digits is still a number (`number`).  Only
  who asks for a text or a natural number finds out.
-/

namespace Interproc.Json

/-- A JSON value. -/
inductive Value where
  | null
  | bool (b : Bool)
  /-- A number written as plain digits. -/
  | natural (n : Nat)
  /-- A number with a sign, a fraction or an exponent. -/
  | number
  /-- A string, and its text unless its escapes spell none. -/
  | string (text : Option String)
  | array (items : List Value)
  /-- An object, with its keys in order of appearance. -/
  | object (fields : List (Option String × Value))

/-! ## §1. Numbers and strings. -/

/-- Drop the blanks before a token. -/
def skipBlanks (cs : List Char) : List Char :=
  cs.dropWhile fun c => c = ' ' || c = '\t' || c = '\n' || c = '\r'

/-- The digits that a text starts with, and the rest. -/
def digits (cs : List Char) : List Char × List Char :=
  (cs.takeWhile Char.isDigit, cs.dropWhile Char.isDigit)

/-- At least one digit, and the rest. -/
def digits? (cs : List Char) : Option (List Char × List Char) :=
  match digits cs with
  | ([], _) => none
  | found => some found

/-- The digits of an integer without superfluous zeros, and the rest. -/
def integer? : List Char → Option (List Char × List Char)
  | '0' :: rest => some (['0'], rest)
  | cs => digits? cs

/-- The rest after an optional fraction, and whether there was one. -/
def fraction? : List Char → Option (Bool × List Char)
  | '.' :: rest => (digits? rest).map fun found => (true, found.2)
  | cs => some (false, cs)

/-- The rest after an optional exponent, and whether there was one. -/
def exponent? : List Char → Option (Bool × List Char)
  | c :: rest =>
    if c = 'e' || c = 'E' then
      let unsigned := match rest with
        | '+' :: r => r
        | '-' :: r => r
        | r => r
      (digits? unsigned).map fun found => (true, found.2)
    else some (false, c :: rest)
  | [] => some (false, [])

/-- The number that some digits denote. -/
def denoted (ds : List Char) : Nat := ds.foldl (fun n d => 10 * n + (d.toNat - '0'.toNat)) 0

/-- A number, and the rest. -/
def number? (cs : List Char) : Option (Value × List Char) := do
  let (negative, cs) := match cs with
    | '-' :: rest => (true, rest)
    | cs => (false, cs)
  let (ds, cs) ← integer? cs
  let (fraction, cs) ← fraction? cs
  let (exponent, cs) ← exponent? cs
  return (if negative || fraction || exponent then .number else .natural (denoted ds), cs)

/-- What stands between quotes: characters, and code units written as numbers. -/
inductive Piece where
  | char (c : Char)
  | unit (n : Nat)

/-- The value of a digit in base sixteen. -/
def hexDigit? (c : Char) : Option Nat :=
  if c.isDigit then some (c.toNat - '0'.toNat)
  else if 'a' ≤ c && c ≤ 'f' then some (c.toNat - 'a'.toNat + 10)
  else if 'A' ≤ c && c ≤ 'F' then some (c.toNat - 'A'.toNat + 10)
  else none

/-- The value of four digits in base sixteen. -/
def codeUnit? (a b c d : Char) : Option Nat := do
  return (((← hexDigit? a) * 16 + (← hexDigit? b)) * 16 + (← hexDigit? c)) * 16 + (← hexDigit? d)

/-- The character that a one-letter escape stands for. -/
def escaped? : Char → Option Char
  | '"' => some '"'
  | '\\' => some '\\'
  | '/' => some '/'
  | 'b' => some '\x08'
  | 'f' => some '\x0c'
  | 'n' => some '\n'
  | 'r' => some '\r'
  | 't' => some '\t'
  | _ => none

/-- The pieces of a string up to its closing quote, and the rest. -/
def pieces? : List Char → Option (List Piece × List Char)
  | [] => none
  | '"' :: rest => some ([], rest)
  | '\\' :: 'u' :: a :: b :: c :: d :: rest => do
    let n ← codeUnit? a b c d
    let (ps, rest) ← pieces? rest
    return (.unit n :: ps, rest)
  | '\\' :: e :: rest => do
    let c ← escaped? e
    let (ps, rest) ← pieces? rest
    return (.char c :: ps, rest)
  | c :: rest =>
    if c.toNat < 0x20 then none
    else do
      let (ps, rest) ← pieces? rest
      return (.char c :: ps, rest)

/-- The text that some pieces spell.  A code unit of a pair has to stand in a pair. -/
def spelled? : List Piece → Option (List Char)
  | [] => some []
  | .char c :: rest => (spelled? rest).map (c :: ·)
  | .unit h :: .unit l :: rest =>
    if 0xD800 ≤ h && h < 0xDC00 then
      if 0xDC00 ≤ l && l < 0xE000 then
        (spelled? rest).map (Char.ofNat (0x10000 + (h - 0xD800) * 0x400 + (l - 0xDC00)) :: ·)
      else none
    else if 0xDC00 ≤ h && h < 0xE000 then none
    else (spelled? (.unit l :: rest)).map (Char.ofNat h :: ·)
  | .unit h :: rest =>
    if 0xD800 ≤ h && h < 0xE000 then none
    else (spelled? rest).map (Char.ofNat h :: ·)

/-- A string after its opening quote: its text, if its escapes spell one, and the rest. -/
def string? (cs : List Char) : Option (Option String × List Char) := do
  let (ps, rest) ← pieces? cs
  return ((spelled? ps).map String.ofList, rest)

/-! ## §2. Values. -/

mutual

/-- A value nested at most `n` levels deep, and the rest. -/
def value? : Nat → List Char → Option (Value × List Char)
  | 0, _ => none
  | n + 1, cs =>
    match skipBlanks cs with
    | 'n' :: 'u' :: 'l' :: 'l' :: rest => some (.null, rest)
    | 't' :: 'r' :: 'u' :: 'e' :: rest => some (.bool true, rest)
    | 'f' :: 'a' :: 'l' :: 's' :: 'e' :: rest => some (.bool false, rest)
    | '"' :: rest => (string? rest).map fun found => (.string found.1, found.2)
    | '[' :: rest =>
      match skipBlanks rest with
      | ']' :: rest => some (.array [], rest)
      | rest => (items? n rest).map fun found => (.array found.1, found.2)
    | '\x7b' :: rest =>
      match skipBlanks rest with
      | '\x7d' :: rest => some (.object [], rest)
      | rest => (fields? n rest).map fun found => (.object found.1, found.2)
    | rest => number? rest

/-- The items of an array up to its closing bracket, and the rest. -/
def items? : Nat → List Char → Option (List Value × List Char)
  | 0, _ => none
  | n + 1, cs => do
    let (item, rest) ← value? n cs
    match skipBlanks rest with
    | ',' :: rest => (items? n rest).map fun found => (item :: found.1, found.2)
    | ']' :: rest => some ([item], rest)
    | _ => none

/-- The fields of an object up to its closing brace, and the rest. -/
def fields? : Nat → List Char → Option (List (Option String × Value) × List Char)
  | 0, _ => none
  | n + 1, cs =>
    match skipBlanks cs with
    | '"' :: rest => do
      let (key, rest) ← string? rest
      match skipBlanks rest with
      | ':' :: rest => do
        let (item, rest) ← value? n rest
        match skipBlanks rest with
        | ',' :: rest => (fields? n rest).map fun found => ((key, item) :: found.1, found.2)
        | '\x7d' :: rest => some ([(key, item)], rest)
        | _ => none
      | _ => none
    | _ => none

end

/-- Read a document.  Each level of nesting, and each item of an array or object, takes a
character of its own, so twice the length of the text bounds the recursion. -/
def parse? (text : String) : Option Value :=
  match value? (2 * text.length + 2) text.toList with
  | some (found, rest) => if (skipBlanks rest).isEmpty then some found else none
  | none => none

/-! ## §3. Questions to a value. -/

namespace Value

/-- A natural number of at most 64 bits. -/
def nat? : Value → Option Nat
  | .natural n => if n ≤ 0xFFFFFFFFFFFFFFFF then some n else none
  | _ => none

/-- A truth value. -/
def bool? : Value → Option Bool
  | .bool b => some b
  | _ => none

/-- A text. -/
def text? : Value → Option String
  | .string text => text
  | _ => none

/-- The items of an array. -/
def items? : Value → Option (List Value)
  | .array items => some items
  | _ => none

/-- The fields of a record. -/
structure Fields where
  /-- The value of a field, if it was given. -/
  get? : String → Option Value
  /-- Whether the fields were given by position. -/
  positional : Bool

/-- A record with the given field names, in order.  It may be an object, in which unknown keys
are ignored and known ones stand at most once, or an array of the first fields. -/
def record? (names : List String) : Value → Option Fields
  | .array items =>
    if items.length ≤ names.length then
      some ⟨fun name => ((names.zip items).find? fun e => e.1 = name).map Prod.snd, true⟩
    else none
  | .object fields => do
    let keyed ← fields.mapM fun f => f.1.map fun key => (key, f.2)
    if names.all fun name => (keyed.filter fun f => f.1 = name).length ≤ 1 then
      some ⟨fun name => (keyed.find? fun f => f.1 = name).map Prod.snd, false⟩
    else none
  | _ => none

/-- An alternative of a choice: a bare name, or an object with the name as its only key. -/
def alternative? : Value → Option (String × Option Value)
  | .string text => text.map fun name => (name, none)
  | .object [(key, payload)] => key.map fun name => (name, some payload)
  | _ => none

/-- Whether an alternative without fields was given as it has to be. -/
def isPlain : Option Value → Bool
  | none => true
  | some .null => true
  | some _ => false

end Value

/-! ## §4. Writing. -/

/-- A character as it stands in a written string. -/
def writtenChar (c : Char) : String :=
  if c = '"' then "\\\""
  else if c = '\\' then "\\\\"
  else if c = '\n' then "\\n"
  else if c = '\r' then "\\r"
  else if c = '\t' then "\\t"
  else if c.toNat = 0x08 then "\\b"
  else if c.toNat = 0x0C then "\\f"
  else if c.toNat < 0x10 then "\\u000" ++ String.ofList (Nat.toDigits 16 c.toNat)
  else if c.toNat < 0x20 then "\\u00" ++ String.ofList (Nat.toDigits 16 c.toNat)
  else c.toString

/-- A written string. -/
def written (s : String) : String := "\"" ++ String.join (s.toList.map writtenChar) ++ "\""

/-- A written array of written items. -/
def writtenArray (items : List String) : String := "[" ++ ",".intercalate items ++ "]"

/-- A written object of written fields. -/
def writtenObject (fields : List (String × String)) : String :=
  "\x7b" ++ ",".intercalate (fields.map fun f => written f.1 ++ ":" ++ f.2) ++ "\x7d"

end Interproc.Json
