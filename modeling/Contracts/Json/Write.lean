import Contracts.Json.Basic

/-!
# Writing JSON text

Two layouts: `compact` without any blank, and `pretty` with one entry to a line and two blanks of
indentation for each level. In both, an empty container is written without a break. A string
escapes the quote, the backslash and the control characters, nothing else.

A value that stands for no number or no text is written as one that reads back as such.
-/

set_option autoImplicit false

namespace Contracts.Json

/-- The hexadecimal digit of a number below sixteen. -/
def hexDigit (n : Nat) : Char :=
  if n < 10 then Char.ofNat ('0'.toNat + n) else Char.ofNat ('a'.toNat + (n - 10))

/-- How a character stands in a string. -/
def escapeChar (c : Char) : List Char :=
  if c = '"' then ['\\', '"']
  else if c = '\\' then ['\\', '\\']
  else if c = '\n' then ['\\', 'n']
  else if c = '\r' then ['\\', 'r']
  else if c = '\t' then ['\\', 't']
  else if c = '\x08' then ['\\', 'b']
  else if c = '\x0c' then ['\\', 'f']
  else if c.toNat < 0x20 then
    ['\\', 'u', '0', '0', hexDigit (c.toNat / 16), hexDigit (c.toNat % 16)]
  else [c]

/-- A string in quotes. -/
def quoted (s : String) : String :=
  "\"" ++ String.ofList (s.toList.flatMap escapeChar) ++ "\""

/-- The text of a value that is no container. -/
def scalarText : Json → String
  | .null => "null"
  | .bool true => "true"
  | .bool false => "false"
  | .int n => toString n
  | .fraction => "-0"
  | .unreadable => "\"\\ud800\""
  | .string s => quoted s
  | .array _ => "[]"
  | .object _ => "\x7b\x7d"

mutual

/-- The text of a value without blanks. -/
def compact : Json → String
  | .array items => "[" ++ ",".intercalate (compactItems items) ++ "]"
  | .object entries => "\x7b" ++ ",".intercalate (compactEntries entries) ++ "\x7d"
  | j => scalarText j

def compactItems : List Json → List String
  | [] => []
  | j :: rest => compact j :: compactItems rest

def compactEntries : List (String × Json) → List String
  | [] => []
  | (key, j) :: rest => (quoted key ++ ":" ++ compact j) :: compactEntries rest

end

/-- The blanks at the start of a line of some level. -/
def indentation (level : Nat) : String := "".pushn ' ' (2 * level)

/-- A container over several lines. -/
def layout (opening closing : String) (level : Nat) (parts : List String) : String :=
  if parts.isEmpty then opening ++ closing
  else
    let lines := parts.map fun part => "\n" ++ indentation (level + 1) ++ part
    opening ++ ",".intercalate lines ++ "\n" ++ indentation level ++ closing

mutual

/-- The text of a value over several lines; `level` is that of the line it starts on. -/
def prettyAt (level : Nat) : Json → String
  | .array items => layout "[" "]" level (prettyItems (level + 1) items)
  | .object entries => layout "\x7b" "\x7d" level (prettyEntries (level + 1) entries)
  | j => scalarText j

def prettyItems (level : Nat) : List Json → List String
  | [] => []
  | j :: rest => prettyAt level j :: prettyItems level rest

def prettyEntries (level : Nat) : List (String × Json) → List String
  | [] => []
  | (key, j) :: rest => (quoted key ++ ": " ++ prettyAt level j) :: prettyEntries level rest

end

/-- The text of a value over several lines. -/
def pretty (j : Json) : String := prettyAt 0 j

end Contracts.Json
