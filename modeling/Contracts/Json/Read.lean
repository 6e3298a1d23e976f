import Contracts.Json.Number

/-!
# Reading JSON text

The text is cut into tokens, and a machine with a stack of open containers builds the value from
them, so nesting costs no recursion. Only the four blanks of the format stand between tokens, and
one value has to use up all of the text.
-/

set_option autoImplicit false

namespace Contracts.Json

/-! ## Strings -/

/-- A piece of a string: a character as written, or the 16-bit unit of a `\u` escape. -/
inductive Piece where
  | char (c : Char)
  | unit (n : Nat)

/-- The value of a hexadecimal digit. -/
def hexValue? (c : Char) : Option Nat :=
  if c.isDigit then some (c.toNat - '0'.toNat)
  else if 'a' ≤ c ∧ c ≤ 'f' then some (c.toNat - 'a'.toNat + 10)
  else if 'A' ≤ c ∧ c ≤ 'F' then some (c.toNat - 'A'.toNat + 10)
  else none

/-- The value of four hexadecimal digits. -/
def hexUnit? (a b c d : Char) : Option Nat := do
  let a ← hexValue? a
  let b ← hexValue? b
  let c ← hexValue? c
  let d ← hexValue? d
  return ((a * 16 + b) * 16 + c) * 16 + d

/-- The character that a one-letter escape stands for. -/
def escaped? : Char → Option Char
  | '"' => some '"'
  | '\\' => some '\\'
  | '/' => some '/'
  | 'b' => some '\x08'
  | 'f' => some '\x0c'
  | 'n' => some '\n'
  | 'r' => some '\r'
  | 't' => some '\t'
  | _ => none

/-- The pieces of a string up to its closing quote, and the text behind the quote. -/
def scanString (acc : List Piece) : List Char → Option (List Piece × List Char)
  | [] => none
  | '"' :: rest => some (acc.reverse, rest)
  | '\\' :: 'u' :: a :: b :: c :: d :: rest =>
    match hexUnit? a b c d with
    | some n => scanString (.unit n :: acc) rest
    | none => none
  | '\\' :: c :: rest =>
    match escaped? c with
    | some c => scanString (.char c :: acc) rest
    | none => none
  | c :: rest =>
    if c.toNat < 0x20 || c == '\\' then none else scanString (.char c :: acc) rest

theorem length_scanString {acc ps : List Piece} {cs rest : List Char}
    (h : scanString acc cs = some (ps, rest)) : rest.length < cs.length := by
  fun_induction scanString acc cs with
  | case1 => cases h
  | case2 => cases h; simp
  | case3 acc a b c d r n hn ih => have := ih h; simp only [List.length_cons]; omega
  | case4 => cases h
  | case5 acc c r _ e he ih => have := ih h; simp only [List.length_cons]; omega
  | case6 => cases h
  | case7 => cases h
  | case8 acc c r _ _ _ _ ih => have := ih h; simp only [List.length_cons]; omega

/-- The text of a string; none where a surrogate has no partner. A pair of escapes, a high and a
low surrogate, is one character. -/
def joinPieces : List Piece → Option (List Char)
  | [] => some []
  | .char c :: rest => (joinPieces rest).map (c :: ·)
  | .unit n :: rest =>
    if 0xD800 ≤ n ∧ n < 0xDC00 then
      match rest with
      | .unit m :: rest =>
        if 0xDC00 ≤ m ∧ m < 0xE000 then
          (joinPieces rest).map (Char.ofNat (0x10000 + (n - 0xD800) * 0x400 + (m - 0xDC00)) :: ·)
        else none
      | _ => none
    else if 0xDC00 ≤ n ∧ n < 0xE000 then none
    else (joinPieces rest).map (Char.ofNat n :: ·)

/-! ## Tokens -/

/-- A token. The text of a string is missing where it cannot be represented. -/
inductive Token where
  | openArray | closeArray | openObject | closeObject | colon | comma
  | text (value : Option String)
  /-- A number, `true`, `false` or `null`. -/
  | scalar (value : Json)

/-- The four blanks of the format. -/
def isBlank (c : Char) : Bool := c == ' ' || c == '\n' || c == '\t' || c == '\r'

/-- The characters of number literals. -/
def isNumberChar (c : Char) : Bool :=
  c.isDigit || c == '-' || c == '+' || c == '.' || c == 'e' || c == 'E'

/-- The value of a word. -/
def keyword? (cs : List Char) : Option Json :=
  if cs = ['n', 'u', 'l', 'l'] then some .null
  else if cs = ['t', 'r', 'u', 'e'] then some (.bool true)
  else if cs = ['f', 'a', 'l', 's', 'e'] then some (.bool false)
  else none

/-- The token of one character. -/
def punctuation? : Char → Option Token
  | '[' => some .openArray
  | ']' => some .closeArray
  | '{' => some .openObject
  | '}' => some .closeObject
  | ':' => some .colon
  | ',' => some .comma
  | _ => none

theorem length_dropWhile_le (p : Char → Bool) (cs : List Char) :
    (cs.dropWhile p).length ≤ cs.length := (List.dropWhile_sublist p).length_le

/-- The tokens of a text. -/
def tokens (cs : List Char) : Option (List Token) :=
  match cs with
  | [] => some []
  | c :: cs =>
    if isBlank c then tokens cs
    else if c == '"' then
      match h : scanString [] cs with
      | some (pieces, rest) =>
        have := length_scanString h
        (tokens rest).map (.text ((joinPieces pieces).map String.ofList) :: ·)
      | none => none
    else if isNumberChar c && c != 'e' && c != 'E' then
      have := length_dropWhile_le isNumberChar cs
      match Literal.read? (c :: cs.takeWhile isNumberChar) with
      | some l => (tokens (cs.dropWhile isNumberChar)).map (.scalar l.toJson :: ·)
      | none => none
    else if c.isAlpha then
      have := length_dropWhile_le Char.isAlpha cs
      match keyword? (c :: cs.takeWhile Char.isAlpha) with
      | some j => (tokens (cs.dropWhile Char.isAlpha)).map (.scalar j :: ·)
      | none => none
    else match punctuation? c with
      | some t => (tokens cs).map (t :: ·)
      | none => none
termination_by cs.length
decreasing_by
  all_goals
    simp only [List.length_cons]
    omega

/-! ## Values -/

/-- An open container with what it holds so far, the last part first. -/
inductive Frame where
  | array (items : List Json)
  /-- The entries before the one of `key`; a key is missing where it cannot be represented. -/
  | object (entries : List (Option String × Json)) (key : Option String)

/-- What may come next. -/
inductive Expect where
  | value
  /-- A value, or the end of an array just opened. -/
  | valueOrClose
  /-- A key, or the end of an object just opened. -/
  | keyOrClose
  | key (entries : List (Option String × Json))
  | colon
  /-- A comma or the end of the innermost container, or of the text. -/
  | separator (last : Json)

/-- The machine: what comes next, inside which containers, the innermost first. -/
structure Machine where
  expect : Expect
  stack : List Frame

/-- The object with these entries, the last first. One key that cannot be represented makes the
object so. -/
def objectOf (entries : List (Option String × Json)) : Json :=
  match entries.reverse.mapM fun (key, j) => key.map fun k => (k, j) with
  | some entries => .object entries
  | none => .unreadable

/-- One token. -/
def Machine.step (m : Machine) (t : Token) : Option Machine :=
  match m.expect, t with
  | .value, .scalar j | .valueOrClose, .scalar j => some ⟨.separator j, m.stack⟩
  | .value, .text s | .valueOrClose, .text s =>
    some ⟨.separator (match s with | some s => .string s | none => .unreadable), m.stack⟩
  | .value, .openArray | .valueOrClose, .openArray => some ⟨.valueOrClose, .array [] :: m.stack⟩
  | .value, .openObject | .valueOrClose, .openObject => some ⟨.keyOrClose, m.stack⟩
  | .valueOrClose, .closeArray => match m.stack with
    | .array _ :: stack => some ⟨.separator (.array []), stack⟩
    | _ => none
  | .keyOrClose, .closeObject => some ⟨.separator (.object []), m.stack⟩
  | .keyOrClose, .text key => some ⟨.colon, .object [] key :: m.stack⟩
  | .key entries, .text key => some ⟨.colon, .object entries key :: m.stack⟩
  | .colon, .colon => some ⟨.value, m.stack⟩
  | .separator j, .comma => match m.stack with
    | .array items :: stack => some ⟨.value, .array (j :: items) :: stack⟩
    | .object entries key :: stack => some ⟨.key ((key, j) :: entries), stack⟩
    | [] => none
  | .separator j, .closeArray => match m.stack with
    | .array items :: stack => some ⟨.separator (.array (j :: items).reverse), stack⟩
    | _ => none
  | .separator j, .closeObject => match m.stack with
    | .object entries key :: stack => some ⟨.separator (objectOf ((key, j) :: entries)), stack⟩
    | _ => none
  | _, _ => none

/-- The value of a list of tokens. -/
def ofTokens (ts : List Token) : Option Json :=
  match ts.foldlM Machine.step ⟨.value, []⟩ with
  | some ⟨.separator j, []⟩ => some j
  | _ => none

/-- The value that a text denotes. -/
def read (text : String) : Option Json := tokens text.toList >>= ofTokens

end Contracts.Json
