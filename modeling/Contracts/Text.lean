/-!
# Text

Scanning of text as a list of characters: blanks, lines, words, and decimal integers. Blanks are
the characters with the Unicode property `White_Space`.
-/

set_option autoImplicit false

namespace Contracts.Text

/-- The blanks beyond the Latin range that are no run: each by its code point. -/
def singleBlanks : List Nat :=
  [0x20, 0x85, 0xA0, 0x1680, 0x2028, 0x2029, 0x202F, 0x205F, 0x3000]

/-- Whether a character is a blank. -/
def isBlank (c : Char) : Bool :=
  let n := c.toNat
  (0x09 ≤ n && n ≤ 0x0D) || (0x2000 ≤ n && n ≤ 0x200A) || singleBlanks.contains n

/-- Drops the characters of a class from the end. -/
def dropWhileEnd (p : Char → Bool) (cs : List Char) : List Char :=
  (cs.reverse.dropWhile p).reverse

/-- Drops the blanks at the start. -/
def trimStart (cs : List Char) : List Char := cs.dropWhile isBlank

/-- Drops the blanks at both ends. -/
def trim (cs : List Char) : List Char := dropWhileEnd isBlank (trimStart cs)

/-- What follows the given characters at the start of a text. -/
def strip? : List Char → List Char → Option (List Char)
  | [], cs => some cs
  | _ :: _, [] => none
  | p :: ps, c :: cs => if p = c then strip? ps cs else none

/-- Whether a text starts with the given characters. -/
def startsWith (start cs : List Char) : Bool := (strip? start cs).isSome

/-- Whether the given characters stand somewhere in a text. -/
def occursIn (part : List Char) : List Char → Bool
  | [] => part.isEmpty
  | c :: cs => startsWith part (c :: cs) || occursIn part cs

/-- The parts of a text between the occurrences of a separator. -/
def splitAt (separator : Char) : List Char → List (List Char)
  | [] => [[]]
  | c :: cs =>
    if c = separator then [] :: splitAt separator cs
    else match splitAt separator cs with
      | part :: parts => (c :: part) :: parts
      | [] => [[c]]

/-- The lines of a text, without the blanks around them. -/
def trimmedLines (cs : List Char) : List (List Char) := (splitAt '\n' cs).map trim

/-- The words of a text: the longest parts without blanks. -/
def words (cs : List Char) : List (List Char) :=
  match _h : trimStart cs with
  | [] => []
  | c :: rest => (c :: rest.takeWhile (!isBlank ·)) :: words (rest.dropWhile (!isBlank ·))
termination_by cs.length
decreasing_by
  have h₁ : (trimStart cs).length ≤ cs.length := (List.dropWhile_sublist _).length_le
  have h₂ := (List.dropWhile_sublist (l := rest) (!isBlank ·)).length_le
  rw [_h, List.length_cons] at h₁
  omega

/-- A text without some start, as often as it occurs there. -/
def stripAll (start : List Char) (cs : List Char) : List Char :=
  match strip? start cs with
  | none => cs
  | some rest => if rest.length < cs.length then stripAll start rest else cs
termination_by cs.length

/-- The value of a decimal digit. -/
def digit (c : Char) : Nat := c.toNat - '0'.toNat

/-- The number that one or more decimal digits denote. -/
def decimal? (cs : List Char) : Option Nat :=
  if cs.isEmpty || !cs.all Char.isDigit then none
  else some (cs.foldl (fun n c => n * 10 + digit c) 0)

/-- A natural number, with a plus sign or without a sign. -/
def natural? : List Char → Option Nat
  | '+' :: cs => decimal? cs
  | cs => decimal? cs

/-- An integer, with a sign or without. -/
def integer? : List Char → Option Int
  | '-' :: cs => (decimal? cs).map fun n => -(n : Int)
  | '+' :: cs => (decimal? cs).map fun n => (n : Int)
  | cs => (decimal? cs).map fun n => (n : Int)

end Contracts.Text
