import Contracts.Smt.Script
import Contracts.Text

/-!
# The text of S-expressions

Terms and commands are written as S-expressions: an atom as it is, and a list in parentheses with
one blank between its items. If the atoms are words, without blanks and parentheses, the text
determines the expression (`Sexp.chars_inj`). The induction carries along what follows the text: it
has to start with a blank or a closing parenthesis, or be empty, so that it does not lengthen the
last word.
-/

set_option autoImplicit false

namespace Contracts.Smt

/-! ## S-expressions -/

/-- An atom or a list. -/
inductive Sexp where
  | atom (word : String)
  | list (items : List Sexp)

namespace Sexp

mutual

/-- The text of an S-expression. -/
def chars : Sexp → List Char
  | .atom w => w.toList
  | .list items => '(' :: charsIn items

/-- The text of the items of a list, the closing parenthesis included. -/
def charsIn : List Sexp → List Char
  | [] => [')']
  | [s] => s.chars ++ [')']
  | s :: t :: rest => s.chars ++ ' ' :: charsIn (t :: rest)

end

/-- A word: not empty, without blanks and parentheses. -/
structure IsWord (w : String) : Prop where
  ne_empty : w ≠ ""
  plain : ∀ c ∈ w.toList, Text.isBlank c = false ∧ c ≠ '(' ∧ c ≠ ')'

mutual

/-- Every atom is a word. -/
def Words : Sexp → Prop
  | .atom w => IsWord w
  | .list items => WordsIn items

def WordsIn : List Sexp → Prop
  | [] => True
  | s :: rest => s.Words ∧ WordsIn rest

end

theorem charsIn_eq (items : List Sexp) :
    charsIn items = [' '].intercalate (items.map chars) ++ [')'] := by
  induction items with
  | nil => rfl
  | cons s rest ih =>
    cases rest with
    | nil => rw [charsIn, List.map_singleton, List.intercalate_singleton]
    | cons t rest =>
      rw [charsIn, ih, List.map_cons, List.map_cons, List.map_cons, List.intercalate_cons_cons]
      simp

/-- The text of a list from the texts of its items. -/
theorem toList_parens {parts : List String} {items : List Sexp}
    (h : parts.map String.toList = items.map chars) :
    (parens parts).toList = (Sexp.list items).chars := by
  rw [parens, String.toList_append, String.toList_append, String.toList_intercalate, h, chars,
    charsIn_eq]
  rfl

/-! ## The text determines the expression -/

/-- What can follow the text of an expression. -/
def Ends (r : List Char) : Prop := ∀ c ∈ r.head?, c = ' ' ∨ c = ')'

theorem ends_nil : Ends [] := by
  intro c hc
  cases hc

theorem ends_blank (r : List Char) : Ends (' ' :: r) := by
  rintro c ⟨⟩
  exact .inl rfl

theorem ends_close (r : List Char) : Ends (')' :: r) := by
  rintro c ⟨⟩
  exact .inr rfl

theorem IsWord.ne_nil {w : String} (h : IsWord w) : w.toList ≠ [] := by
  intro hnil
  exact h.ne_empty (String.toList_eq_nil_iff.mp hnil)

/-- A word is cut off where it ends. -/
theorem IsWord.inj {v w : String} (hv : IsWord v) (hw : IsWord w) {r r' : List Char}
    (hr : Ends r) (hr' : Ends r') (h : v.toList ++ r = w.toList ++ r') : v = w ∧ r = r' := by
  -- both words are what comes before the first blank or closing parenthesis
  let inWord : Char → Bool := fun c => c != ' ' && c != ')'
  have hall : ∀ {u : String}, IsWord u → ∀ c ∈ u.toList, inWord c = true := by
    intro u hu c hc
    obtain ⟨hblank, -, hclose⟩ := hu.plain c hc
    have hspace : c ≠ ' ' := by
      rintro rfl
      revert hblank
      decide
    simp [inWord, hspace, hclose]
  have hstop : ∀ {r : List Char}, Ends r → r.takeWhile inWord = [] := by
    intro r hr
    cases r with
    | nil => rfl
    | cons c r =>
      refine List.takeWhile_cons_of_neg ?_
      rcases hr c rfl with rfl | rfl <;> decide
  have htake := congrArg (List.takeWhile inWord) h
  rw [List.takeWhile_append_of_pos (hall hv), List.takeWhile_append_of_pos (hall hw), hstop hr,
    hstop hr', List.append_nil, List.append_nil] at htake
  rw [htake] at h
  exact ⟨String.toList_injective htake, List.append_cancel_left h⟩

/-- The text of an expression starts with no closing parenthesis. -/
theorem chars_ne_close {s : Sexp} (hs : s.Words) {r r' : List Char} :
    s.chars ++ r ≠ ')' :: r' := by
  intro h
  cases s with
  | atom w =>
    obtain ⟨c, cs, hw⟩ := List.exists_cons_of_ne_nil (IsWord.ne_nil hs)
    rw [chars, hw] at h
    obtain ⟨-, -, hclose⟩ := hs.plain c (hw ▸ List.mem_cons_self)
    exact hclose (List.cons.inj h).1
  | list items => cases h

/-- The text of an atom is none of a list. -/
theorem atom_ne_list {w : String} (hw : IsWord w) {items : List Sexp} {r r' : List Char} :
    (Sexp.atom w).chars ++ r ≠ (Sexp.list items).chars ++ r' := by
  intro h
  obtain ⟨c, cs, hcs⟩ := List.exists_cons_of_ne_nil hw.ne_nil
  rw [chars, chars, hcs] at h
  obtain ⟨-, hopen, -⟩ := hw.plain c (hcs ▸ List.mem_cons_self)
  exact hopen (List.cons.inj h).1

mutual

theorem chars_inj : ∀ {s t : Sexp} {r r' : List Char}, s.Words → t.Words → Ends r → Ends r' →
    s.chars ++ r = t.chars ++ r' → s = t ∧ r = r'
  | .atom v, .atom w, r, r', hs, ht, hr, hr', h => by
    obtain ⟨rfl, hrr⟩ := IsWord.inj hs ht hr hr' h
    exact ⟨rfl, hrr⟩
  | .atom _, .list _, _, _, hs, _, _, _, h => absurd h (atom_ne_list hs)
  | .list _, .atom _, _, _, _, ht, _, _, h => absurd h.symm (atom_ne_list ht)
  | .list as, .list bs, r, r', hs, ht, _, _, h => by
    rw [Words] at hs ht
    rw [chars, chars, List.cons_append, List.cons_append] at h
    obtain ⟨rfl, hrr⟩ := charsIn_inj hs ht (List.cons.inj h).2
    exact ⟨rfl, hrr⟩

theorem charsIn_inj : ∀ {as bs : List Sexp} {r r' : List Char}, WordsIn as → WordsIn bs →
    charsIn as ++ r = charsIn bs ++ r' → as = bs ∧ r = r'
  | [], [], _, _, _, _, h => by
    rw [charsIn] at h
    exact ⟨rfl, (List.cons.inj h).2⟩
  | [], [b], _, _, _, hb, h => by
    -- no item begins with the bracket that closes the list
    rw [WordsIn] at hb
    rw [charsIn, charsIn, List.append_assoc] at h
    exact absurd h.symm (chars_ne_close hb.1)
  | [], b :: _ :: _, _, _, _, hb, h => by
    rw [WordsIn] at hb
    rw [charsIn, charsIn, List.append_assoc] at h
    exact absurd h.symm (chars_ne_close hb.1)
  | [a], [], _, _, ha, _, h => by
    rw [WordsIn] at ha
    rw [charsIn, charsIn, List.append_assoc] at h
    exact absurd h (chars_ne_close ha.1)
  | a :: _ :: _, [], _, _, ha, _, h => by
    rw [WordsIn] at ha
    rw [charsIn, charsIn, List.append_assoc] at h
    exact absurd h (chars_ne_close ha.1)
  | [a], [b], _, _, ha, hb, h => by
    rw [WordsIn] at ha hb
    rw [charsIn, charsIn, List.append_assoc, List.append_assoc] at h
    obtain ⟨rfl, hrr⟩ := chars_inj ha.1 hb.1 (ends_close _) (ends_close _) h
    exact ⟨rfl, (List.cons.inj hrr).2⟩
  | [a], b :: _ :: _, _, _, ha, hb, h => by
    -- after the first item one list is closed and the other goes on
    rw [WordsIn] at ha hb
    rw [charsIn, charsIn, List.append_assoc, List.append_assoc] at h
    obtain ⟨-, hrr⟩ := chars_inj ha.1 hb.1 (ends_close _) (ends_blank _) h
    cases hrr
  | a :: _ :: _, [b], _, _, ha, hb, h => by
    rw [WordsIn] at ha hb
    rw [charsIn, charsIn, List.append_assoc, List.append_assoc] at h
    obtain ⟨-, hrr⟩ := chars_inj ha.1 hb.1 (ends_blank _) (ends_close _) h
    cases hrr
  | a :: a' :: as, b :: b' :: bs, _, _, ha, hb, h => by
    rw [WordsIn] at ha hb
    rw [charsIn, charsIn, List.append_assoc, List.append_assoc] at h
    obtain ⟨rfl, hrr⟩ := chars_inj ha.1 hb.1 (ends_blank _) (ends_blank _) h
    obtain ⟨hrest, hrr⟩ := charsIn_inj ha.2 hb.2 (List.cons.inj hrr).2
    exact ⟨by rw [hrest], hrr⟩

end

/-! ## An expression is written on one line -/

mutual

theorem newline_not_mem_chars : ∀ {s : Sexp}, s.Words → '\n' ∉ s.chars
  | .atom w, hs => by
    rw [chars]
    intro h
    obtain ⟨hblank, -⟩ := hs.plain _ h
    revert hblank
    decide
  | .list items, hs => by
    rw [Words] at hs
    rw [chars, List.mem_cons, not_or]
    exact ⟨by decide, newline_not_mem_charsIn hs⟩

theorem newline_not_mem_charsIn : ∀ {items : List Sexp}, WordsIn items → '\n' ∉ charsIn items
  | [], _ => by
    rw [charsIn]
    decide
  | [s], hs => by
    rw [WordsIn] at hs
    rw [charsIn, List.mem_append, not_or]
    exact ⟨newline_not_mem_chars hs.1, by decide⟩
  | s :: t :: rest, hs => by
    rw [WordsIn] at hs
    rw [charsIn, List.mem_append, List.mem_cons, not_or, not_or]
    exact ⟨newline_not_mem_chars hs.1, by decide, newline_not_mem_charsIn hs.2⟩

end

end Sexp

end Contracts.Smt
