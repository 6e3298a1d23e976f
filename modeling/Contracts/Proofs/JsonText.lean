import Contracts.Json.Read
import Contracts.Json.Write
import Contracts.Proofs.Numerals
import Mathlib.Data.List.Chain
import Mathlib.Data.List.TakeWhile

/-!
# Reading inverts writing

A value is written as a list of tokens, `toTokens`, with any blanks of the format between them.
Reading such a text gives the value back (`read_layout`), and the text without blanks is one of
them (`Layout.text_tight`). Integers have at most 64 bits here; greater ones can be beyond the range
of double precision, and are no values then.

There are two halves. The scanner finds the tokens again: a number or a word is always followed by
something that does not continue it. The machine rebuilds the value from them, in one pass and with
any containers open around it.
-/

set_option autoImplicit false

namespace Contracts.Json

/-! ## Values as tokens -/

mutual

/-- The tokens of a value. -/
def toTokens : Json → List Token
  | .array items => .openArray :: itemTokens items
  | .object entries => .openObject :: entryTokens entries
  | .string s => [.text (some s)]
  | .unreadable => [.text none]
  | j => [.scalar j]

/-- The tokens of the items of an array, with its end. -/
def itemTokens : List Json → List Token
  | [] => [.closeArray]
  | [j] => j.toTokens ++ [.closeArray]
  | j :: k :: rest => j.toTokens ++ .comma :: itemTokens (k :: rest)

/-- The tokens of the entries of an object, with its end. -/
def entryTokens : List (String × Json) → List Token
  | [] => [.closeObject]
  | [(key, j)] => .text (some key) :: .colon :: (j.toTokens ++ [.closeObject])
  | (key, j) :: entry :: rest =>
    .text (some key) :: .colon :: (j.toTokens ++ .comma :: entryTokens (entry :: rest))

end

/-! ## The machine -/

namespace Machine

/-- What the machine does with several tokens. -/
def run (m : Machine) (ts : List Token) : Option Machine := ts.foldlM step m

theorem run_cons {m m' : Machine} {t : Token} (h : m.step t = some m') (ts : List Token) :
    m.run (t :: ts) = m'.run ts := by
  rw [run, List.foldlM_cons, h]
  rfl

/-- A place where a value can start. -/
def Ready : Expect → Prop
  | .value | .valueOrClose => True
  | _ => False

end Machine

open Machine

/-- Entries as an open object holds them. -/
def keyed (entries : List (String × Json)) : List (Option String × Json) :=
  entries.map fun e => (some e.1, e.2)

theorem objectOf_reverse (entries : List (String × Json)) :
    objectOf (keyed entries).reverse = .object entries := by
  have hmap : (keyed entries).mapM (fun x => x.1.map fun k => (k, x.2)) = some entries := by
    induction entries with
    | nil => rfl
    | cons e entries ih =>
      rw [keyed, List.map_cons, List.mapM_cons, ← keyed, ih]
      rfl
  unfold objectOf
  rw [List.reverse_reverse, hmap]

mutual

/-- **The machine rebuilds a value** from its tokens, inside any containers. Arrays and objects are
read from any point on: `before` is what they have so far. -/
theorem run_toTokens : ∀ (j : Json) {e : Expect}, Ready e → ∀ (stack : List Frame)
    (rest : List Token), run ⟨e, stack⟩ (j.toTokens ++ rest) = run ⟨.separator j, stack⟩ rest
  | .array [], e, he, stack, rest => by
    cases e <;> cases he <;> rfl
  | .array (j :: items), e, he, stack, rest => by
    have hopen : step ⟨e, stack⟩ .openArray = some ⟨.valueOrClose, .array [] :: stack⟩ := by
      cases e <;> cases he <;> rfl
    rw [toTokens, List.cons_append, run_cons hopen]
    exact run_itemTokens (j :: items) (by simp) [] (e := .valueOrClose) trivial stack rest
  | .object [], e, he, stack, rest => by
    cases e <;> cases he <;> rfl
  | .object ((key, j) :: entries), e, he, stack, rest => by
    have hopen : step ⟨e, stack⟩ .openObject = some ⟨.keyOrClose, stack⟩ := by
      cases e <;> cases he <;> rfl
    rw [toTokens, List.cons_append, run_cons hopen]
    exact run_entryTokens ((key, j) :: entries) (by simp) [] (fun _ => rfl) rest
  | .string s, e, he, stack, rest => by
    cases e <;> cases he <;> rfl
  | .unreadable, e, he, stack, rest => by
    cases e <;> cases he <;> rfl
  | .null, e, he, stack, rest | .bool _, e, he, stack, rest | .int _, e, he, stack, rest
  | .fraction, e, he, stack, rest => by
    cases e <;> cases he <;> rfl

theorem run_itemTokens : ∀ items : List Json, items ≠ [] → ∀ (before : List Json) {e : Expect},
    Ready e → ∀ (stack : List Frame) (rest : List Token),
      run ⟨e, .array before :: stack⟩ (itemTokens items ++ rest) =
        run ⟨.separator (.array (before.reverse ++ items)), stack⟩ rest
  | [], hne, _, _, _, _, _ => absurd rfl hne
  | [j], _, before, e, he, stack, rest => by
    rw [itemTokens, List.append_assoc, run_toTokens j he, List.singleton_append, run_cons rfl,
      List.reverse_cons]
  | j :: k :: items, _, before, e, he, stack, rest => by
    rw [itemTokens, List.append_assoc, run_toTokens j he, List.cons_append, run_cons rfl,
      run_itemTokens (k :: items) (by simp) (j :: before) (e := .value) trivial, List.reverse_cons,
      List.append_assoc, List.singleton_append]

theorem run_entryTokens : ∀ entries : List (String × Json), entries ≠ [] →
    ∀ (before : List (String × Json)) {m : Machine} {stack : List Frame},
    (∀ key, m.step (.text (some key)) =
      some ⟨.colon, .object (keyed before).reverse (some key) :: stack⟩) →
    ∀ rest : List Token, run m (entryTokens entries ++ rest) =
      run ⟨.separator (.object (before ++ entries)), stack⟩ rest
  | [], hne, _, _, _, _, _ => absurd rfl hne
  | [(key, j)], _, before, m, stack, hkey, rest => by
    have hobject : objectOf ((some key, j) :: (keyed before).reverse) =
        .object (before ++ [(key, j)]) := by
      rw [← objectOf_reverse, keyed, keyed, List.map_append, List.reverse_append]
      rfl
    rw [entryTokens, List.cons_append, run_cons (hkey key), List.cons_append, run_cons rfl,
      List.append_assoc, run_toTokens j (e := .value) trivial, List.singleton_append, run_cons rfl,
      hobject]
  | (key, j) :: entry :: entries, _, before, m, stack, hkey, rest => by
    -- behind a comma a key is expected, with the entries so far on hold
    have hnext : ∀ key', step ⟨.key ((some key, j) :: (keyed before).reverse), stack⟩
        (.text (some key')) =
          some ⟨.colon, .object (keyed (before ++ [(key, j)])).reverse (some key') :: stack⟩ := by
      intro key'
      rw [keyed, keyed, List.map_append, List.reverse_append]
      rfl
    rw [entryTokens, List.cons_append, run_cons (hkey key), List.cons_append, run_cons rfl,
      List.append_assoc, run_toTokens j (e := .value) trivial, List.cons_append, run_cons rfl,
      run_entryTokens (entry :: entries) (by simp) (before ++ [(key, j)]) hnext, List.append_assoc,
      List.singleton_append]

end

theorem ofTokens_toTokens (j : Json) : ofTokens j.toTokens = some j := by
  have hrun : run ⟨.value, []⟩ j.toTokens = some ⟨.separator j, []⟩ := by
    rw [← List.append_nil j.toTokens, run_toTokens j (e := .value) trivial]
    rfl
  unfold ofTokens
  rw [← run, hrun]

/-! ## The text of tokens -/

/-- The text of a token. -/
def Token.chars : Token → List Char
  | .openArray => ['[']
  | .closeArray => [']']
  | .openObject => ['\x7b']
  | .closeObject => ['\x7d']
  | .colon => [':']
  | .comma => [',']
  | .text (some s) => (quoted s).toList
  | .text none => (scalarText .unreadable).toList
  | .scalar j => (scalarText j).toList

/-- A token that is read back as it is: no container, and no number of more than 64 bits. -/
def Token.Printable : Token → Prop
  | .scalar (.int n) => n.natAbs ≤ significandLimit
  | .scalar .null | .scalar (.bool _) | .scalar .fraction => True
  | .scalar _ => False
  | _ => True

/-- A number or a word. -/
def Token.IsWord : Token → Prop
  | .scalar _ => True
  | _ => False

/-- A text that does not continue a number or a word. -/
def Stops (cs : List Char) : Prop := ∀ c ∈ cs.head?, isNumberChar c = false ∧ c.isAlpha = false

theorem takeWhile_append_stop {p : Char → Bool} {cs rest : List Char} (hcs : ∀ c ∈ cs, p c = true)
    (hrest : ∀ c ∈ rest.head?, p c = false) : (cs ++ rest).takeWhile p = cs := by
  rw [List.takeWhile_append_of_pos hcs]
  cases rest with
  | nil => exact List.append_nil cs
  | cons c rest => rw [List.takeWhile_cons_of_neg (by simp [hrest c rfl]), List.append_nil]

theorem dropWhile_append_stop {p : Char → Bool} {cs rest : List Char} (hcs : ∀ c ∈ cs, p c = true)
    (hrest : ∀ c ∈ rest.head?, p c = false) : (cs ++ rest).dropWhile p = rest := by
  rw [List.dropWhile_append_of_pos hcs, Text.dropWhile_eq_self hrest]

/-! ### Strings -/

theorem tokens_quote {cs rest : List Char} {pieces : List Piece}
    (h : scanString [] cs = some (pieces, rest)) :
    tokens ('"' :: cs) =
      (tokens rest).map (.text ((joinPieces pieces).map String.ofList) :: ·) := by
  rw [tokens, if_neg (by decide), if_pos (by decide)]
  split
  · next h' =>
    rw [h] at h'
    cases h'
    rfl
  · next h' =>
    rw [h] at h'
    cases h'

theorem scanString_plain {c : Char} (hquote : c ≠ '"') (hslash : c ≠ '\\') (hc : 0x20 ≤ c.toNat)
    (acc : List Piece) (rest : List Char) :
    scanString acc (c :: rest) = scanString (.char c :: acc) rest := by
  rw [scanString]
  · simp [hslash, Nat.not_lt.mpr hc]
  · simpa using hquote
  · intro a b c d rest h
    exact absurd h hslash
  · intro c rest h
    exact absurd h hslash

theorem joinPieces_unit {n : Nat} (hn : n < 0xD800) (pieces : List Piece) :
    joinPieces (.unit n :: pieces) = (joinPieces pieces).map (Char.ofNat n :: ·) := by
  conv_lhs => unfold joinPieces
  rw [if_neg (by omega), if_neg (by omega)]

theorem scanString_escaped {c e : Char} (hu : c ≠ 'u') (hc : escaped? c = some e)
    (acc : List Piece) (rest : List Char) :
    scanString acc ('\\' :: c :: rest) = scanString (.char e :: acc) rest := by
  rw [scanString]
  · rw [hc]
  · intro a b c' d rest' h
    exact absurd h hu

theorem hexUnit?_hexDigit : ∀ n < 0x20,
    hexUnit? '0' '0' (hexDigit (n / 16)) (hexDigit (n % 16)) = some n := by decide

theorem scanString_unit {n : Nat} (hn : n < 0x20) (acc : List Piece) (rest : List Char) :
    scanString acc ('\\' :: 'u' :: '0' :: '0' :: hexDigit (n / 16) :: hexDigit (n % 16) :: rest) =
      scanString (.unit n :: acc) rest := by
  rw [scanString, hexUnit?_hexDigit n hn]

/-- A character of a string is scanned as one piece that stands for it. -/
theorem exists_piece (c : Char) : ∃ piece : Piece,
    (∀ pieces, joinPieces (piece :: pieces) = (joinPieces pieces).map (c :: ·)) ∧
    ∀ acc rest, scanString acc (escapeChar c ++ rest) = scanString (piece :: acc) rest := by
  have hchar : ∀ pieces, joinPieces (.char c :: pieces) = (joinPieces pieces).map (c :: ·) :=
    fun pieces => by rw [joinPieces]
  unfold escapeChar
  repeat' split
  -- a control character without a name is written as a unit
  case isFalse.isFalse.isFalse.isFalse.isFalse.isFalse.isFalse.isTrue h =>
    refine ⟨.unit c.toNat, fun pieces => ?_, fun acc rest => scanString_unit h acc rest⟩
    rw [joinPieces_unit (by omega), Char.ofNat_toNat]
  -- any other character that is not escaped stands for itself
  case isFalse.isFalse.isFalse.isFalse.isFalse.isFalse.isFalse.isFalse =>
    refine ⟨.char c, hchar, fun acc rest => ?_⟩
    exact scanString_plain ‹_› ‹_› (by omega) acc rest
  all_goals
    subst c
    exact ⟨_, hchar, fun acc rest => scanString_escaped (by decide) rfl acc rest⟩

/-- A quoted string is scanned up to its end. -/
theorem scanString_quoted (cs : List Char) : ∃ pieces : List Piece,
    joinPieces pieces = some cs ∧ ∀ acc rest,
      scanString acc (cs.flatMap escapeChar ++ '"' :: rest) =
        some (acc.reverse ++ pieces, rest) := by
  induction cs with
  | nil =>
    refine ⟨[], by rw [joinPieces], fun acc rest => ?_⟩
    rw [List.flatMap_nil, List.nil_append, scanString, List.append_nil]
  | cons c cs ih =>
    obtain ⟨pieces, hjoin, hscan⟩ := ih
    obtain ⟨piece, hpiece, hfirst⟩ := exists_piece c
    refine ⟨piece :: pieces, by rw [hpiece, hjoin, Option.map_some], fun acc rest => ?_⟩
    rw [List.flatMap_cons, List.append_assoc, hfirst, hscan, List.reverse_cons, List.append_assoc,
      List.singleton_append]

theorem tokens_quoted (s : String) (rest : List Char) :
    tokens ((quoted s).toList ++ rest) = (tokens rest).map (.text (some s) :: ·) := by
  obtain ⟨pieces, hjoin, hscan⟩ := scanString_quoted s.toList
  have htext : (quoted s).toList ++ rest =
      '"' :: (s.toList.flatMap escapeChar ++ '"' :: rest) := by
    rw [quoted, String.toList_append, String.toList_append, String.toList_ofList]
    simp
  have hscan' : scanString [] (s.toList.flatMap escapeChar ++ '"' :: rest) = some (pieces, rest) :=
    hscan [] rest
  rw [htext, tokens_quote hscan', hjoin, Option.map_some, String.ofList_toList]

/-! ### Numbers -/

theorem roundDouble_le (n : Nat) : roundDouble n ≤ 2 * n := by
  unfold roundDouble
  simp only
  split
  · omega
  · next hexcess =>
    have hn : n ≠ 0 := by
      rintro rfl
      exact hexcess rfl
    -- the unit is a power of two below the number, and rounding moves by less than a unit
    have hunit : Nat.pow 2 (n.log2 + 1 - 53) ≤ n :=
      (Nat.pow_le_pow_right (by omega) (by omega)).trans (Nat.log2_self_le hn)
    generalize Nat.pow 2 (n.log2 + 1 - 53) = unit at hunit ⊢
    have hquotient : n / unit * unit ≤ n := Nat.div_mul_le_self n unit
    split
    · rw [Nat.add_mul]
      omega
    · omega

theorem exceedsDouble_zero {n : Nat} (hn : n ≤ significandLimit) : exceedsDouble n 0 = false := by
  have hone : roundDouble (Nat.pow 10 (0 : Int).toNat) = 1 := by decide
  -- two roundings at most quadruple a number of 64 bits
  have hround : roundDouble (roundDouble n) < Nat.pow 2 1024 := by
    have hfirst := roundDouble_le n
    have hsecond := roundDouble_le (roundDouble n)
    have hpow : ∀ k, 66 ≤ k → 4 * significandLimit < Nat.pow 2 k := fun k hk =>
      Nat.lt_of_lt_of_le (m := Nat.pow 2 66) (by decide) (Nat.pow_le_pow_right (by omega) hk)
    exact Nat.lt_of_le_of_lt (by omega) (hpow 1024 (by omega))
  unfold exceedsDouble
  split
  · rfl
  · rw [if_neg (by omega), hone, Nat.mul_one, decide_eq_false (Nat.not_le.mpr hround)]

theorem le_foldl_digits (cs : List Char) (n : Nat) :
    n ≤ cs.foldl (fun n c => n * 10 + digitValue c) n := by
  induction cs generalizing n with
  | nil => exact Nat.le_refl n
  | cons c cs ih =>
    have := ih (n * 10 + digitValue c)
    rw [List.foldl_cons]
    omega

theorem takeWhole_eq (cs : List Char) (n : Nat)
    (h : cs.foldl (fun n c => n * 10 + digitValue c) n ≤ significandLimit) :
    takeWhole cs n = (cs.foldl (fun n c => n * 10 + digitValue c) n, 0) := by
  induction cs generalizing n with
  | nil => rfl
  | cons c cs ih =>
    have hle := le_foldl_digits cs (n * 10 + digitValue c)
    rw [List.foldl_cons] at h ⊢
    rw [takeWhole, if_pos (by omega), ih _ h]

theorem digitsValue_toString (n : Nat) : digitsValue (toString n).toList = n := by
  rw [digitsValue, Nat.toString_eq_ofList_toDigits, String.toList_ofList]
  simp only [Nat.mul_comm _ 10]
  exact Nat.ofDigitChars_ten_toDigits

/-- A number of several digits does not start with a zero. -/
theorem head?_toDigits (n : Nat) (h : (Nat.toDigits 10 n).head? = some '0') : n = 0 := by
  induction n using Nat.strongRecOn with
  | _ n ih =>
    rw [Nat.toDigits_eq_if (by omega)] at h
    split at h
    · next hn =>
      interval_cases n <;> first | rfl | cases h
    · next hn =>
      have hne : Nat.toDigits 10 (n / 10) ≠ [] := Nat.toDigits_ne_nil
      obtain ⟨c, cs, hcons⟩ := List.exists_cons_of_ne_nil hne
      rw [hcons, List.cons_append, List.head?_cons] at h
      have hzero := ih (n / 10) (by omega) (by rw [hcons, List.head?_cons, h])
      omega

theorem whole_toString (n : Nat) : ((toString n).toList.isEmpty ||
    ((toString n).toList.head? == some '0' && decide (1 < (toString n).toList.length))) =
      false := by
  obtain ⟨c, cs, hcons, -⟩ := Text.toString_eq_cons n
  rw [Bool.or_eq_false_iff, Bool.and_eq_false_iff]
  refine ⟨by rw [hcons]; rfl, ?_⟩
  by_cases hhead : (toString n).toList.head? = some '0'
  · right
    rw [Nat.toString_eq_ofList_toDigits, String.toList_ofList] at hhead
    rw [head?_toDigits n hhead]
    decide
  · left
    rwa [beq_eq_false_iff_ne]

/-- The literal of an integer. -/
def Literal.ofDigits (negative : Bool) (n : Nat) : Literal where
  negative := negative
  whole := (toString n).toList
  fraction := none
  exponent := none

theorem Literal.read?_digits {cs : List Char} {negative : Bool} {n : Nat}
    (h : splitMinus cs = (negative, (toString n).toList)) :
    Literal.read? cs = some (.ofDigits negative n) := by
  have hdigits : ∀ c ∈ (toString n).toList, c.isDigit = true := fun c hc =>
    isDigit_of_mem_toString hc
  have htake := List.takeWhile_eq_self_iff.mpr hdigits
  have hdrop := List.dropWhile_eq_nil_iff.mpr hdigits
  unfold Literal.read?
  simp only [h, htake, hdrop, whole_toString]
  rfl

theorem Literal.read?_toString (n : Nat) :
    Literal.read? (toString n).toList = some (.ofDigits false n) := by
  obtain ⟨c, cs, hcons, hc⟩ := Text.toString_eq_cons n
  refine Literal.read?_digits ?_
  rw [hcons, splitMinus]
  rintro _ ⟨⟩
  cases hc

theorem Literal.toJson_ofDigits {n : Nat} (hn : n ≤ significandLimit) (negative : Bool) :
    (Literal.ofDigits negative n).toJson =
      if !negative then .int n else if n = 0 then .fraction else .int (-n) := by
  have hlarge : (Literal.ofDigits negative n).isTooLarge = false := by
    have hvalue := digitsValue_toString n
    unfold digitsValue at hvalue
    unfold isTooLarge
    simp only [ofDigits]
    rw [takeWhole_eq _ 0 (by rw [hvalue]; exact hn), hvalue]
    exact exceedsDouble_zero hn
  unfold Literal.toJson
  rw [hlarge]
  simp only [ofDigits, digitsValue_toString]
  rfl

/-- A number is read up to its end. -/
theorem tokens_number {cs rest : List Char} {l : Literal} (hne : cs ≠ [])
    (hcs : ∀ c ∈ cs, c.isDigit = true ∨ c = '-') (hrest : Stops rest)
    (hread : Literal.read? cs = some l) :
    tokens (cs ++ rest) = (tokens rest).map (.scalar l.toJson :: ·) := by
  obtain ⟨c, cs, rfl⟩ := List.exists_cons_of_ne_nil hne
  have hnumber : ∀ d ∈ c :: cs, isNumberChar d = true := by
    intro d hd
    rcases hcs d hd with hd | rfl
    · rw [isNumberChar, hd]
      rfl
    · rfl
  rw [List.forall_mem_cons] at hnumber
  have hstop : ∀ d ∈ rest.head?, isNumberChar d = false := fun d hd => (hrest d hd).1
  -- a digit or a sign is none of the characters that the scanner asks for before numbers
  have hfirst : isBlank c = false ∧ (c == '"') = false ∧ (c != 'e') = true ∧ (c != 'E') = true := by
    have hne : ∀ d : Char, d.isDigit = false → d ≠ '-' → c ≠ d := by
      rintro _ hdigit hminus rfl
      rcases hcs c List.mem_cons_self with h | h
      · rw [hdigit] at h
        cases h
      · exact hminus h
    simp [isBlank, hne]
  obtain ⟨hblank, hquote, he, hE⟩ := hfirst
  rw [List.cons_append, tokens, hblank, hquote, hnumber.1, he, hE]
  simp only [takeWhile_append_stop hnumber.2 hstop, dropWhile_append_stop hnumber.2 hstop, hread]
  rfl

/-- A word is read up to its end. -/
theorem tokens_keyword {c : Char} {cs rest : List Char} {j : Json} (hblank : isBlank c = false)
    (hquote : (c == '"') = false) (hnumber : (isNumberChar c && c != 'e' && c != 'E') = false)
    (halpha : ∀ d ∈ c :: cs, d.isAlpha = true) (hkey : keyword? (c :: cs) = some j)
    (hrest : Stops rest) : tokens (c :: cs ++ rest) = (tokens rest).map (.scalar j :: ·) := by
  have hstop : ∀ d ∈ rest.head?, d.isAlpha = false := fun d hd => (hrest d hd).2
  rw [List.forall_mem_cons] at halpha
  rw [List.cons_append, tokens, hblank, hquote, hnumber, halpha.1]
  simp only [takeWhile_append_stop halpha.2 hstop, dropWhile_append_stop halpha.2 hstop, hkey]
  rfl

/-! ### Tokens -/

theorem tokens_int {n : Int} (hn : n.natAbs ≤ significandLimit) {rest : List Char}
    (hrest : Stops rest) :
    tokens ((toString n).toList ++ rest) = (tokens rest).map (.scalar (.int n) :: ·) := by
  have hdigits : ∀ {k : Nat}, ∀ c ∈ (toString k).toList, c.isDigit = true ∨ c = '-' :=
    fun c hc => .inl (isDigit_of_mem_toString hc)
  cases n with
  | ofNat k =>
    obtain ⟨c, cs, hcons, -⟩ := Text.toString_eq_cons k
    have hne : (toString k).toList ≠ [] := by
      rw [hcons]
      exact List.cons_ne_nil c cs
    have htext : (toString (Int.ofNat k)).toList = (toString k).toList := rfl
    rw [htext, tokens_number hne hdigits hrest (Literal.read?_toString k),
      Literal.toJson_ofDigits (n := k) hn]
    rfl
  | negSucc k =>
    have htext : (toString (Int.negSucc k)).toList = '-' :: (toString (k + 1)).toList := by
      have : toString (Int.negSucc k) = "-" ++ toString (k + 1) := rfl
      rw [this, String.toList_append]
      rfl
    have hread : Literal.read? ('-' :: (toString (k + 1)).toList) = some (.ofDigits true (k + 1)) :=
      Literal.read?_digits rfl
    rw [htext, tokens_number (List.cons_ne_nil _ _) (List.forall_mem_cons.mpr ⟨.inr rfl, hdigits⟩)
      hrest hread, Literal.toJson_ofDigits (n := k + 1) hn]
    rfl

theorem tokens_punctuation {c : Char} {t : Token} (hword : (isBlank c || c == '"' || isNumberChar c
    || c.isAlpha) = false) (ht : punctuation? c = some t) (rest : List Char) :
    tokens (c :: rest) = (tokens rest).map (t :: ·) := by
  simp only [Bool.or_eq_false_iff] at hword
  obtain ⟨⟨⟨hblank, hquote⟩, hnumber⟩, halpha⟩ := hword
  rw [tokens, hblank, hquote, hnumber, halpha, ht]
  rfl

/-- **The scanner finds a token** in its text. -/
theorem tokens_chars {t : Token} (ht : t.Printable) {rest : List Char}
    (hrest : t.IsWord → Stops rest) : tokens (t.chars ++ rest) = (tokens rest).map (t :: ·) := by
  match t, ht with
  | .openArray, _ | .closeArray, _ | .openObject, _ | .closeObject, _ | .colon, _ | .comma, _ =>
    exact tokens_punctuation (by decide) rfl rest
  | .text (some s), _ => exact tokens_quoted s rest
  | .text none, _ =>
    have hscan : scanString [] ("\\ud800\"".toList ++ rest) = some ([.unit 0xD800], rest) := rfl
    exact tokens_quote hscan
  | .scalar (.int n), hn => exact tokens_int hn (hrest trivial)
  | .scalar .null, _ | .scalar (.bool true), _ | .scalar (.bool false), _ =>
    exact tokens_keyword (by decide) (by decide) (by decide) (List.all_eq_true.mp rfl) rfl
      (hrest trivial)
  | .scalar .fraction, _ =>
    have hread : Literal.read? ['-', '0'] = some (.ofDigits true 0) := Literal.read?_digits rfl
    have hchars : ∀ c ∈ ['-', '0'], c.isDigit = true ∨ c = '-' := by simp [Char.isDigit]
    exact tokens_number (by decide) hchars (hrest trivial) hread

/-! ## Layouts -/

/-- Blanks of the format. -/
structure Spacing where
  chars : List Char
  blank : ∀ c ∈ chars, isBlank c = true

/-- Tokens with blanks before each of them and behind the last. -/
def weave : List Spacing → List Token → Spacing → List Char
  | gap :: gaps, t :: ts, last => gap.chars ++ (t.chars ++ weave gaps ts last)
  | _, _, last => last.chars

/-- Where the blanks stand in the text of a value. -/
structure Layout (j : Json) where
  gaps : List Spacing
  last : Spacing
  length_gaps : gaps.length = j.toTokens.length

def Layout.text {j : Json} (l : Layout j) : String :=
  String.ofList (weave l.gaps j.toTokens l.last)

theorem tokens_spacing (gap : Spacing) (rest : List Char) :
    tokens (gap.chars ++ rest) = tokens rest := by
  obtain ⟨cs, hblank⟩ := gap
  induction cs with
  | nil => rfl
  | cons c cs ih =>
    rw [List.forall_mem_cons] at hblank
    rw [List.cons_append, tokens, if_pos hblank.1]
    exact ih hblank.2

theorem stops_of_isBlank {c : Char} (h : isBlank c = true) :
    isNumberChar c = false ∧ c.isAlpha = false := by
  simp only [isBlank, Bool.or_eq_true, beq_iff_eq] at h
  rcases h with ((rfl | rfl) | rfl) | rfl <;> decide

theorem Spacing.stops (gap : Spacing) {rest : List Char} (h : Stops rest) :
    Stops (gap.chars ++ rest) := by
  obtain ⟨cs, hblank⟩ := gap
  cases cs with
  | nil => exact h
  | cons c cs =>
    rintro _ ⟨⟩
    exact stops_of_isBlank (hblank c List.mem_cons_self)

/-- A bracket, a separator or a string does not continue a number or a word. -/
theorem Token.stops {t : Token} (ht : ¬t.IsWord) (rest : List Char) : Stops (t.chars ++ rest) := by
  cases t with
  | scalar => exact absurd trivial ht
  | text s =>
    have hquote : ∀ cs, Stops ('"' :: cs) := by
      rintro cs _ ⟨⟩
      decide
    cases s with
    | none => exact hquote _
    | some s =>
      rw [Token.chars, quoted, String.append_assoc, String.toList_append]
      exact hquote _
  | _ =>
    rintro _ ⟨⟩
    decide

/-- Numbers and words do not stand side by side. -/
def Separated (ts : List Token) : Prop := ts.IsChain fun s t => s.IsWord → ¬t.IsWord

theorem stops_weave {gaps : List Spacing} {ts : List Token} (last : Spacing)
    (hts : ∀ t ∈ ts.head?, ¬t.IsWord) : Stops (weave gaps ts last) := by
  match gaps, ts with
  | [], _ | _ :: _, [] =>
    rw [weave, ← List.append_nil last.chars]
    · exact last.stops nofun
    · simp
  | gap :: gaps, t :: ts =>
    rw [weave]
    exact gap.stops (Token.stops (hts t rfl) _)

/-- **The scanner finds the tokens** of a layout. -/
theorem tokens_weave : ∀ {gaps : List Spacing} {ts : List Token} (last : Spacing),
    gaps.length = ts.length → Separated ts → (∀ t ∈ ts, t.Printable) →
      tokens (weave gaps ts last) = some ts
  | [], [], last, _, _, _ => by
    rw [weave, ← List.append_nil last.chars, tokens_spacing, tokens]
    simp
  | gap :: gaps, t :: ts, last, hlength, hsep, hprint => by
    rw [Separated, List.isChain_cons] at hsep
    rw [List.forall_mem_cons] at hprint
    rw [weave, tokens_spacing, tokens_chars hprint.1,
      tokens_weave last (Nat.succ.inj hlength) hsep.2 hprint.2, Option.map_some]
    -- behind a word there is a blank, the end, or the first character of another kind of token
    intro hword
    exact stops_weave last fun t' ht' => hsep.1 t' ht' hword

theorem Separated.cons {t : Token} (ht : ¬t.IsWord) {ts : List Token} (hts : Separated ts) :
    Separated (t :: ts) :=
  List.isChain_cons.mpr ⟨fun _ _ hword => absurd hword ht, hts⟩

mutual

theorem separated_toTokens : ∀ (j : Json) {rest : List Token}, (∀ t ∈ rest.head?, ¬t.IsWord) →
    Separated rest → Separated (j.toTokens ++ rest)
  | .array items, rest, _, hrest => by
    rw [toTokens, List.cons_append]
    exact .cons id (separated_itemTokens items hrest)
  | .object entries, rest, _, hrest => by
    rw [toTokens, List.cons_append]
    exact .cons id (separated_entryTokens entries hrest)
  | .string _, rest, _, hrest | .unreadable, rest, _, hrest => .cons id hrest
  | .null, rest, hhead, hrest | .bool _, rest, hhead, hrest | .int _, rest, hhead, hrest
  | .fraction, rest, hhead, hrest => List.isChain_cons.mpr ⟨fun t ht _ => hhead t ht, hrest⟩

theorem separated_itemTokens : ∀ (items : List Json) {rest : List Token}, Separated rest →
    Separated (itemTokens items ++ rest)
  | [], rest, hrest => .cons id hrest
  | [j], rest, hrest => by
    rw [itemTokens, List.append_assoc]
    refine separated_toTokens j ?_ (.cons id hrest)
    rintro _ ⟨⟩
    exact id
  | j :: k :: items, rest, hrest => by
    rw [itemTokens, List.append_assoc]
    refine separated_toTokens j ?_ (.cons id (separated_itemTokens (k :: items) hrest))
    rintro _ ⟨⟩
    exact id

theorem separated_entryTokens : ∀ (entries : List (String × Json)) {rest : List Token},
    Separated rest → Separated (entryTokens entries ++ rest)
  | [], rest, hrest => .cons id hrest
  | [(_, j)], rest, hrest => by
    rw [entryTokens, List.cons_append, List.cons_append, List.append_assoc]
    refine .cons id (.cons id (separated_toTokens j ?_ (.cons id hrest)))
    rintro _ ⟨⟩
    exact id
  | (_, j) :: entry :: entries, rest, hrest => by
    rw [entryTokens, List.cons_append, List.cons_append, List.append_assoc]
    refine .cons id (.cons id (separated_toTokens j ?_
      (.cons id (separated_entryTokens (entry :: entries) hrest))))
    rintro _ ⟨⟩
    exact id

end

mutual

/-- Whether every integer in a value has at most 64 bits. -/
def isShort : Json → Bool
  | .int n => n.natAbs ≤ significandLimit
  | .array items => shortItems items
  | .object entries => shortEntries entries
  | _ => true

def shortItems : List Json → Bool
  | [] => true
  | j :: rest => j.isShort && shortItems rest

def shortEntries : List (String × Json) → Bool
  | [] => true
  | (_, j) :: rest => j.isShort && shortEntries rest

end

mutual

theorem printable_toTokens : ∀ {j : Json}, j.isShort = true → ∀ t ∈ j.toTokens, t.Printable
  | .array items, h => by
    rw [isShort] at h
    rw [toTokens, List.forall_mem_cons]
    exact ⟨trivial, printable_itemTokens h⟩
  | .object entries, h => by
    rw [isShort] at h
    rw [toTokens, List.forall_mem_cons]
    exact ⟨trivial, printable_entryTokens h⟩
  | .int n, h => by
    rw [isShort, decide_eq_true_eq] at h
    rw [toTokens, List.forall_mem_singleton]
    · exact h
    all_goals simp
  | .string _, _ | .unreadable, _ | .null, _ | .bool _, _ | .fraction, _ => by
    simp [toTokens, Token.Printable]

theorem printable_itemTokens : ∀ {items : List Json}, shortItems items = true →
    ∀ t ∈ itemTokens items, t.Printable
  | [], _ => by simp [itemTokens, Token.Printable]
  | [j], h => by
    rw [shortItems, Bool.and_eq_true] at h
    rw [itemTokens, List.forall_mem_append, List.forall_mem_singleton]
    exact ⟨printable_toTokens h.1, trivial⟩
  | j :: k :: items, h => by
    rw [shortItems, Bool.and_eq_true] at h
    rw [itemTokens, List.forall_mem_append, List.forall_mem_cons]
    exact ⟨printable_toTokens h.1, trivial, printable_itemTokens h.2⟩

theorem printable_entryTokens : ∀ {entries : List (String × Json)}, shortEntries entries = true →
    ∀ t ∈ entryTokens entries, t.Printable
  | [], _ => by simp [entryTokens, Token.Printable]
  | [(_, j)], h => by
    rw [shortEntries, Bool.and_eq_true] at h
    rw [entryTokens, List.forall_mem_cons, List.forall_mem_cons, List.forall_mem_append,
      List.forall_mem_singleton]
    exact ⟨trivial, trivial, printable_toTokens h.1, trivial⟩
  | (_, j) :: entry :: entries, h => by
    rw [shortEntries, Bool.and_eq_true] at h
    rw [entryTokens, List.forall_mem_cons, List.forall_mem_cons, List.forall_mem_append,
      List.forall_mem_cons]
    exact ⟨trivial, trivial, printable_toTokens h.1, trivial, printable_entryTokens h.2⟩

end

/-- **Reading inverts writing**, whatever blanks stand between the tokens. -/
theorem read_layout {j : Json} (hj : j.isShort = true) (l : Layout j) :
    Json.read l.text = some j := by
  have hsep : Separated j.toTokens := by
    rw [← List.append_nil j.toTokens]
    exact separated_toTokens j nofun List.isChain_nil
  rw [Json.read, Layout.text, String.toList_ofList,
    tokens_weave l.last l.length_gaps hsep (printable_toTokens hj)]
  exact ofTokens_toTokens j

/-! ### The layout without blanks -/

def Spacing.none : Spacing where
  chars := []
  blank := by simp

def Layout.tight (j : Json) : Layout j where
  gaps := List.replicate j.toTokens.length .none
  last := .none
  length_gaps := List.length_replicate

theorem weave_tight (ts : List Token) :
    weave (List.replicate ts.length .none) ts .none = ts.flatMap Token.chars := by
  induction ts with
  | nil => rfl
  | cons t ts ih =>
    rw [List.length_cons, List.replicate_succ, weave, ih, List.flatMap_cons]
    rfl

mutual

theorem toList_compact : ∀ j : Json, j.compact.toList = j.toTokens.flatMap Token.chars
  | .array items => by
    rw [compact, toTokens, List.flatMap_cons, flatMap_itemTokens items, String.toList_append,
      String.toList_append, String.toList_intercalate]
    rfl
  | .object entries => by
    rw [compact, toTokens, List.flatMap_cons, flatMap_entryTokens entries, String.toList_append,
      String.toList_append, String.toList_intercalate]
    rfl
  | .string _ | .unreadable | .null | .bool _ | .int _ | .fraction => by
    simp [compact, toTokens, scalarText, Token.chars]

theorem flatMap_itemTokens : ∀ items : List Json, (itemTokens items).flatMap Token.chars =
    [','].intercalate ((compactItems items).map String.toList) ++ [']']
  | [] => rfl
  | [j] => by
    rw [itemTokens, List.flatMap_append, ← toList_compact j, compactItems, compactItems,
      List.map_singleton, List.intercalate_singleton]
    rfl
  | j :: k :: items => by
    rw [itemTokens, List.flatMap_append, List.flatMap_cons, ← toList_compact j,
      flatMap_itemTokens (k :: items)]
    simp only [compactItems, List.map_cons, List.intercalate_cons_cons, Token.chars,
      List.append_assoc]

theorem flatMap_entryTokens : ∀ entries : List (String × Json),
    (entryTokens entries).flatMap Token.chars =
      [','].intercalate ((compactEntries entries).map String.toList) ++ ['\x7d']
  | [] => rfl
  | [(key, j)] => by
    rw [entryTokens, List.flatMap_cons, List.flatMap_cons, List.flatMap_append, ← toList_compact j,
      compactEntries, compactEntries, List.map_singleton, List.intercalate_singleton]
    simp [Token.chars]
  | (key, j) :: (key', j') :: entries => by
    rw [entryTokens, List.flatMap_cons, List.flatMap_cons, List.flatMap_append, List.flatMap_cons,
      ← toList_compact j, flatMap_entryTokens ((key', j') :: entries)]
    simp only [compactEntries, List.map_cons, List.intercalate_cons_cons, Token.chars,
      String.toList_append, List.append_assoc]
    rfl

end

theorem Layout.text_tight (j : Json) : (Layout.tight j).text = j.compact := by
  rw [Layout.text, Layout.tight, weave_tight, ← toList_compact, String.ofList_toList]

end Contracts.Json
