import Contracts.Proofs.Numerals
import Contracts.Solver.Answer
import Mathlib.Data.Bool.AllAny

/-!
# Models are read back

A solver that is asked for a model prints it after the line `sat`: a list of definitions
`(define-fun name params Sort value)` in parentheses, in the old layout headed by the word `model`,
with blanks wherever it likes. `printAnswer` is any such text. Reading it gives the integers of the
model, in their order and as they are printed elsewhere, and nothing else (`model_read_back`).

The reader looks for the keyword, counts parentheses up to the end of the definition and takes the
words in between. So what is in a definition has to be balanced (`takeClosed_balanced`), and then
only its words count (`Text.words_token`). A definition with parameters is told from one without by
the second character behind its name.
-/

set_option autoImplicit false

namespace Contracts

/-! ## Words of a text -/

namespace Text

theorem trimStart_append {b : List Char} (hb : ∀ c ∈ b, isBlank c = true) (cs : List Char) :
    trimStart (b ++ cs) = trimStart cs :=
  List.dropWhile_append_of_pos hb

theorem words_eq (cs : List Char) :
    words cs = match trimStart cs with
      | [] => []
      | c :: rest => (c :: rest.takeWhile (!isBlank ·)) :: words (rest.dropWhile (!isBlank ·)) := by
  rw [words]
  split <;> next h => rw [h]

theorem words_blank_append {b : List Char} (hb : ∀ c ∈ b, isBlank c = true) (cs : List Char) :
    words (b ++ cs) = words cs := by
  rw [words_eq, trimStart_append hb, ← words_eq]

/-- A run of other characters is a word if the text ends behind it or goes on with a blank. -/
theorem words_token {w rest : List Char} (hne : w ≠ []) (hw : ∀ c ∈ w, isBlank c = false)
    (hrest : ∀ c ∈ rest.head?, isBlank c = true) : words (w ++ rest) = w :: words rest := by
  obtain ⟨c, w, rfl⟩ := List.exists_cons_of_ne_nil hne
  have hstart : trimStart (c :: w ++ rest) = c :: (w ++ rest) :=
    dropWhile_eq_self (by rintro _ ⟨⟩; exact hw c List.mem_cons_self)
  have hpos : ∀ a ∈ w, (!isBlank a) = true := fun a ha => by
    rw [hw a (List.mem_cons_of_mem _ ha)]
    rfl
  have htake : rest.takeWhile (!isBlank ·) = [] := by
    cases rest with
    | nil => rfl
    | cons d rest => exact List.takeWhile_cons_of_neg (by simp [hrest d rfl])
  have hdrop : rest.dropWhile (!isBlank ·) = rest :=
    dropWhile_eq_self fun d hd => by simp [hrest d hd]
  rw [words_eq, hstart]
  simp only
  rw [List.takeWhile_append_of_pos hpos, htake, List.append_nil, List.dropWhile_append_of_pos hpos,
    hdrop]

end Text

/-! ## Balanced texts -/

/-- A text in which every parenthesis has its partner. -/
inductive Balanced : List Char → Prop
  | nil : Balanced []
  | char {c : Char} {cs : List Char} (hopen : c ≠ '(') (hclose : c ≠ ')') (hcs : Balanced cs) :
    Balanced (c :: cs)
  | nest {cs ds : List Char} (hcs : Balanced cs) (hds : Balanced ds) :
    Balanced ('(' :: (cs ++ ')' :: ds))

namespace Balanced

theorem append {cs ds : List Char} (hcs : Balanced cs) (hds : Balanced ds) :
    Balanced (cs ++ ds) := by
  induction hcs with
  | nil => exact hds
  | char hopen hclose _ ih => exact char hopen hclose ih
  | nest hcs _ _ ih =>
    rw [List.cons_append, List.append_assoc, List.cons_append]
    exact nest hcs ih

theorem of_forall {cs : List Char} (h : ∀ c ∈ cs, c ≠ '(' ∧ c ≠ ')') : Balanced cs := by
  induction cs with
  | nil => exact nil
  | cons c cs ih =>
    obtain ⟨hc, hcs⟩ := List.forall_mem_cons.mp h
    exact char hc.1 hc.2 (ih hcs)

theorem of_all {cs : List Char} (h : (cs.all fun c => c ≠ '(' ∧ c ≠ ')') = true) : Balanced cs :=
  of_forall (List.all_iff_forall_prop.mp h)

/-- The first parenthesis is an opening one. -/
theorem head_ne {c : Char} {cs : List Char} (h : Balanced (c :: cs)) : c ≠ ')' := by
  cases h with
  | char _ hclose _ => exact hclose
  | nest => decide

end Balanced

/-- Counting goes over a balanced text. -/
theorem takeClosed_balanced {cs : List Char} (h : Balanced cs) {depth : Nat} (hdepth : 1 ≤ depth)
    (rest : List Char) :
    takeClosed depth (cs ++ rest) =
      (takeClosed depth rest).map fun (inside, rest) => (cs ++ inside, rest) := by
  induction h generalizing depth rest with
  | nil => simp
  | char hopen hclose _ ih =>
    rw [List.cons_append, takeClosed, if_neg hopen, if_neg hclose, ih hdepth, Option.map_map]
    rfl
  | nest _ _ ihcs ihds =>
    have hdeep : ¬depth + 1 ≤ 1 := by omega
    rw [List.cons_append, takeClosed, if_pos rfl, List.append_assoc,
      ihcs (by omega), List.cons_append, takeClosed, if_neg (by decide), if_pos rfl, if_neg hdeep,
      Nat.add_sub_cancel, ihds hdepth]
    simp only [Option.map_map]
    congr 1
    funext ⟨inside, rest⟩
    simp

/-! ## Printed models -/

/-- A run of blanks, perhaps an empty one. -/
structure Blanks where
  chars : List Char
  blank : ∀ c ∈ chars, Text.isBlank c = true

/-- At least one blank. -/
structure Gap extends Blanks where
  ne_nil : chars ≠ []

/-- The name of an entry. -/
structure ModelName where
  chars : List Char
  ne_nil : chars ≠ []
  plain : ∀ c ∈ chars, Text.isBlank c = false ∧ c ≠ '(' ∧ c ≠ ')'

/-- What a model has for a function with parameters. -/
structure FunctionTable where
  name : ModelName
  /-- The text between the parentheses of the parameter list, which is not empty. -/
  params : List Char
  sort : List Char
  body : List Char
  params_balanced : Balanced params
  sort_balanced : Balanced sort
  body_balanced : Balanced body
  params_filled : ∃ c ∈ params, Text.isBlank c = false

/-- An entry of a model. -/
inductive ModelEntry where
  | int (name : ModelName) (value : Int) (lower : -int128Bound < value)
    (upper : value < int128Bound)
  | table (f : FunctionTable)

/-- The blanks of a printed entry. One more blank belongs to the keyword. -/
structure EntryGaps where
  before : Blanks
  afterKeyword : Blanks
  afterName : Gap
  afterParams : Blanks
  afterSort : Gap
  /-- Between the sign and the digits of a negative number. -/
  afterSign : Gap
  atEnd : Blanks

/-- The number of an entry, with any blanks where `Smt.intText` has one. -/
def intChars (gap : Gap) (n : Int) : List Char :=
  if n < 0 then '(' :: '-' :: (gap.chars ++ ((toString n.natAbs).toList ++ [')']))
  else (toString n).toList

/-- What stands between the keyword and the closing parenthesis of an entry. -/
def ModelEntry.inside (g : EntryGaps) : ModelEntry → List Char
  | .int name n _ _ =>
    g.afterKeyword.chars ++ (name.chars ++ (g.afterName.chars ++ ('(' :: ')' ::
      (g.afterParams.chars ++ ('I' :: 'n' :: 't' ::
        (g.afterSort.chars ++ (intChars g.afterSign n ++ g.atEnd.chars)))))))
  | .table f =>
    g.afterKeyword.chars ++ (f.name.chars ++ (g.afterName.chars ++ ('(' :: (f.params ++ ')' ::
      (g.afterParams.chars ++ (f.sort ++ (g.afterSort.chars ++ (f.body ++ g.atEnd.chars))))))))

def ModelEntry.print (g : EntryGaps) (e : ModelEntry) : List Char :=
  g.before.chars ++ ("(define-fun ".toList ++ (e.inside g ++ [')']))

/-- The two layouts of a model. -/
inductive ModelStyle where
  | bare | headed

def ModelStyle.opening : ModelStyle → List Char
  | .bare => "(".toList
  | .headed => "(model".toList

/-- How an answer with a model is laid out around the entries. -/
structure AnswerLayout where
  style : ModelStyle
  /-- On the line of the answer or behind it. -/
  afterSat : Blanks
  beforeModel : Blanks
  beforeClose : Blanks
  atEnd : Blanks

/-- A printed model. -/
def printModel (l : AnswerLayout) (entries : List (EntryGaps × ModelEntry)) : List Char :=
  l.style.opening ++
    (entries.flatMap (fun entry => entry.2.print entry.1) ++ (l.beforeClose.chars ++ [')']))

/-- A printed model behind the line `sat`. -/
def printAnswer (l : AnswerLayout) (entries : List (EntryGaps × ModelEntry)) : List Char :=
  "sat".toList ++ (l.afterSat.chars ++ '\n' ::
    (l.beforeModel.chars ++ (printModel l entries ++ l.atEnd.chars)))

/-- The integer that an entry gives to a name. -/
def ModelEntry.value? : ModelEntry → Option (String × Int)
  | .int name n _ _ => some (String.ofList name.chars, n)
  | .table _ => none

/-- The integers of a printed model. -/
def printedInts (entries : List (EntryGaps × ModelEntry)) : List (String × Int) :=
  entries.filterMap fun entry => entry.2.value?

/-- A name with the text of its integer. -/
def withText (v : String × Int) : String × String := (v.1, Smt.intText v.2)

/-! ## The inside of an entry is balanced -/

theorem isBlank_ne_paren {c : Char} (h : Text.isBlank c = true) : c ≠ '(' ∧ c ≠ ')' := by
  constructor <;> rintro rfl <;> revert h <;> decide

theorem Blanks.balanced (b : Blanks) : Balanced b.chars :=
  .of_forall fun c hc => isBlank_ne_paren (b.blank c hc)

theorem ModelName.balanced (name : ModelName) : Balanced name.chars :=
  .of_forall fun c hc => (name.plain c hc).2

theorem balanced_numeral (n : Nat) : Balanced (toString n).toList := by
  refine .of_forall fun c hc => ?_
  have hdigit := isDigit_of_mem_toString hc
  constructor <;> rintro rfl <;> cases hdigit

theorem balanced_intChars (gap : Gap) (n : Int) : Balanced (intChars gap n) := by
  unfold intChars
  split
  · have hinside : Balanced ('-' :: (gap.chars ++ (toString n.natAbs).toList)) :=
      .char (by decide) (by decide) (gap.balanced.append (balanced_numeral _))
    have h := Balanced.nest hinside .nil
    rwa [List.cons_append, List.append_assoc] at h
  · next hn =>
    obtain ⟨k, rfl⟩ := Int.eq_ofNat_of_zero_le (Int.not_lt.mp hn)
    exact balanced_numeral k

theorem ModelEntry.balanced_inside (g : EntryGaps) (e : ModelEntry) : Balanced (e.inside g) := by
  cases e with
  | int name n =>
    refine g.afterKeyword.balanced.append (name.balanced.append (g.afterName.balanced.append ?_))
    refine .nest .nil (g.afterParams.balanced.append ?_)
    refine .char (by decide) (by decide) (.char (by decide) (by decide)
      (.char (by decide) (by decide) (g.afterSort.balanced.append ?_)))
    exact (balanced_intChars _ _).append g.atEnd.balanced
  | table f =>
    refine g.afterKeyword.balanced.append (f.name.balanced.append (g.afterName.balanced.append ?_))
    refine .nest f.params_balanced (g.afterParams.balanced.append (f.sort_balanced.append ?_))
    exact g.afterSort.balanced.append (f.body_balanced.append g.atEnd.balanced)

/-! ## One entry -/

/-- The first word and what follows it in a normalised text. -/
theorem exists_intercalate_cons (w : List Char) (ws : List (List Char)) :
    ∃ rest, [' '].intercalate (w :: ws) = w ++ rest ∧ ∀ c ∈ rest.head?, c = ' ' := by
  cases ws with
  | nil => exact ⟨[], by simp [List.intercalate], by simp⟩
  | cons v ws =>
    exact ⟨' ' :: [' '].intercalate (v :: ws), by simp [List.intercalate], by simp⟩

theorem Gap.head_blank (gap : Gap) (cs : List Char) :
    ∀ c ∈ (gap.chars ++ cs).head?, Text.isBlank c = true := by
  obtain ⟨b, bs, hb⟩ := List.exists_cons_of_ne_nil gap.ne_nil
  rw [hb]
  rintro _ ⟨⟩
  exact gap.blank b (hb ▸ List.mem_cons_self)

theorem Blanks.head_blank (b : Blanks) : ∀ c ∈ b.chars.head?, Text.isBlank c = true :=
  fun c hc => b.blank c (List.mem_of_mem_head? hc)

theorem Blanks.words_eq_nil (b : Blanks) : Text.words b.chars = [] := by
  rw [← List.append_nil b.chars, Text.words_blank_append b.blank, Text.words_eq]
  rfl

theorem isBlank_of_mem_numeral {n : Nat} {c : Char} (h : c ∈ (toString n).toList) :
    Text.isBlank c = false :=
  Text.isBlank_of_isDigit (isDigit_of_mem_toString h)

theorem toString_ne_nil (n : Nat) : (toString n).toList ≠ [] := by
  obtain ⟨c, cs, h, -⟩ := Text.toString_eq_cons n
  rw [h]
  exact List.cons_ne_nil c cs

/-- Whatever the blanks, the words of a number are those of its text. -/
theorem intercalate_words_intChars (gap : Gap) (n : Int) (b : Blanks) :
    Text.words (intChars gap n ++ b.chars) ≠ [] ∧
      [' '].intercalate (Text.words (intChars gap n ++ b.chars)) = (Smt.intText n).toList := by
  unfold intChars Smt.intText
  split
  · have hsign : ∀ c ∈ ['(', '-'], Text.isBlank c = false := List.all_iff_forall_prop.mp (by decide)
    have hdigits : ∀ c ∈ (toString n.natAbs).toList ++ [')'], Text.isBlank c = false := by
      intro c hc
      rcases List.mem_append.mp hc with hc | hc
      · exact isBlank_of_mem_numeral hc
      · rw [List.mem_singleton.mp hc]
        decide
    -- the blanks after the sign separate two words, and those at the end none
    have hwords : Text.words ('(' :: '-' :: (gap.chars ++ ((toString n.natAbs).toList ++ [')']))
        ++ b.chars) = [['(', '-'], (toString n.natAbs).toList ++ [')']] := by
      calc _ = Text.words (['(', '-'] ++ (gap.chars ++
              (((toString n.natAbs).toList ++ [')']) ++ b.chars))) := by
            simp only [List.cons_append, List.nil_append, List.append_assoc]
        _ = _ := by
            rw [Text.words_token (List.cons_ne_nil _ _) hsign (gap.head_blank _),
              Text.words_blank_append gap.blank,
              Text.words_token (List.append_ne_nil_of_right_ne_nil _ (List.cons_ne_nil _ _)) hdigits
                b.head_blank, b.words_eq_nil]
    rw [hwords, toList_negation]
    exact ⟨List.cons_ne_nil _ _, by simp [List.intercalate]⟩
  · next hn =>
    obtain ⟨k, rfl⟩ := Int.eq_ofNat_of_zero_le (Int.not_lt.mp hn)
    have hwords : Text.words ((toString k).toList ++ b.chars) = [(toString k).toList] := by
      rw [Text.words_token (toString_ne_nil k) (fun c hc => isBlank_of_mem_numeral hc) b.head_blank,
        b.words_eq_nil]
    have htext : toString (k : Int) = toString k := rfl
    rw [htext, hwords]
    exact ⟨List.cons_ne_nil _ _, by simp [List.intercalate]⟩

/-- Behind an empty parameter list and the sort stands the value, whether or not a blank follows
the list. -/
theorem strip?_params (b : Blanks) (gap : Gap) {cs : List Char} (hcs : Text.words cs ≠ []) :
    ∃ v ws rest,
      Text.words ('(' :: ')' :: (b.chars ++ ('I' :: 'n' :: 't' :: (gap.chars ++ cs)))) = v :: ws ∧
      Text.strip? ['(', ')'] ([' '].intercalate (v :: ws)) = some rest ∧
      Text.trimStart rest = 'I' :: 'n' :: 't' :: ' ' :: [' '].intercalate (Text.words cs) := by
  obtain ⟨w, ws, hws⟩ := List.exists_cons_of_ne_nil hcs
  have hsort : ∀ c ∈ ['I', 'n', 't'], Text.isBlank c = false :=
    List.all_iff_forall_prop.mp (by decide)
  have htail : Text.words (['I', 'n', 't'] ++ (gap.chars ++ cs)) = ['I', 'n', 't'] :: w :: ws := by
    rw [Text.words_token (List.cons_ne_nil _ _) hsort (gap.head_blank _),
      Text.words_blank_append gap.blank, hws]
  rw [hws]
  -- without a blank the list and the sort are one word
  by_cases hb : b.chars = []
  · have hboth : ∀ c ∈ ['(', ')', 'I', 'n', 't'], Text.isBlank c = false :=
      List.all_iff_forall_prop.mp (by decide)
    have hwords : Text.words ('(' :: ')' :: (b.chars ++ ('I' :: 'n' :: 't' :: (gap.chars ++ cs)))) =
        ['(', ')', 'I', 'n', 't'] :: w :: ws := by
      calc _ = Text.words (['(', ')', 'I', 'n', 't'] ++ (gap.chars ++ cs)) := by rw [hb]; rfl
        _ = _ := by
            rw [Text.words_token (List.cons_ne_nil _ _) hboth (gap.head_blank _),
              Text.words_blank_append gap.blank, hws]
    exact ⟨_, _, _, hwords, rfl, rfl⟩
  · have hparams : ∀ c ∈ ['(', ')'], Text.isBlank c = false :=
      List.all_iff_forall_prop.mp (by decide)
    have hwords : Text.words ('(' :: ')' :: (b.chars ++ ('I' :: 'n' :: 't' :: (gap.chars ++ cs)))) =
        ['(', ')'] :: ['I', 'n', 't'] :: w :: ws := by
      calc _ = Text.words (['(', ')'] ++ (b.chars ++ (['I', 'n', 't'] ++ (gap.chars ++ cs)))) := rfl
        _ = _ := by
            rw [Text.words_token (List.cons_ne_nil _ _) hparams (Gap.head_blank ⟨b, hb⟩ _),
              Text.words_blank_append b.blank, htail]
    exact ⟨_, _, _, hwords, rfl, rfl⟩

theorem trim_intText (n : Int) :
    Text.trim (' ' :: (Smt.intText n).toList) = (Smt.intText n).toList := by
  have hblank : Text.trim (' ' :: (Smt.intText n).toList) = Text.trim (Smt.intText n).toList := rfl
  rw [hblank]
  unfold Smt.intText
  split
  · rw [toList_negation]
    exact Text.trim_parens ('-' :: ' ' :: (toString n.natAbs).toList)
  · next hn =>
    obtain ⟨k, rfl⟩ := Int.eq_ofNat_of_zero_le (Int.not_lt.mp hn)
    exact Text.trim_toString k

theorem intText_ne_nil (n : Int) : (Smt.intText n).toList ≠ [] := by
  unfold Smt.intText
  split
  · rw [toList_negation]
    exact List.cons_ne_nil _ _
  · next hn =>
    obtain ⟨k, rfl⟩ := Int.eq_ofNat_of_zero_le (Int.not_lt.mp hn)
    exact toString_ne_nil k

/-- The name of an entry is its first word. -/
theorem ModelName.words_name (name : ModelName) (b : Blanks) (gap : Gap) (cs : List Char) :
    Text.words (b.chars ++ (name.chars ++ (gap.chars ++ cs))) = name.chars :: Text.words cs := by
  rw [Text.words_blank_append b.blank,
    Text.words_token name.ne_nil (fun c hc => (name.plain c hc).1) (gap.head_blank _),
    Text.words_blank_append gap.blank]

theorem definition?_int (g : EntryGaps) (name : ModelName) (n : Int) (lower : -int128Bound < n)
    (upper : n < int128Bound) :
    definition? ((ModelEntry.int name n lower upper).inside g) =
      some (String.ofList name.chars, Smt.intText n) := by
  obtain ⟨hvalue, hjoin⟩ := intercalate_words_intChars g.afterSign n g.atEnd
  obtain ⟨v, ws, rest, hwords, hstrip, htrim⟩ := strip?_params g.afterParams g.afterSort hvalue
  rw [hjoin] at htrim
  have hsort : dropSort? ('I' :: 'n' :: 't' :: ' ' :: (Smt.intText n).toList) =
      some (' ' :: (Smt.intText n).toList) := rfl
  unfold definition? ModelEntry.inside
  rw [name.words_name, hwords]
  simp only [hstrip, htrim, hsort, trim_intText, Option.bind_eq_bind, Option.bind_some,
    List.isEmpty_eq_false_iff.mpr (intText_ne_nil n), Bool.false_eq_true, if_false,
    String.ofList_toList]

/-- A definition with parameters is no entry: the character behind the first parenthesis is not a
closing one. -/
theorem definition?_table (g : EntryGaps) (f : FunctionTable) :
    definition? ((ModelEntry.table f).inside g) = none := by
  obtain ⟨c, hc, -⟩ := f.params_filled
  obtain ⟨d, ds, hparams⟩ := List.exists_cons_of_ne_nil (List.ne_nil_of_mem hc)
  have hd : d ≠ ')' := Balanced.head_ne (hparams ▸ f.params_balanced)
  unfold definition? ModelEntry.inside
  rw [f.name.words_name, hparams, List.cons_append]
  generalize ds ++ _ = rest
  have hstart : Text.trimStart ('(' :: d :: rest) = '(' :: d :: rest := rfl
  rw [Text.words_eq, hstart]
  simp only
  obtain ⟨tail, hjoin, htail⟩ :=
    exists_intercalate_cons ('(' :: (d :: rest).takeWhile (!Text.isBlank ·))
      (Text.words ((d :: rest).dropWhile (!Text.isBlank ·)))
  -- behind the first parenthesis comes that character, or a blank if it is one
  have hstrip : Text.strip? ['(', ')']
      ('(' :: (d :: rest).takeWhile (!Text.isBlank ·) ++ tail) = none := by
    by_cases hblank : Text.isBlank d = true
    · rw [List.takeWhile_cons_of_neg (by simp [hblank])]
      cases tail with
      | nil => rfl
      | cons e tail =>
        rw [htail e rfl]
        rfl
    · rw [List.takeWhile_cons_of_pos (by simpa using hblank)]
      simp [Text.strip?, Ne.symm hd]
  rw [hjoin, hstrip]
  rfl

/-! ## All entries -/

theorem definitions_cons_of_ne {c : Char} (h : c ≠ '(') (cs : List Char) :
    definitions (c :: cs) = definitions cs := by
  rw [definitions, if_neg h]

theorem definitions_append_of_forall {pre : List Char} (h : ∀ c ∈ pre, c ≠ '(') (cs : List Char) :
    definitions (pre ++ cs) = definitions cs := by
  induction pre with
  | nil => rfl
  | cons c pre ih =>
    obtain ⟨hc, hpre⟩ := List.forall_mem_cons.mp h
    rw [List.cons_append, definitions_cons_of_ne hc, ih hpre]

/-- A parenthesis that opens something else is passed over. -/
theorem definitions_open {cs : List Char} (h : ∀ c ∈ cs.head?, c ≠ 'd') :
    definitions ('(' :: cs) = definitions cs := by
  have hstrip : Text.strip? defineFun cs = none := by
    cases cs with
    | nil => rfl
    | cons c cs => exact if_neg (Ne.symm (h c rfl))
  rw [definitions, if_pos rfl, hstrip]

theorem strip?_defineFun (cs : List Char) : Text.strip? defineFun (defineFun ++ cs) = some cs := by
  have hwritten : defineFun = ['d', 'e', 'f', 'i', 'n', 'e', '-', 'f', 'u', 'n', ' '] := rfl
  simp [hwritten, Text.strip?]

theorem definitions_definition {inside : List Char} (h : Balanced inside) (rest : List Char) :
    definitions ("(define-fun ".toList ++ (inside ++ ')' :: rest)) =
      (definition? inside).toList ++ definitions rest := by
  have hopen : "(define-fun ".toList = '(' :: defineFun := rfl
  have hkeyword : Balanced defineFun := .of_all (by decide)
  have hclosed : takeClosed 1 (defineFun ++ (inside ++ ')' :: rest)) =
      some (defineFun ++ inside ++ [')'], rest) := by
    rw [← List.append_assoc, takeClosed_balanced (hkeyword.append h) (Nat.le_refl 1)]
    rfl
  rw [hopen, List.cons_append, definitions, if_pos rfl, strip?_defineFun]
  simp only
  split
  · next hnone =>
    rw [hclosed] at hnone
    cases hnone
  · next hsome =>
    rw [hclosed] at hsome
    cases hsome
    rw [List.append_assoc, List.drop_left, List.dropLast_concat]

theorem Blanks.ne_open (b : Blanks) : ∀ c ∈ b.chars, c ≠ '(' :=
  fun c hc => (isBlank_ne_paren (b.blank c hc)).1

theorem ModelEntry.definitions_print (g : EntryGaps) (e : ModelEntry) (rest : List Char) :
    definitions (e.print g ++ rest) =
      (e.value?.map withText).toList ++ definitions rest := by
  have hsplit : e.print g ++ rest =
      g.before.chars ++ ("(define-fun ".toList ++ (e.inside g ++ ')' :: rest)) := by
    rw [ModelEntry.print]
    simp only [List.append_assoc, List.cons_append, List.nil_append]
  rw [hsplit, definitions_append_of_forall g.before.ne_open,
    definitions_definition (e.balanced_inside g)]
  cases e with
  | int name n lower upper =>
    rw [definition?_int]
    rfl
  | table f =>
    rw [definition?_table]
    rfl

theorem definitions_entries (entries : List (EntryGaps × ModelEntry)) (rest : List Char) :
    definitions (entries.flatMap (fun entry => entry.2.print entry.1) ++ rest) =
      (printedInts entries).map withText ++ definitions rest := by
  induction entries with
  | nil => rfl
  | cons entry entries ih =>
    rw [List.flatMap_cons, List.append_assoc, ModelEntry.definitions_print, ih]
    cases hv : entry.2.value? with
    | none =>
      have hints : printedInts (entry :: entries) = printedInts entries :=
        List.filterMap_cons_none hv
      rw [hints]
      rfl
    | some v =>
      have hints : printedInts (entry :: entries) = v :: printedInts entries :=
        List.filterMap_cons_some hv
      rw [hints]
      rfl

theorem Blanks.head_append (b : Blanks) {cs : List Char} (h : ∀ c ∈ cs.head?, c ≠ 'd') :
    ∀ c ∈ (b.chars ++ cs).head?, c ≠ 'd' := by
  cases hb : b.chars with
  | nil => exact h
  | cons d ds =>
    have hblank := b.blank d (hb ▸ List.mem_cons_self)
    rintro _ ⟨⟩ rfl
    revert hblank
    decide

/-- What is not in a definition is passed over. -/
theorem definitions_printModel (l : AnswerLayout) (entries : List (EntryGaps × ModelEntry)) :
    definitions (printModel l entries) =
      (printedInts entries).map withText := by
  have hclose : definitions (l.beforeClose.chars ++ [')']) = [] := by
    rw [definitions_append_of_forall l.beforeClose.ne_open, definitions_cons_of_ne (by decide),
      definitions]
  -- the first parenthesis does not open a definition, even if it has no keyword
  have hhead : ∀ c ∈ (entries.flatMap (fun entry => entry.2.print entry.1) ++
      (l.beforeClose.chars ++ [')'])).head?, c ≠ 'd' := by
    cases entries with
    | nil => exact l.beforeClose.head_append (by simp)
    | cons entry entries =>
      rw [List.flatMap_cons, ModelEntry.print, List.append_assoc, List.append_assoc]
      exact entry.1.before.head_append (by rintro _ ⟨⟩; decide)
  unfold printModel
  cases l.style with
  | bare =>
    have hopen : ModelStyle.bare.opening = ['('] := rfl
    rw [hopen, List.singleton_append, definitions_open hhead, definitions_entries, hclose,
      List.append_nil]
  | headed =>
    have hopen : ModelStyle.headed.opening = '(' :: "model".toList := rfl
    rw [hopen, List.cons_append, definitions_open (by simp),
      definitions_append_of_forall (List.all_iff_forall_prop.mp (by decide)), definitions_entries,
      hclose, List.append_nil]

/-! ## The answer -/

theorem Text.head?_splitAt (separator : Char) (cs : List Char) :
    (Text.splitAt separator cs).head? = some (cs.takeWhile (· != separator)) := by
  induction cs with
  | nil => rfl
  | cons c cs ih =>
    rw [Text.splitAt]
    by_cases hc : c = separator
    · simp [hc]
    · cases hsplit : Text.splitAt separator cs with
      | nil =>
        rw [hsplit] at ih
        cases ih
      | cons part parts =>
        rw [hsplit] at ih
        cases ih
        simp [hc]

theorem Text.trim_append {cs b : List Char} (hb : ∀ c ∈ b, Text.isBlank c = true)
    (hfirst : ∀ c ∈ cs.head?, Text.isBlank c = false)
    (hlast : ∀ c ∈ cs.getLast?, Text.isBlank c = false) (hne : cs ≠ []) :
    Text.trim (cs ++ b) = cs := by
  have hstart : Text.trimStart (cs ++ b) = cs ++ b := by
    obtain ⟨c, cs, rfl⟩ := List.exists_cons_of_ne_nil hne
    exact Text.dropWhile_eq_self hfirst
  rw [Text.trim, hstart, Text.dropWhileEnd, List.reverse_append,
    List.dropWhile_append_of_pos (fun c hc => hb c (List.mem_reverse.mp hc)),
    Text.dropWhile_eq_self (by rwa [List.head?_reverse]), List.reverse_reverse]

/-- The rest of the line of the answer is blank. -/
theorem Blanks.takeWhile_line (b : Blanks) (cs : List Char) :
    ∀ c ∈ (b.chars ++ '\n' :: cs).takeWhile (· != '\n'), Text.isBlank c = true := by
  obtain ⟨bs, hbs⟩ := b
  induction bs with
  | nil => simp
  | cons d bs ih =>
    obtain ⟨hd, hbs⟩ := List.forall_mem_cons.mp hbs
    by_cases hline : d = '\n'
    · simp [hline]
    · rw [List.cons_append, List.takeWhile_cons_of_pos (by simpa using hline)]
      exact List.forall_mem_cons.mpr ⟨hd, ih hbs⟩

/-- The first line is the answer. -/
theorem find?_trimmedLines (b : Blanks) (cs : List Char) :
    (Text.trimmedLines ("sat".toList ++ (b.chars ++ '\n' :: cs))).find? (!·.isEmpty) =
      some "sat".toList := by
  have hhead := Text.head?_splitAt '\n' ("sat".toList ++ (b.chars ++ '\n' :: cs))
  rw [List.takeWhile_append_of_pos (List.all_iff_forall_prop.mp (by decide))] at hhead
  obtain ⟨parts, hsplit⟩ := List.head?_eq_some_iff.mp hhead
  have htrim : Text.trim ("sat".toList ++ (b.chars ++ '\n' :: cs).takeWhile (· != '\n')) =
      "sat".toList :=
    Text.trim_append (b.takeWhile_line cs) (by rintro _ ⟨⟩; decide) (by rintro _ ⟨⟩; decide)
      (by decide)
  rw [Text.trimmedLines, hsplit, List.map_cons, htrim]
  rfl

theorem trim_printAnswer (l : AnswerLayout) (entries : List (EntryGaps × ModelEntry)) :
    Text.trim (printAnswer l entries) =
      "sat".toList ++
        (l.afterSat.chars ++ '\n' :: (l.beforeModel.chars ++ printModel l entries)) := by
  have hsplit : printAnswer l entries =
      ("sat".toList ++ (l.afterSat.chars ++ '\n' ::
        (l.beforeModel.chars ++ printModel l entries))) ++ l.atEnd.chars := by
    rw [printAnswer]
    simp only [List.append_assoc, List.cons_append]
  rw [hsplit]
  refine Text.trim_append l.atEnd.blank (by rintro _ ⟨⟩; decide) (fun c hc => ?_)
    (List.append_ne_nil_of_left_ne_nil (by decide) _)
  -- the last character is the parenthesis that closes the model
  rw [printModel] at hc
  simp only [← List.append_assoc, ← List.cons_append] at hc
  rw [List.getLast?_concat] at hc
  cases hc
  decide

theorem readModel?_printed (l : AnswerLayout) (entries : List (EntryGaps × ModelEntry)) :
    readModel? ("sat".toList ++ (l.afterSat.chars ++ '\n' ::
        (l.beforeModel.chars ++ printModel l entries))) =
      if (printedInts entries).isEmpty then none
      else some ⟨(printedInts entries).map withText⟩ := by
  have hentries : definitions ("sat".toList ++ (l.afterSat.chars ++ '\n' ::
      (l.beforeModel.chars ++ printModel l entries))) = (printedInts entries).map withText := by
    rw [definitions_append_of_forall (List.all_iff_forall_prop.mp (by decide)),
      definitions_append_of_forall l.afterSat.ne_open, definitions_cons_of_ne (by decide),
      definitions_append_of_forall l.beforeModel.ne_open, definitions_printModel]
  rw [readModel?, hentries]
  simp only [List.isEmpty_map]

theorem ModelEntry.range_of_value? {e : ModelEntry} {v : String × Int} (h : e.value? = some v) :
    -int128Bound < v.2 ∧ v.2 < int128Bound := by
  cases e with
  | int name n lower upper =>
    cases h
    exact ⟨lower, upper⟩
  | table f => cases h

theorem Model.getInt?_withText {values : List (String × Int)}
    (h : ∀ v ∈ values, -int128Bound < v.2 ∧ v.2 < int128Bound) (x : String) :
    Model.getInt? ⟨values.map withText⟩ x = values.lookup x := by
  induction values with
  | nil => rfl
  | cons v values ih =>
    obtain ⟨hv, hvalues⟩ := List.forall_mem_cons.mp h
    have ih := ih hvalues
    rw [Model.getInt?, Model.get?] at ih ⊢
    rw [List.map_cons, withText, List.lookup_cons, List.lookup_cons]
    split
    · exact modelInt?_intText hv.1 hv.2
    · exact ih

/-- **Models are read back.** Take any entries, integers in the range of 128 bits and tables of
functions, in any order and with repeated names. However their model is laid out behind the line
`sat`, the answer read from it has the integers in their order with their usual text, or no model if
there are none; and the integer of a name is that of its first entry. -/
theorem model_read_back (l : AnswerLayout) (entries : List (EntryGaps × ModelEntry))
    (stderr : List Char) :
    parseAnswer (printAnswer l entries) stderr =
      .ok (.sat (if (printedInts entries).isEmpty then none
        else some ⟨(printedInts entries).map withText⟩)) ∧
    ∀ x, Model.getInt? ⟨(printedInts entries).map withText⟩ x = (printedInts entries).lookup x := by
  constructor
  · have hne : ("sat".toList ++ (l.afterSat.chars ++ '\n' ::
        (l.beforeModel.chars ++ printModel l entries))).isEmpty = false := rfl
    have herror : isErrorLine "sat".toList = false := by decide
    have hsat : String.ofList "sat".toList = "sat" := rfl
    simp only [parseAnswer, trim_printAnswer, hne, find?_trimmedLines, Option.getD_some, herror,
      hsat, readModel?_printed, Bool.false_eq_true, if_false]
  · refine Model.getInt?_withText fun v hv => ?_
    obtain ⟨entry, -, hentry⟩ := List.mem_filterMap.mp hv
    exact ModelEntry.range_of_value? hentry

/-! ### A model with a table and a repeated name -/

/-- No blanks. -/
def noBlanks : Blanks := ⟨[], by simp⟩

/-- A new line, indented. -/
def newLine (indentation : Nat) : Gap where
  chars := '\n' :: List.replicate indentation ' '
  blank := by
    intro c hc
    rcases List.mem_cons.mp hc with rfl | hc
    · decide
    · rw [List.eq_of_mem_replicate hc]
      decide
  ne_nil := List.cons_ne_nil _ _

def oneBlank : Gap := ⟨⟨[' '], List.all_iff_forall_prop.mp (by decide)⟩, by decide⟩

/-- Each definition on a line of its own, and its value on another. -/
def wideGaps : EntryGaps where
  before := (newLine 2).toBlanks
  afterKeyword := noBlanks
  afterName := oneBlank
  afterParams := oneBlank.toBlanks
  afterSort := newLine 4
  afterSign := oneBlank
  atEnd := noBlanks

/-- Everything on one line, with no blank where none is needed. -/
def narrowGaps : EntryGaps where
  before := noBlanks
  afterKeyword := noBlanks
  afterName := oneBlank
  afterParams := noBlanks
  afterSort := oneBlank
  afterSign := newLine 0
  atEnd := oneBlank.toBlanks

/-- The interpretation `(ite (= x!0 0) 1 7)` of a function. -/
def factTable : FunctionTable where
  name := ⟨"fn.fact".toList, by decide, List.all_iff_forall_prop.mp (by decide)⟩
  params := '(' :: ("x!0 Int".toList ++ [')'])
  sort := "Int".toList
  body := '(' :: (("ite ".toList ++ '(' :: ("= x!0 0".toList ++ ')' :: " 1 7".toList)) ++ [')'])
  params_balanced := .nest (.of_all (by decide)) .nil
  sort_balanced := .of_all (by decide)
  body_balanced := .nest ((Balanced.of_all (by decide)).append
    (.nest (.of_all (by decide)) (.of_all (by decide)))) .nil
  params_filled := ⟨'(', List.mem_cons_self, by decide⟩

def nameX : ModelName := ⟨['x'], by decide, List.all_iff_forall_prop.mp (by decide)⟩

def nameR : ModelName := ⟨['r'], by decide, List.all_iff_forall_prop.mp (by decide)⟩

def mixedEntries : List (EntryGaps × ModelEntry) :=
  [(wideGaps, .int nameX 5 (by decide) (by decide)),
    (wideGaps, .table factTable),
    (narrowGaps, .int nameR (-170141183460469231731687303715884105727) (by decide) (by decide)),
    (wideGaps, .int nameX 7 (by decide) (by decide))]

def mixedLayout : AnswerLayout where
  style := .headed
  afterSat := ⟨['\r'], List.all_iff_forall_prop.mp (by decide)⟩
  beforeModel := noBlanks
  beforeClose := (newLine 0).toBlanks
  atEnd := (newLine 0).toBlanks

theorem model_read_back_mixed :
    printAnswer mixedLayout mixedEntries =
      ("sat\r\n(model\n  (define-fun x () Int\n    5)\n  (define-fun fn.fact ((x!0 Int)) Int\n    "
        ++ "(ite (= x!0 0) 1 7))(define-fun r ()Int (-\n170141183460469231731687303715884105727) )"
        ++ "\n  (define-fun x () Int\n    7)\n)\n").toList ∧
    parseAnswer (printAnswer mixedLayout mixedEntries) [] =
      .ok (.sat (some ⟨[("x", "5"), ("r", "(- 170141183460469231731687303715884105727)"),
        ("x", "7")]⟩)) ∧
    Model.getInt? ⟨[("x", "5"), ("r", "(- 170141183460469231731687303715884105727)"),
      ("x", "7")]⟩ "x" = some 5 := by
  obtain ⟨hanswer, hint⟩ := model_read_back mixedLayout mixedEntries []
  have hints : (printedInts mixedEntries).map withText =
      [("x", "5"), ("r", "(- 170141183460469231731687303715884105727)"), ("x", "7")] := by
    decide
  have hsome : (printedInts mixedEntries).isEmpty = false := rfl
  rw [hints, hsome] at hanswer
  have hx := hint "x"
  rw [hints] at hx
  refine ⟨?_, hanswer, hx⟩
  simp only [String.toList_append]
  decide +kernel

end Contracts
