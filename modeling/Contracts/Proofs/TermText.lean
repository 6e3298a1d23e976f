import Contracts.Proofs.Numerals
import Contracts.Proofs.ScriptSorts
import Contracts.Proofs.SexpText
import Mathlib.Data.Bool.AllAny

/-!
# The text of terms and scripts is unambiguous

Different terms can have one text: a negative literal is written as a negation, a conjunction or
disjunction of fewer than two terms as its unit or its only operand, and a function without
arguments as a constant. `Term.canon` makes this choice in a term. It keeps what the term means
(`Term.HasSort.eval_canon`), and it is all that the text forgets: terms have the same text if and
only if they are the same after `canon`, and so have scripts (`smt_text_unambiguous`).

The argument goes over S-expressions. A term is written as one, `Term.sexp`, whose text determines
it, and the reader `Sexp.term?` gets the term after `canon` back.
-/

set_option autoImplicit false

namespace Contracts.Smt

/-! ## Terms up to their text -/

/-- The unit of a conjunction or disjunction. -/
def Junction.unitTerm : Junction → Term
  | .and => .bool true
  | .or => .bool false

/-- A conjunction or disjunction of at least two terms, or what stands in its place. -/
def Junction.canonical (op : Junction) : List Term → Term
  | [] => op.unitTerm
  | [t] => t
  | t :: u :: ts => .junction op (t :: u :: ts)

/-- A function with its arguments, or a constant if there are none. -/
def Term.applied (f : String) : List Term → Term
  | [] => .const f
  | t :: ts => .app f (t :: ts)

/-- An integer literal without a sign, or a negation of one. -/
def Term.literal (n : Int) : Term := if n < 0 then .neg (.int n.natAbs) else .int n

mutual

/-- The term with the choices made that its text does not show. -/
def Term.canon : Term → Term
  | .bool b => .bool b
  | .int n => .literal n
  | .const x => .const x
  | .not t => .not t.canon
  | .neg t => .neg t.canon
  | .junction op ts => op.canonical (Term.canons ts)
  | .binary op a b => .binary op a.canon b.canon
  | .ite a b c => .ite a.canon b.canon c.canon
  | .quantified q vars t => .quantified q vars t.canon
  | .app f ts => .applied f (Term.canons ts)

def Term.canons : List Term → List Term
  | [] => []
  | t :: ts => t.canon :: Term.canons ts

end

theorem Term.canons_eq_map (ts : List Term) : Term.canons ts = ts.map Term.canon := by
  induction ts with
  | nil => rw [Term.canons, List.map_nil]
  | cons t ts ih => rw [Term.canons, List.map_cons, ih]

mutual

/-- The symbols of a term: its constants, its functions and the variables of its quantifiers. -/
def Term.symbols : Term → List String
  | .bool _ | .int _ => []
  | .const x => [x]
  | .not t | .neg t => t.symbols
  | .junction _ ts => Term.symbolsIn ts
  | .binary _ a b => a.symbols ++ b.symbols
  | .ite a b c => a.symbols ++ b.symbols ++ c.symbols
  | .quantified _ vars t => vars.map Prod.fst ++ t.symbols
  | .app f ts => f :: Term.symbolsIn ts

def Term.symbolsIn : List Term → List String
  | [] => []
  | t :: ts => t.symbols ++ Term.symbolsIn ts

end

/-! ## S-expressions of terms -/

def Junction.sexp (op : Junction) : List Sexp → Sexp
  | [] => .atom op.unit
  | [s] => s
  | s :: t :: ss => .list (.atom op.symbol :: s :: t :: ss)

def Sexp.applied (f : String) : List Sexp → Sexp
  | [] => .atom f
  | s :: ss => .list (.atom f :: s :: ss)

def intSexp (n : Int) : Sexp :=
  if n < 0 then .list [.atom "-", .atom (toString n.natAbs)] else .atom (toString n)

def varSexp (x : String × SmtSort) : Sexp := .list [.atom x.1, .atom x.2.text]

mutual

/-- A term as an S-expression. -/
def Term.sexp : Term → Sexp
  | .bool true => .atom "true"
  | .bool false => .atom "false"
  | .int n => intSexp n
  | .const x => .atom x
  | .not t => .list [.atom "not", t.sexp]
  | .neg t => .list [.atom "-", t.sexp]
  | .junction op ts => op.sexp (Term.sexps ts)
  | .binary op a b => .list [.atom op.symbol, a.sexp, b.sexp]
  | .ite a b c => .list [.atom "ite", a.sexp, b.sexp, c.sexp]
  | .quantified q vars t => .list [.atom (quantifierWord q), .list (vars.map varSexp), t.sexp]
  | .app f ts => .applied f (Term.sexps ts)

def Term.sexps : List Term → List Sexp
  | [] => []
  | t :: ts => t.sexp :: Term.sexps ts

end

theorem Junction.toList_text (op : Junction) {parts : List String} {ss : List Sexp}
    (h : parts.map String.toList = ss.map Sexp.chars) :
    (op.text parts).toList = (op.sexp ss).chars := by
  match parts, ss, h with
  | [], [], _ => rw [Junction.text, Junction.sexp, Sexp.chars]
  | [_], [_], h => exact (List.cons.inj h).1
  | [_], _ :: _ :: _, h | _ :: _ :: _, [_], h => cases (List.cons.inj h).2
  | _ :: _ :: _, s :: t :: ss, h =>
    refine Sexp.toList_parens ?_
    rw [List.map_cons, h, List.map_cons (l := s :: t :: ss), Sexp.chars]

theorem toList_applicationText (f : String) {parts : List String} {ss : List Sexp}
    (h : parts.map String.toList = ss.map Sexp.chars) :
    (applicationText f parts).toList = (Sexp.applied f ss).chars := by
  match parts, ss, h with
  | [], [], _ =>
    rw [Sexp.applied, Sexp.chars]
    rfl
  | _ :: _, s :: ss, h =>
    refine Sexp.toList_parens ?_
    rw [List.map_cons, h, List.map_cons (l := s :: ss), Sexp.chars]

theorem toList_intText (n : Int) : (intText n).toList = (intSexp n).chars := by
  unfold intText intSexp
  split
  · exact Sexp.toList_parens rfl
  · rw [Sexp.chars]

theorem toList_varsText (vars : List (String × SmtSort)) :
    (varsText vars).toList = (Sexp.list (vars.map varSexp)).chars := by
  refine Sexp.toList_parens ?_
  rw [List.map_map, List.map_map]
  refine List.map_congr_left fun x _ => ?_
  exact Sexp.toList_parens rfl

mutual

/-- The text of a term is that of its S-expression. -/
theorem Term.toList_text : ∀ t : Term, t.text.toList = t.sexp.chars
  | .bool true | .bool false => by rw [Term.text, Term.sexp, Sexp.chars]
  | .int n => by
    rw [Term.text, Term.sexp]
    exact toList_intText n
  | .const x => by rw [Term.text, Term.sexp, Sexp.chars]
  | .not t | .neg t => by
    rw [Term.text, Term.sexp]
    refine Sexp.toList_parens ?_
    simp only [List.map_cons, List.map_nil, t.toList_text, Sexp.chars]
  | .junction op ts => by
    rw [Term.text, Term.sexp]
    exact op.toList_text (Term.toList_texts ts)
  | .binary op a b => by
    rw [Term.text, Term.sexp]
    refine Sexp.toList_parens ?_
    simp only [List.map_cons, List.map_nil, a.toList_text, b.toList_text, Sexp.chars]
  | .ite a b c => by
    rw [Term.text, Term.sexp]
    refine Sexp.toList_parens ?_
    simp only [List.map_cons, List.map_nil, a.toList_text, b.toList_text, c.toList_text, Sexp.chars]
  | .quantified q vars t => by
    rw [Term.text, Term.sexp]
    refine Sexp.toList_parens ?_
    simp only [List.map_cons, List.map_nil, t.toList_text, toList_varsText]
    rw [Sexp.chars]
  | .app f ts => by
    rw [Term.text, Term.sexp]
    exact toList_applicationText f (Term.toList_texts ts)

theorem Term.toList_texts : ∀ ts : List Term,
    (Term.texts ts).map String.toList = (Term.sexps ts).map Sexp.chars
  | [] => by rw [Term.texts, Term.sexps, List.map_nil, List.map_nil]
  | t :: ts => by
    rw [Term.texts, Term.sexps, List.map_cons, List.map_cons, t.toList_text, Term.toList_texts ts]

end

theorem Junction.sexp_canonical (op : Junction) (ts : List Term) :
    (op.canonical ts).sexp = op.sexp (Term.sexps ts) := by
  match op, ts with
  | .and, [] | .or, [] =>
    rw [Term.sexps, Junction.canonical, Junction.unitTerm, Term.sexp]
    rfl
  | op, [t] => rw [Term.sexps, Term.sexps, Junction.canonical, Junction.sexp]
  | op, t :: u :: ts => rw [Junction.canonical, Term.sexp]

theorem Term.sexp_applied (f : String) (ts : List Term) :
    (Term.applied f ts).sexp = Sexp.applied f (Term.sexps ts) := by
  cases ts with
  | nil => rw [Term.applied, Term.sexp, Term.sexps, Sexp.applied]
  | cons t ts => rw [Term.applied, Term.sexp]

theorem Term.sexp_literal (n : Int) : (Term.literal n).sexp = intSexp n := by
  unfold Term.literal
  split
  · next hn =>
    have habs : ¬((n.natAbs : Int) < 0) := by omega
    rw [Term.sexp, Term.sexp, intSexp, if_neg habs, intSexp, if_pos hn]
    rfl
  · rw [Term.sexp]

mutual

/-- The choices that `canon` makes do not show. -/
theorem Term.sexp_canon : ∀ t : Term, t.canon.sexp = t.sexp
  | .bool _ | .const _ => by rw [Term.canon]
  | .int n => by rw [Term.canon, Term.sexp_literal, Term.sexp]
  | .not t | .neg t => by rw [Term.canon, Term.sexp, Term.sexp, t.sexp_canon]
  | .junction op ts => by
    rw [Term.canon, Junction.sexp_canonical, Term.sexps_canons, Term.sexp]
  | .binary _ a b => by rw [Term.canon, Term.sexp, Term.sexp, a.sexp_canon, b.sexp_canon]
  | .ite a b c => by
    rw [Term.canon, Term.sexp, Term.sexp, a.sexp_canon, b.sexp_canon, c.sexp_canon]
  | .quantified _ _ t => by rw [Term.canon, Term.sexp, Term.sexp, t.sexp_canon]
  | .app f ts => by rw [Term.canon, Term.sexp_applied, Term.sexps_canons, Term.sexp]

theorem Term.sexps_canons : ∀ ts : List Term, Term.sexps (Term.canons ts) = Term.sexps ts
  | [] => by rw [Term.canons]
  | t :: ts => by rw [Term.canons, Term.sexps, Term.sexps, t.sexp_canon, Term.sexps_canons ts]

end

/-- The text is that of the term after `canon`. -/
theorem Term.text_canon (t : Term) : t.canon.text = t.text := by
  apply String.toList_injective
  rw [Term.toList_text, Term.toList_text, Term.sexp_canon]

/-! ## Reading terms -/

/-- What the first word of a list says about the rest. -/
inductive Head where
  | not | minus | ite
  | junction (op : Junction)
  | binary (op : BinOp)
  | quantifier (q : Quantifier)
  | function (f : String)

/-- The words with a meaning of their own at the start of a list. -/
def headWords : List (String × Head) :=
  [("not", .not), ("-", .minus), ("ite", .ite), ("and", .junction .and), ("or", .junction .or),
    ("=>", .binary .implies), ("=", .binary .eq), ("+", .binary .add), ("*", .binary .mul),
    ("div", .binary .div), ("<", .binary .lt), ("<=", .binary .le), (">", .binary .gt),
    (">=", .binary .ge), ("forall", .quantifier .universal), ("exists", .quantifier .existential)]

def Head.ofWord (w : String) : Head := (headWords.lookup w).getD (.function w)

/-- The words that are no symbols: the truth values, and those that name operators and binders. -/
def builtinWords : List String := "true" :: "false" :: headWords.map Prod.fst

/-- A name that can be written as a symbol: a word that is no numeral and not built in. -/
structure IsSymbol (w : String) : Prop where
  word : Sexp.IsWord w
  not_numeral : ∀ n : Nat, w ≠ toString n
  not_builtin : w ∉ builtinWords

/-- The term that a word alone stands for. -/
def Term.ofWord (w : String) : Term :=
  match Text.decimal? w.toList with
  | some n => if w = toString n then .int n else .const w
  | none => if w = "true" then .bool true else if w = "false" then .bool false else .const w

def SmtSort.ofWord? (w : String) : Option SmtSort :=
  if w = "Bool" then some .bool else if w = "Int" then some .int else none

def Sexp.var? : Sexp → Option (String × SmtSort)
  | .list [.atom x, .atom w] => (SmtSort.ofWord? w).map fun sort => (x, sort)
  | _ => none

def Sexp.vars? : Sexp → Option (List (String × SmtSort))
  | .list items => items.mapM Sexp.var?
  | .atom _ => none

/-- The term of a list from its head and from its other items, which come as they are and as the
terms that they stand for. -/
def Head.term? : Head → List Sexp → List (Option Term) → Option Term
  | .not, _, [some t] => some (.not t)
  | .minus, _, [some t] => some (.neg t)
  | .minus, _, [some a, some b] => some (.binary .sub a b)
  | .ite, _, [some a, some b, some c] => some (.ite a b c)
  | .junction op, _, ts => (ts.mapM id).map (.junction op)
  | .binary op, _, [some a, some b] => some (.binary op a b)
  | .quantifier q, [vars, _], [_, some t] => vars.vars?.map fun xs => .quantified q xs t
  | .function f, _, ts => (ts.mapM id).map (.app f)
  | _, _, _ => none

mutual

/-- The term that an S-expression stands for. -/
def Sexp.term? : Sexp → Option Term
  | .atom w => some (.ofWord w)
  | .list (.atom w :: items) => (Head.ofWord w).term? items (Sexp.terms? items)
  | .list _ => none

def Sexp.terms? : List Sexp → List (Option Term)
  | [] => []
  | s :: ss => s.term? :: Sexp.terms? ss

end

theorem Term.ofWord_toString (n : Nat) : Term.ofWord (toString n) = .int n := by
  rw [Term.ofWord, Text.decimal?_toString]
  exact if_pos rfl

theorem Term.ofWord_of_isSymbol {w : String} (h : IsSymbol w) : Term.ofWord w = .const w := by
  have htrue : w ≠ "true" := by
    rintro rfl
    exact h.not_builtin (by decide)
  have hfalse : w ≠ "false" := by
    rintro rfl
    exact h.not_builtin (by decide)
  unfold Term.ofWord
  split
  -- digits that are no numeral, such as those with zeros in front, are a name
  · exact if_neg (h.not_numeral _)
  · rw [if_neg htrue, if_neg hfalse]

theorem Head.ofWord_of_isSymbol {w : String} (h : IsSymbol w) : Head.ofWord w = .function w := by
  have hnone : headWords.lookup w = none := by
    rw [List.lookup_eq_none_iff]
    intro p hp
    rw [bne_iff_ne]
    rintro rfl
    refine h.not_builtin ?_
    exact List.mem_cons_of_mem _ (List.mem_cons_of_mem _ (List.mem_map_of_mem hp))
  rw [Head.ofWord, hnone, Option.getD_none]

theorem Head.ofWord_junction (op : Junction) : Head.ofWord op.symbol = .junction op := by
  cases op <;> rfl

theorem Head.ofWord_quantifierWord (q : Quantifier) :
    Head.ofWord (quantifierWord q) = .quantifier q := by
  cases q <;> rfl

/-- Subtraction shares its sign with negation; the number of operands tells them apart. -/
theorem Head.term?_binary (op : BinOp) (items : List Sexp) (a b : Term) :
    (Head.ofWord op.symbol).term? items [some a, some b] = some (.binary op a b) := by
  cases op <;> rfl

theorem mapM_id_some {α : Type} (ts : List α) : (ts.map some).mapM id = some ts := by
  induction ts with
  | nil => rfl
  | cons t ts ih =>
    rw [List.map_cons, List.mapM_cons, ih]
    rfl

theorem SmtSort.ofWord?_text (sort : SmtSort) : SmtSort.ofWord? sort.text = some sort := by
  cases sort <;> rfl

theorem Sexp.vars?_varSexp (vars : List (String × SmtSort)) :
    (Sexp.list (vars.map varSexp)).vars? = some vars := by
  have hvar : ∀ x : String × SmtSort, (varSexp x).var? = some x := by
    intro x
    rw [varSexp, Sexp.var?, SmtSort.ofWord?_text, Option.map_some]
  rw [Sexp.vars?, List.mapM_map]
  induction vars with
  | nil => rfl
  | cons x vars ih =>
    rw [List.mapM_cons, ih, Function.comp_apply, hvar]
    rfl

theorem Junction.term?_sexp (op : Junction) {ss : List Sexp} {ts : List Term}
    (h : Sexp.terms? ss = ts.map some) : (op.sexp ss).term? = some (op.canonical ts) := by
  match ss, ts, h with
  | [], [], _ =>
    rw [Junction.sexp, Sexp.term?]
    cases op <;> rfl
  | [s], [t], h =>
    rw [Sexp.terms?] at h
    exact (List.cons.inj h).1
  | [s], _ :: _ :: _, h | s :: _ :: _, [_], h =>
    simp only [Sexp.terms?] at h
    cases (List.cons.inj h).2
  | s :: t :: ss, a :: b :: ts, h =>
    rw [Junction.sexp, Sexp.term?, h, Head.ofWord_junction, Head.term?, mapM_id_some]
    rfl

theorem Sexp.term?_applied {f : String} (hf : IsSymbol f) {ss : List Sexp} {ts : List Term}
    (h : Sexp.terms? ss = ts.map some) : (Sexp.applied f ss).term? = some (Term.applied f ts) := by
  match ss, ts, h with
  | [], [], _ => rw [Sexp.applied, Sexp.term?, Term.ofWord_of_isSymbol hf, Term.applied]
  | s :: ss, t :: ts, h =>
    rw [Sexp.applied, Sexp.term?, h, Head.ofWord_of_isSymbol hf, Head.term?, mapM_id_some]
    rfl

theorem term?_intSexp (n : Int) : (intSexp n).term? = some (.literal n) := by
  unfold intSexp Term.literal
  split
  · rw [Sexp.term?, Sexp.terms?, Sexp.terms?, Sexp.term?, Term.ofWord_toString]
    rfl
  · next hn =>
    obtain ⟨k, rfl⟩ := Int.eq_ofNat_of_zero_le (Int.not_lt.mp hn)
    rw [Sexp.term?]
    exact congrArg some (Term.ofWord_toString k)

mutual

/-- **Reading inverts writing** up to `canon`. -/
theorem Term.term?_sexp : ∀ {t : Term}, (∀ x ∈ t.symbols, IsSymbol x) →
    t.sexp.term? = some t.canon
  | .bool true, _ | .bool false, _ => by
    rw [Term.sexp, Term.canon, Sexp.term?]
    rfl
  | .int n, _ => by
    rw [Term.sexp, Term.canon]
    exact term?_intSexp n
  | .const x, h => by
    rw [Term.sexp, Term.canon, Sexp.term?, Term.ofWord_of_isSymbol (h x List.mem_cons_self)]
  | .not t, h | .neg t, h => by
    rw [Term.symbols] at h
    rw [Term.sexp, Term.canon, Sexp.term?, Sexp.terms?, Sexp.terms?, Term.term?_sexp h]
    rfl
  | .junction op ts, h => by
    rw [Term.symbols] at h
    rw [Term.sexp, Term.canon]
    exact op.term?_sexp (Term.terms?_sexps h)
  | .binary op a b, h => by
    rw [Term.symbols, List.forall_mem_append] at h
    rw [Term.sexp, Term.canon, Sexp.term?, Sexp.terms?, Sexp.terms?, Sexp.terms?,
      Term.term?_sexp h.1, Term.term?_sexp h.2, Head.term?_binary]
  | .ite a b c, h => by
    rw [Term.symbols, List.forall_mem_append, List.forall_mem_append] at h
    rw [Term.sexp, Term.canon, Sexp.term?, Sexp.terms?, Sexp.terms?, Sexp.terms?, Sexp.terms?,
      Term.term?_sexp h.1.1, Term.term?_sexp h.1.2, Term.term?_sexp h.2]
    rfl
  | .quantified q vars t, h => by
    rw [Term.symbols, List.forall_mem_append] at h
    rw [Term.sexp, Term.canon, Sexp.term?, Sexp.terms?, Sexp.terms?, Sexp.terms?,
      Term.term?_sexp h.2, Head.ofWord_quantifierWord, Head.term?, Sexp.vars?_varSexp]
    rfl
  | .app f ts, h => by
    rw [Term.symbols, List.forall_mem_cons] at h
    rw [Term.sexp, Term.canon]
    exact Sexp.term?_applied h.1 (Term.terms?_sexps h.2)

theorem Term.terms?_sexps : ∀ {ts : List Term}, (∀ x ∈ Term.symbolsIn ts, IsSymbol x) →
    Sexp.terms? (Term.sexps ts) = (Term.canons ts).map some
  | [], _ => by rw [Term.sexps, Sexp.terms?, Term.canons, List.map_nil]
  | t :: ts, h => by
    rw [Term.symbolsIn, List.forall_mem_append] at h
    rw [Term.sexps, Sexp.terms?, Term.canons, List.map_cons, Term.term?_sexp h.1,
      Term.terms?_sexps h.2]

end

/-! ## The text determines the term -/

instance (w : String) : Decidable (Sexp.IsWord w) :=
  -- only the characters of the word are tried
  decidable_of_iff (w ≠ "" ∧ w.toList.all fun c => Text.isBlank c = false ∧ c ≠ '(' ∧ c ≠ ')')
    ⟨fun h => ⟨h.1, List.all_iff_forall_prop.mp h.2⟩,
      fun h => ⟨h.ne_empty, List.all_iff_forall_prop.mpr h.plain⟩⟩

theorem isWord_toString (n : Nat) : Sexp.IsWord (toString n) := by
  refine ⟨fun h => ?_, fun c hc => ?_⟩
  · obtain ⟨c, cs, hcons, -⟩ := Text.toString_eq_cons n
    rw [h] at hcons
    cases hcons
  · have hdigit := isDigit_of_mem_toString hc
    refine ⟨Text.isBlank_of_isDigit hdigit, ?_, ?_⟩
    · rintro rfl
      cases hdigit
    · rintro rfl
      cases hdigit

theorem Sexp.words_atom {w : String} (h : Sexp.IsWord w) : (Sexp.atom w).Words := h

theorem SmtSort.isWord_text (sort : SmtSort) : Sexp.IsWord sort.text := by
  cases sort <;> decide

theorem words_varSexps {vars : List (String × SmtSort)}
    (h : ∀ x ∈ vars.map Prod.fst, Sexp.IsWord x) : Sexp.WordsIn (vars.map varSexp) := by
  induction vars with
  | nil => trivial
  | cons x vars ih =>
    rw [List.map_cons, List.forall_mem_cons] at h
    exact ⟨⟨h.1, x.2.isWord_text, trivial⟩, ih h.2⟩

theorem words_intSexp (n : Int) : (intSexp n).Words := by
  unfold intSexp
  split
  · exact ⟨Sexp.words_atom (by decide), isWord_toString _, trivial⟩
  · next hn =>
    obtain ⟨k, rfl⟩ := Int.eq_ofNat_of_zero_le (Int.not_lt.mp hn)
    exact isWord_toString k

theorem Junction.words_sexp (op : Junction) {ss : List Sexp} (h : Sexp.WordsIn ss) :
    (op.sexp ss).Words := by
  rcases ss with _ | ⟨s, _ | ⟨t, ss⟩⟩
  · refine Sexp.words_atom ?_
    cases op <;> decide
  · exact h.1
  · refine ⟨Sexp.words_atom ?_, h⟩
    cases op <;> decide

mutual

theorem Term.words_sexp : ∀ {t : Term}, (∀ x ∈ t.symbols, Sexp.IsWord x) → t.sexp.Words
  | .bool true, _ | .bool false, _ => by
    rw [Term.sexp, Sexp.Words]
    decide
  | .int n, _ => by
    rw [Term.sexp]
    exact words_intSexp n
  | .const x, h => by
    rw [Term.sexp, Sexp.Words]
    exact h x List.mem_cons_self
  | .not t, h | .neg t, h => by
    rw [Term.symbols] at h
    rw [Term.sexp]
    exact ⟨Sexp.words_atom (by decide), Term.words_sexp h, trivial⟩
  | .junction op ts, h => by
    rw [Term.symbols] at h
    rw [Term.sexp]
    exact op.words_sexp (Term.words_sexps h)
  | .binary op a b, h => by
    rw [Term.symbols, List.forall_mem_append] at h
    have hop : Sexp.IsWord op.symbol := by cases op <;> decide
    rw [Term.sexp]
    exact ⟨hop, Term.words_sexp h.1, Term.words_sexp h.2, trivial⟩
  | .ite a b c, h => by
    rw [Term.symbols, List.forall_mem_append, List.forall_mem_append] at h
    rw [Term.sexp]
    exact ⟨Sexp.words_atom (by decide), Term.words_sexp h.1.1, Term.words_sexp h.1.2,
      Term.words_sexp h.2, trivial⟩
  | .quantified q vars t, h => by
    rw [Term.symbols, List.forall_mem_append] at h
    have hq : Sexp.IsWord (quantifierWord q) := by cases q <;> decide
    rw [Term.sexp]
    exact ⟨hq, words_varSexps h.1, Term.words_sexp h.2, trivial⟩
  | .app f ts, h => by
    rw [Term.symbols, List.forall_mem_cons] at h
    rw [Term.sexp]
    have hts := Term.words_sexps h.2
    -- without arguments the function is an atom
    cases hsexps : Term.sexps ts with
    | nil => exact h.1
    | cons s ss => exact ⟨h.1, hsexps ▸ hts⟩

theorem Term.words_sexps : ∀ {ts : List Term}, (∀ x ∈ Term.symbolsIn ts, Sexp.IsWord x) →
    Sexp.WordsIn (Term.sexps ts)
  | [], _ => by
    rw [Term.sexps]
    trivial
  | t :: ts, h => by
    rw [Term.symbolsIn, List.forall_mem_append] at h
    rw [Term.sexps]
    exact ⟨Term.words_sexp h.1, Term.words_sexps h.2⟩

end

/-- S-expressions with the same text are the same. -/
theorem Sexp.eq_of_chars_eq {s t : Sexp} (hs : s.Words) (ht : t.Words) (h : s.chars = t.chars) :
    s = t := by
  refine (Sexp.chars_inj hs ht Sexp.ends_nil Sexp.ends_nil ?_).1
  rw [h]

theorem Term.canon_eq_of_sexp_eq {t u : Term} (ht : ∀ x ∈ t.symbols, IsSymbol x)
    (hu : ∀ x ∈ u.symbols, IsSymbol x) (h : t.sexp = u.sexp) : t.canon = u.canon := by
  apply Option.some.inj
  rw [← Term.term?_sexp ht, ← Term.term?_sexp hu, h]

theorem Term.text_eq_iff {t u : Term} (ht : ∀ x ∈ t.symbols, IsSymbol x)
    (hu : ∀ x ∈ u.symbols, IsSymbol x) : t.text = u.text ↔ t.canon = u.canon := by
  constructor
  · intro h
    refine Term.canon_eq_of_sexp_eq ht hu (Sexp.eq_of_chars_eq ?_ ?_ ?_)
    · exact Term.words_sexp fun x hx => (ht x hx).word
    · exact Term.words_sexp fun x hx => (hu x hx).word
    · rw [← Term.toList_text, ← Term.toList_text, h]
  · intro h
    rw [← t.text_canon, ← u.text_canon, h]

/-! ## Scripts -/

/-- The command with the choices made that its text does not show. -/
def Command.canon : Command → Command
  | .assert t => .assert t.canon
  | c => c

/-- A command whose names are words, whose terms have symbols for names, and whose comment is one
line. -/
def Command.Plain : Command → Prop
  | .setLogic l => Sexp.IsWord l
  | .setOption k v => Sexp.IsWord k ∧ Sexp.IsWord v
  | .declareConst x _ => Sexp.IsWord x
  | .declareFun f _ _ => Sexp.IsWord f
  | .assert t => ∀ x ∈ t.symbols, IsSymbol x
  | .checkSat | .getModel => True
  | .comment text => '\n' ∉ text.toList

def sortSexp (sort : SmtSort) : Sexp := .atom sort.text

/-- A command as an S-expression. A comment is none. -/
def Command.sexp? : Command → Option Sexp
  | .setLogic l => some (.list [.atom "set-logic", .atom l])
  | .setOption k v => some (.list [.atom "set-option", .atom (":" ++ k), .atom v])
  | .declareConst x sort => some (.list [.atom "declare-const", .atom x, sortSexp sort])
  | .declareFun f params result =>
    some (.list [.atom "declare-fun", .atom f, .list (params.map sortSexp), sortSexp result])
  | .assert t => some (.list [.atom "assert", t.sexp])
  | .checkSat => some (.list [.atom "check-sat"])
  | .getModel => some (.list [.atom "get-model"])
  | .comment _ => none

theorem Command.text_canon (c : Command) : c.canon.text = c.text := by
  cases c with
  | assert t => rw [Command.canon, Command.text, Command.text, Term.text_canon]
  | _ => rfl

theorem toList_paramsText (params : List SmtSort) :
    (parens (params.map SmtSort.text)).toList = (Sexp.list (params.map sortSexp)).chars := by
  refine Sexp.toList_parens ?_
  rw [List.map_map, List.map_map]
  rfl

theorem Command.toList_text {c : Command} {s : Sexp} (h : c.sexp? = some s) :
    c.text.toList = s.chars := by
  cases c with
  | comment => cases h
  | declareFun f params result =>
    cases h
    refine Sexp.toList_parens ?_
    simp only [List.map_cons, List.map_nil, toList_paramsText]
    rfl
  | assert t =>
    cases h
    refine Sexp.toList_parens ?_
    simp only [List.map_cons, List.map_nil, Term.toList_text]
    rfl
  | setLogic | setOption | declareConst =>
    cases h
    exact Sexp.toList_parens rfl
  | checkSat | getModel =>
    cases h
    rfl

/-- The text of a command other than a comment starts with a parenthesis. -/
theorem Command.head?_text {c : Command} {s : Sexp} (h : c.sexp? = some s) :
    c.text.toList.head? = some '(' := by
  rw [Command.toList_text h]
  cases c <;> cases h <;> rfl

theorem isWord_key {k : String} (h : Sexp.IsWord k) : Sexp.IsWord (":" ++ k) := by
  refine ⟨fun hk => ?_, fun c hc => ?_⟩
  · rw [← String.toList_inj, String.toList_append] at hk
    cases hk
  · rw [String.toList_append, List.mem_append] at hc
    rcases hc with hc | hc
    · rw [List.mem_singleton.mp hc]
      decide
    · exact h.plain c hc

theorem Command.Plain.words {c : Command} (hc : c.Plain) {s : Sexp} (h : c.sexp? = some s) :
    s.Words := by
  have hsorts : ∀ params : List SmtSort, Sexp.WordsIn (params.map sortSexp) := by
    intro params
    induction params with
    | nil => trivial
    | cons sort params ih => exact ⟨sort.isWord_text, ih⟩
  cases c with
  | setLogic =>
    cases h
    exact ⟨Sexp.words_atom (by decide), hc, trivial⟩
  | setOption =>
    cases h
    exact ⟨Sexp.words_atom (by decide), isWord_key hc.1, hc.2, trivial⟩
  | declareConst x sort =>
    cases h
    exact ⟨Sexp.words_atom (by decide), hc, sort.isWord_text, trivial⟩
  | declareFun f params result =>
    cases h
    exact ⟨Sexp.words_atom (by decide), hc, hsorts params, result.isWord_text, trivial⟩
  | assert =>
    cases h
    exact ⟨Sexp.words_atom (by decide), Term.words_sexp fun x hx => (hc x hx).word, trivial⟩
  | checkSat | getModel =>
    cases h
    exact ⟨Sexp.words_atom (by decide), trivial⟩
  | comment => cases h

theorem sortSexp_injective : Function.Injective sortSexp := by
  intro a b h
  have htext : a.text = b.text := Sexp.atom.inj h
  apply Option.some.inj
  rw [← SmtSort.ofWord?_text a, htext, SmtSort.ofWord?_text]

/-- The first word says which command it is, and the rest what it is about. -/
theorem Command.canon_eq_of_sexp?_eq {c d : Command} (hc : c.Plain) (hd : d.Plain) {s : Sexp}
    (hcs : c.sexp? = some s) (hds : d.sexp? = some s) : c.canon = d.canon := by
  rw [← hds] at hcs
  -- the first words of different commands differ, which leaves a command of the same kind
  cases c <;> cases d <;>
    simp only [Command.sexp?, reduceCtorEq, Option.some.injEq, Sexp.list.injEq, List.cons.injEq,
      Sexp.atom.injEq, String.reduceEq, false_and, true_and, and_true,
      String.append_right_inj, sortSexp_injective.eq_iff,
      List.map_inj_right fun _ _ h => sortSexp_injective h] at hcs
  case assert.assert t u => rw [Command.canon, Command.canon, Term.canon_eq_of_sexp_eq hc hd hcs]
  case comment.comment => cases hds
  all_goals simp only [hcs]

theorem Command.canon_eq_of_text_eq {c d : Command} (hc : c.Plain) (hd : d.Plain)
    (h : c.text = d.text) : c.canon = d.canon := by
  have hcomment : ∀ {c : Command}, c.sexp? = none → ∃ text, c = .comment text := by
    intro c hc
    cases c <;> cases hc
    exact ⟨_, rfl⟩
  -- a comment starts with a semicolon, and all other commands with a parenthesis
  cases hcs : c.sexp? with
  | none =>
    obtain ⟨text, rfl⟩ := hcomment hcs
    cases hds : d.sexp? with
    | none =>
      obtain ⟨text', rfl⟩ := hcomment hds
      rw [Command.text, Command.text, String.append_right_inj] at h
      rw [h]
    | some t =>
      have hhead := Command.head?_text hds
      rw [← h, Command.text, String.toList_append] at hhead
      cases hhead
  | some s =>
    cases hds : d.sexp? with
    | none =>
      obtain ⟨text', rfl⟩ := hcomment hds
      have hhead := Command.head?_text hcs
      rw [h, Command.text, String.toList_append] at hhead
      cases hhead
    | some t =>
      obtain rfl : s = t := by
        refine Sexp.eq_of_chars_eq (hc.words hcs) (hd.words hds) ?_
        rw [← Command.toList_text hcs, ← Command.toList_text hds, h]
      exact Command.canon_eq_of_sexp?_eq hc hd hcs hds

theorem Command.text_ne_empty (c : Command) : c.text.toList ≠ [] := by
  cases hc : c.sexp? with
  | none =>
    cases c <;> cases hc
    rw [Command.text, String.toList_append]
    exact List.cons_ne_nil _ _
  | some s =>
    intro h
    have hhead := Command.head?_text hc
    rw [h] at hhead
    cases hhead

/-- The text of a command is one line. -/
theorem Command.Plain.newline_not_mem {c : Command} (hc : c.Plain) : '\n' ∉ c.text.toList := by
  cases hs : c.sexp? with
  | none =>
    cases c <;> cases hs
    rw [Command.text, String.toList_append, List.mem_append, not_or]
    exact ⟨by decide, hc⟩
  | some s =>
    rw [Command.toList_text hs]
    exact Sexp.newline_not_mem_chars (hc.words hs)

/-- The lines of a script. -/
def Script.lines (s : Script) : List (List Char) := s.map fun c => c.text.toList

theorem Script.toList_text (s : Script) : s.text.toList = ['\n'].intercalate s.lines := by
  rw [Script.text, String.toList_intercalate, List.map_map]
  rfl

theorem Script.splitOn_text {s : Script} (hs : ∀ c ∈ s, c.Plain) (hne : s ≠ []) :
    s.text.toList.splitOn '\n' = s.lines := by
  rw [Script.toList_text]
  refine List.splitOn_intercalate '\n' ?_ (by rwa [Script.lines, ne_eq, List.map_eq_nil_iff])
  intro line hline
  obtain ⟨c, hc, rfl⟩ := List.mem_map.mp hline
  exact (hs c hc).newline_not_mem

theorem Script.text_eq_empty_iff {s : Script} (hs : ∀ c ∈ s, c.Plain) :
    s.text = "" ↔ s = [] := by
  constructor
  · intro h
    by_contra hne
    have hlines := Script.splitOn_text hs hne
    rw [h] at hlines
    obtain ⟨c, rest, rfl⟩ := List.exists_cons_of_ne_nil hne
    exact c.text_ne_empty (List.cons.inj hlines).1.symm
  · rintro rfl
    rfl

theorem Script.canon_eq_of_lines_eq : ∀ {s s' : Script}, (∀ c ∈ s, c.Plain) →
    (∀ c ∈ s', c.Plain) → s.lines = s'.lines → s.map Command.canon = s'.map Command.canon
  | [], [], _, _, _ => rfl
  | c :: s, d :: s', hs, hs', h => by
    rw [List.forall_mem_cons] at hs hs'
    obtain ⟨hline, hlines⟩ := List.cons.inj h
    rw [List.map_cons, List.map_cons, Script.canon_eq_of_lines_eq hs.2 hs'.2 hlines,
      Command.canon_eq_of_text_eq hs.1 hs'.1 (String.toList_injective hline)]

theorem Script.text_eq_iff {s s' : Script} (hs : ∀ c ∈ s, c.Plain) (hs' : ∀ c ∈ s', c.Plain) :
    s.text = s'.text ↔ s.map Command.canon = s'.map Command.canon := by
  constructor
  · intro h
    -- splitting the empty text gives one line, so the empty script is a case of its own
    by_cases hne : s = []
    · obtain rfl := hne
      rw [(Script.text_eq_empty_iff hs').mp h.symm]
    · have hne' : s' ≠ [] := by
        rwa [ne_eq, ← Script.text_eq_empty_iff hs', ← h, Script.text_eq_empty_iff hs]
      refine Script.canon_eq_of_lines_eq hs hs' ?_
      rw [← Script.splitOn_text hs hne, ← Script.splitOn_text hs' hne', h]
  · intro h
    have hcanon : ∀ s : Script, s.map Command.text = (s.map Command.canon).map Command.text := by
      intro s
      rw [List.map_map]
      exact List.map_congr_left fun c _ => c.text_canon.symm
    rw [Script.text, Script.text, hcanon s, h, ← hcanon s']

/-! ## Meaning -/

/-- The structure fits the sorts, and a declared function without arguments is the constant of its
name, unless a variable hides it. -/
structure Structure.FitsText (J : Structure) (c : Script) (Γ : List (String × SmtSort)) : Prop
    extends J.FitsSorts c Γ where
  nullary : ∀ f τ, Γ.lookup f = none → Command.declareFun f [] τ ∈ c → J.fn f [] = J.const f

theorem Structure.FitsSorts.agreeAfter {J : Structure} {c : Script} {Γ : List (String × SmtSort)}
    (h : J.FitsSorts c Γ) : Structure.AgreeAfter True c Γ J J :=
  ⟨fun _ _ _ => rfl, fun _ _ _ => rfl, fun _ _ _ _ _ _ => rfl, rfl, fun _ => h⟩

namespace Structure.FitsText

variable {J : Structure} {c : Script} {Γ Γ' : List (String × SmtSort)}

theorem of_lookup (h : J.FitsText c Γ) (hΓ : ∀ x, Γ'.lookup x = Γ.lookup x) : J.FitsText c Γ' where
  toFitsSorts := (h.toFitsSorts.agreeAfter.of_lookup hΓ).sorted trivial
  nullary f τ hf := h.nullary f τ (by rw [← hΓ, hf])

theorem update (h : J.FitsText c Γ) (x : String) (v : Val) :
    (J.update x v).FitsText c ((x, v.sort) :: Γ) where
  toFitsSorts := (h.toFitsSorts.agreeAfter.update x v).sorted trivial
  nullary f τ hf hdecl := by
    have hfx : f ≠ x := by
      rintro rfl
      rw [List.lookup_cons_self] at hf
      cases hf
    rw [List.lookup_cons, beq_false_of_ne hfx] at hf
    rw [update_fn, update_const_of_ne J hfx, h.nullary f τ hf hdecl]

theorem quantified_congr (q : Quantifier) {P P' : Structure → Prop}
    {vars : List (String × SmtSort)} (hnodup : (vars.map Prod.fst).Nodup)
    (hP : ∀ J : Structure, J.FitsText c (vars ++ Γ) → (P J ↔ P' J)) (h : J.FitsText c Γ) :
    Quantified q vars P J ↔ Quantified q vars P' J := by
  refine Quantified.congr_of (R := fun Γ J J' => J = J' ∧ J.FitsText c Γ) q ?_ ?_ hnodup ?_
    ⟨rfl, h⟩
  · rintro Γ Γ' J _ ⟨rfl, h⟩ hΓ
    exact ⟨rfl, h.of_lookup hΓ⟩
  · rintro Γ J _ ⟨rfl, h⟩ x v
    exact ⟨rfl, h.update x v⟩
  · rintro J _ ⟨rfl, h⟩
    exact hP J h

end Structure.FitsText

theorem Term.eval_literal (n : Int) (J : Structure) : (Term.literal n).eval J = .int n := by
  unfold Term.literal
  split
  · rw [Term.eval, Term.eval, Val.toInt_int]
    congr 1
    omega
  · rw [Term.eval]

theorem Junction.eval_canonical (op : Junction) {ts : List Term} {J : Structure}
    (hsort : ∀ t ∈ ts, (t.eval J).sort = .bool) :
    (op.canonical ts).eval J = .bool (op.Holds (Term.evals ts J)) := by
  match op, ts, hsort with
  | .and, [], _ | .or, [], _ =>
    rw [Junction.canonical, Junction.unitTerm, Term.eval, Term.evals]
    simp [Junction.Holds]
  | op, [t], hsort =>
    rw [Junction.canonical, Term.evals, Term.evals]
    -- the only operand is a truth value, and so the same as what it says
    cases ht : t.eval J with
    | int n =>
      have := hsort t List.mem_cons_self
      rw [ht] at this
      cases this
    | bool p => cases op <;> simp [Junction.Holds]
  | op, t :: u :: ts, _ => rw [Junction.canonical, Term.eval]

theorem Term.evals_canons {ts : List Term} {J : Structure}
    (h : ∀ t ∈ ts, t.canon.eval J = t.eval J) :
    Term.evals (Term.canons ts) J = Term.evals ts J := by
  rw [Term.canons_eq_map, Term.evals_eq_map, Term.evals_eq_map, List.map_map]
  exact List.map_congr_left h

/-- **`canon` keeps what a term means.** -/
theorem Term.HasSort.eval_canon {c : Script} {Γ : List (String × SmtSort)} {t : Term} {τ : SmtSort}
    (h : Term.HasSort c Γ t τ) {J : Structure} (hJ : J.FitsText c Γ) :
    t.canon.eval J = t.eval J := by
  induction h generalizing J with
  | bool | bound | const => rw [Term.canon]
  | int => rw [Term.canon, Term.eval_literal, Term.eval]
  | not _ ih | neg _ ih => rw [Term.canon, Term.eval, Term.eval, ih hJ]
  | @junction _ ts op hts ih =>
    have hcanons := Term.evals_canons fun t ht => ih t ht hJ
    rw [Term.canon, Term.eval, Junction.eval_canonical, hcanons]
    -- an operand alone stands for itself, which needs that it is a truth value
    rw [Term.canons_eq_map, List.forall_mem_map]
    intro t ht
    rw [ih t ht hJ, (hts t ht).sort_eval hJ.toFitsSorts]
  | binary _ _ _ iha ihb => rw [Term.canon, Term.eval, Term.eval, iha hJ, ihb hJ]
  | ite _ _ _ iht iha ihb => rw [Term.canon, Term.eval, Term.eval, iht hJ, iha hJ, ihb hJ]
  | @quantified Γ vars t q hvars _ ih =>
    have hbody : ∀ J : Structure, J.FitsText c (vars ++ Γ) →
        ((t.canon.eval J).truth ↔ (t.eval J).truth) := by
      intro J hJ
      rw [ih hJ]
    rw [Term.canon, Term.eval, Term.eval, propext (hJ.quantified_congr q hvars hbody)]
  | @app Γ f params _ ts hf hdecl hcount _ ih =>
    have hcanons := Term.evals_canons (Term.forall_of_zip hcount fun q hq => ih q hq hJ)
    cases ts with
    | nil =>
      -- no variable hides the function, so the constant of its name is meant
      obtain rfl : params = [] := List.length_eq_zero_iff.mp hcount.symm
      rw [Term.canon, Term.canons, Term.applied, Term.eval, Term.eval, Term.evals,
        hJ.nullary f _ hf hdecl]
    | cons t ts =>
      rw [Term.canon, Term.canons, Term.applied, Term.eval, Term.eval, ← hcanons, Term.canons]

/-- **The text of terms and scripts is unambiguous.** Take terms whose constants, functions and
variables have symbols for names. Two of them have the same text if and only if they are the same
after `canon`. Take scripts of commands over such terms, with words for their other names and
comments of one line. Two of them have the same text if and only if their commands are, one by one,
the same after `canon`. And `canon` keeps the value of every term that has a sort, wherever a
function without arguments is the constant of its name. -/
theorem smt_text_unambiguous :
    (∀ t u : Term, (∀ x ∈ t.symbols, IsSymbol x) → (∀ x ∈ u.symbols, IsSymbol x) →
      (t.text = u.text ↔ t.canon = u.canon)) ∧
    (∀ s s' : Script, (∀ c ∈ s, c.Plain) → (∀ c ∈ s', c.Plain) →
      (s.text = s'.text ↔ s.map Command.canon = s'.map Command.canon)) ∧
    (∀ (c : Script) (Γ : List (String × SmtSort)) (t : Term) (τ : SmtSort) (J : Structure),
      Term.HasSort c Γ t τ → J.FitsText c Γ → t.canon.eval J = t.eval J) :=
  ⟨fun _ _ ht hu => Term.text_eq_iff ht hu, fun _ _ hs hs' => Script.text_eq_iff hs hs',
    fun _ _ _ _ _ h hJ => h.eval_canon hJ⟩

/-- A name with a character that is no digit is no numeral. -/
theorem IsSymbol.of_not_digit {w : String} (hword : Sexp.IsWord w)
    (hdigit : w.toList.all Char.isDigit = false) (hbuiltin : w ∉ builtinWords) : IsSymbol w := by
  refine ⟨hword, ?_, hbuiltin⟩
  rintro n rfl
  rw [List.all_eq_true.mpr fun c hc => isDigit_of_mem_toString hc] at hdigit
  cases hdigit

/-- A term with a sign, a function without arguments and a disjunction of one term. -/
def foldedTerm : Term :=
  .quantified .universal [("x", .int)] (.junction .and
    [.binary .lt (.int (-5)) (.app "f" []), .junction .or [.const "p"],
      .binary .le (.int 3) (.const "x")])

/-- The same text without them. -/
def unfoldedTerm : Term :=
  .quantified .universal [("x", .int)] (.junction .and
    [.binary .lt (.neg (.int 5)) (.const "f"), .const "p", .binary .le (.int 3) (.const "x")])

def foldedScript (t : Term) : Script :=
  [.setLogic "ALL", .setOption "produce-models" "true", .declareFun "f" [] .int,
    .declareConst "p" .bool, .comment "one assertion", .assert t]

def foldedStructure : Structure where
  const x := if x = "p" then .bool True else .int 3
  fn _ _ := .int 3
  zeroQuot _ := 0

theorem foldedStructure_fits : foldedStructure.FitsText (foldedScript foldedTerm) [] where
  const := by
    intro x τ _ hx
    simp only [foldedScript, List.mem_cons, reduceCtorEq, Command.declareConst.injEq,
      List.not_mem_nil, or_false, false_or] at hx
    rw [hx.1, hx.2]
    rfl
  bound := nofun
  fn := by
    intro f params τ vs hf _
    simp only [foldedScript, List.mem_cons, reduceCtorEq, Command.declareFun.injEq,
      List.not_mem_nil, or_false, false_or] at hf
    rw [hf.2.2]
    rfl
  nullary := by
    intro f τ _ hf
    simp only [foldedScript, List.mem_cons, reduceCtorEq, Command.declareFun.injEq,
      List.not_mem_nil, or_false, false_or] at hf
    rw [hf.1]
    rfl

theorem foldedTerm_hasSort : Term.HasSort (foldedScript foldedTerm) [] foldedTerm .bool := by
  have hdecl : Command.declareFun "f" [] .int ∈ foldedScript foldedTerm := by simp [foldedScript]
  refine .quantified _ (by decide) (.junction _ ?_)
  simp only [List.forall_mem_cons, List.not_mem_nil, IsEmpty.forall_iff, implies_true, and_true]
  refine ⟨.binary rfl (.int ..) (.app rfl hdecl rfl (by simp)), .junction _ ?_,
    .binary rfl (.int ..) (.bound rfl)⟩
  rintro t ht
  rw [List.mem_singleton.mp ht]
  exact .const rfl (by simp [foldedScript])

theorem isSymbol_of_mem_folded : ∀ x ∈ ["x", "f", "p", "x"], IsSymbol x := by
  intro x hx
  have hall : ∀ x ∈ ["x", "f", "p", "x"], Sexp.IsWord x ∧
      x.toList.all Char.isDigit = false ∧ x ∉ builtinWords := by decide
  obtain ⟨hword, hdigit, hbuiltin⟩ := hall x hx
  exact .of_not_digit hword hdigit hbuiltin

theorem foldedScript_plain {t : Term} (ht : ∀ x ∈ t.symbols, IsSymbol x) :
    ∀ c ∈ foldedScript t, c.Plain := by
  have hword : Sexp.IsWord "ALL" ∧ Sexp.IsWord "produce-models" ∧ Sexp.IsWord "true" ∧
      Sexp.IsWord "f" ∧ Sexp.IsWord "p" := by decide
  obtain ⟨hlogic, hkey, hvalue, hf, hp⟩ := hword
  simp only [foldedScript, List.forall_mem_cons, List.not_mem_nil, IsEmpty.forall_iff, implies_true,
    and_true]
  exact ⟨hlogic, ⟨hkey, hvalue⟩, hf, hp, by simp [Command.Plain], ht⟩

theorem smt_text_unambiguous_folded :
    (foldedTerm.text = unfoldedTerm.text ∧ foldedTerm ≠ unfoldedTerm ∧
      foldedTerm.canon = unfoldedTerm.canon) ∧
    (foldedScript foldedTerm).map Command.canon = (foldedScript unfoldedTerm).map Command.canon ∧
    foldedTerm.canon.eval foldedStructure = foldedTerm.eval foldedStructure := by
  have htext : foldedTerm.text = unfoldedTerm.text := by decide
  have ht : ∀ x ∈ foldedTerm.symbols, IsSymbol x := isSymbol_of_mem_folded
  have hu : ∀ x ∈ unfoldedTerm.symbols, IsSymbol x := isSymbol_of_mem_folded
  have hscript : (foldedScript foldedTerm).text = (foldedScript unfoldedTerm).text := by
    decide +kernel
  obtain ⟨hterms, hscripts, hmeaning⟩ := smt_text_unambiguous
  exact ⟨⟨htext, by decide, (hterms _ _ ht hu).mp htext⟩,
    (hscripts _ _ (foldedScript_plain ht) (foldedScript_plain hu)).mp hscript,
    hmeaning _ _ _ _ _ foldedTerm_hasSort foldedStructure_fits⟩

end Contracts.Smt
