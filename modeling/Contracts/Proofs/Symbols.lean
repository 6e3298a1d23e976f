import Contracts.Encoding.Contract
import Contracts.Proofs.Numerals
import Contracts.Proofs.Renaming

/-!
# Symbols

The symbols of a query are of a few forms, and those of different forms are different. A symbol
made by `freshSymbol` ends in a mark and a number, and the number is that of no other such symbol,
whatever stands before it (`numberedSymbol_inj`). The constants of variables, lengths and
parameters do not end so, provided that the names they are made of hold no mark.
-/

set_option autoImplicit false

namespace Contracts

open Smt

/-- A name of a program without the characters that symbols are put together with. -/
def PlainName (x : String) : Prop := '!' ∉ x.toList ∧ '.' ∉ x.toList

/-- The symbol that `freshSymbol` makes of a number. -/
def numberedSymbol (base : String) (n : Nat) : String := base ++ "!" ++ toString n

theorem toList_numberedSymbol (base : String) (n : Nat) :
    (numberedSymbol base n).toList = base.toList ++ '!' :: (toString n).toList := by
  rw [numberedSymbol, String.toList_append, String.toList_append, List.append_assoc]
  rfl

theorem mark_not_mem_toString (n : Nat) : '!' ∉ (toString n).toList := by
  intro h
  have hdigit := isDigit_of_mem_toString h
  revert hdigit
  decide

/-- A text is cut at its last mark in one way. -/
theorem append_mark_inj {l l' d d' : List Char} (h : l ++ '!' :: d = l' ++ '!' :: d')
    (hd : '!' ∉ d) (hd' : '!' ∉ d') : d = d' := by
  rcases List.append_eq_append_iff.mp h with ⟨as, -, hcut⟩ | ⟨as, -, hcut⟩
  · cases as with
    | nil => exact (List.cons.inj hcut).2
    | cons a as =>
      refine absurd ?_ hd
      rw [(List.cons.inj hcut).2]
      exact List.mem_append_right _ List.mem_cons_self
  · cases as with
    | nil => exact (List.cons.inj hcut).2.symm
    | cons a as =>
      refine absurd ?_ hd'
      rw [(List.cons.inj hcut).2]
      exact List.mem_append_right _ List.mem_cons_self

/-- Symbols with different numbers are different. -/
theorem numberedSymbol_inj {base base' : String} {m n : Nat}
    (h : numberedSymbol base m = numberedSymbol base' n) : m = n := by
  have hlist := congrArg String.toList h
  rw [toList_numberedSymbol, toList_numberedSymbol] at hlist
  have hdigits := append_mark_inj hlist (mark_not_mem_toString m) (mark_not_mem_toString n)
  exact Nat.repr_injective (String.toList_injective hdigits)

/-- Nor can what stands before the number be read in two ways. -/
theorem base_eq_of_numberedSymbol {base base' : String} {m n : Nat}
    (h : numberedSymbol base m = numberedSymbol base' n) : base = base' := by
  have hnumber := numberedSymbol_inj h
  have hlist := congrArg String.toList h
  rw [toList_numberedSymbol, toList_numberedSymbol, hnumber] at hlist
  exact String.toList_injective (List.append_cancel_right hlist)

/-- The symbol carries a number above `c`: a session whose counter is at `c` has not made it. -/
def MadeAfter (c : Nat) (x : String) : Prop := ∃ base n, c < n ∧ x = numberedSymbol base n

theorem MadeAfter.mono {c c' : Nat} {x : String} (h : MadeAfter c' x) (hc : c ≤ c') :
    MadeAfter c x := by
  obtain ⟨base, n, hn, rfl⟩ := h
  exact ⟨base, n, by omega, rfl⟩

theorem madeAfter_numberedSymbol {c n : Nat} {base : String} :
    MadeAfter c (numberedSymbol base n) ↔ c < n := by
  constructor
  · rintro ⟨base', m, hm, heq⟩
    rw [numberedSymbol_inj heq]
    exact hm
  · intro h
    exact ⟨base, n, h, rfl⟩

/-- A text without a mark is no such symbol. -/
theorem not_madeAfter_of_unmarked {c : Nat} {x : String} (h : '!' ∉ x.toList) :
    ¬MadeAfter c x := by
  rintro ⟨base, n, -, rfl⟩
  refine h ?_
  rw [toList_numberedSymbol]
  exact List.mem_append_right _ List.mem_cons_self

/-- Nor is a text in which something else than a digit stands after the last mark. -/
theorem not_madeAfter_of_nondigit {c : Nat} {x : String} {u v : List Char} {e : Char}
    (hx : x.toList = u ++ e :: v) (hdigit : e.isDigit = false) (hmark : e ≠ '!')
    (hv : '!' ∉ v) : ¬MadeAfter c x := by
  rintro ⟨base, n, -, rfl⟩
  have hnot : e ∉ (toString n).toList := by
    intro hmem
    rw [isDigit_of_mem_toString hmem] at hdigit
    cases hdigit
  rw [toList_numberedSymbol] at hx
  rcases List.append_eq_append_iff.mp hx with ⟨as, -, hcut⟩ | ⟨as, -, hcut⟩
  · cases as with
    | nil => exact hmark (List.cons.inj hcut).1.symm
    | cons a as =>
      refine hnot ?_
      rw [(List.cons.inj hcut).2]
      exact List.mem_append_right _ List.mem_cons_self
  · cases as with
    | nil => exact hmark (List.cons.inj hcut).1
    | cons a as =>
      refine hv ?_
      rw [(List.cons.inj hcut).2]
      exact List.mem_append_right _ List.mem_cons_self

/-! ## The other symbols -/

theorem varSymbol_not_madeAfter {x : String} (hx : '!' ∉ x.toList) (c : Nat) :
    ¬MadeAfter c (varSymbol x) := by
  unfold varSymbol
  split
  · refine not_madeAfter_of_nondigit (u := x.toList ++ ['!']) (e := 'v') (v := []) ?_
      (by decide) (by decide) List.not_mem_nil
    rw [String.toList_append, List.append_assoc]
    rfl
  · exact not_madeAfter_of_unmarked hx

theorem lengthSymbol_not_madeAfter (a : String) (c : Nat) : ¬MadeAfter c (a ++ "!len") := by
  refine not_madeAfter_of_nondigit (u := a.toList ++ ['!']) (e := 'l') (v := ['e', 'n']) ?_
    (by decide) (by decide) (by decide)
  rw [String.toList_append, List.append_assoc]
  rfl

theorem formalSymbol_not_madeAfter (g : FunctionDef) {x : Param} (hx : '!' ∉ x.name.toList)
    (c : Nat) : ¬MadeAfter c (formalSymbol g x) := by
  refine not_madeAfter_of_nondigit (u := g.name.toList ++ ['.', 'a', 'r', 'g']) (e := '.')
    (v := x.name.toList) ?_ (by decide) (by decide) hx
  rw [formalSymbol, String.toList_append, String.toList_append, List.append_assoc,
    List.append_assoc]
  rfl

/-- Different variables have different constants. -/
theorem varSymbol_inj {x y : String} (hx : '!' ∉ x.toList) (hy : '!' ∉ y.toList)
    (h : varSymbol x = varSymbol y) : x = y := by
  have hmark : ∀ z w : String, '!' ∉ w.toList → z ++ "!v" ≠ w := by
    rintro z w hw rfl
    refine hw ?_
    rw [String.toList_append]
    exact List.mem_append_right _ List.mem_cons_self
  unfold varSymbol at h
  split at h
  · split at h
    · have hlist := congrArg String.toList h
      rw [String.toList_append, String.toList_append] at hlist
      exact String.toList_injective (List.append_cancel_right hlist)
    · exact absurd h (hmark x y hy)
  · split at h
    · exact absurd h.symm (hmark y x hx)
    · exact h

theorem varSymbol_ne_length {x : String} (hx : '!' ∉ x.toList) (a : String) :
    varSymbol x ≠ a ++ "!len" := by
  intro h
  unfold varSymbol at h
  split at h
  · have hlast := congrArg (fun z : String => z.toList.getLast?) h
    simp at hlast
  · refine hx ?_
    rw [h, String.toList_append]
    exact List.mem_append_right _ List.mem_cons_self

theorem selector_ne_fnSymbol {a : String} (ha : '.' ∉ a.toList) (f : String) :
    a ++ "!sel" ≠ fnSymbol f := by
  intro h
  have hmem : '.' ∈ (fnSymbol f).toList := by
    rw [fnSymbol, String.toList_append]
    exact List.mem_append_left _ (by decide)
  rw [← h, String.toList_append] at hmem
  rcases List.mem_append.mp hmem with hmem | hmem
  · exact ha hmem
  · revert hmem
    decide

theorem fnSymbol_not_madeAfter {f : String} (hf : '!' ∉ f.toList) (c : Nat) :
    ¬MadeAfter c (fnSymbol f) := by
  refine not_madeAfter_of_unmarked ?_
  rw [fnSymbol, String.toList_append]
  intro h
  rcases List.mem_append.mp h with h | h
  · revert h
    decide
  · exact hf h

theorem selector_not_madeAfter (a : String) (c : Nat) : ¬MadeAfter c (a ++ "!sel") := by
  refine not_madeAfter_of_nondigit (u := a.toList ++ ['!']) (e := 's') (v := ['e', 'l']) ?_
    (by decide) (by decide) (by decide)
  rw [String.toList_append, List.append_assoc]
  rfl

theorem selector_inj {a b : String} (h : a ++ "!sel" = b ++ "!sel") : a = b := by
  have hlist := congrArg String.toList h
  rw [String.toList_append, String.toList_append] at hlist
  exact String.toList_injective (List.append_cancel_right hlist)

/-- A function symbol holds one period and the constant of a parameter at least two. -/
theorem fnSymbol_ne_formalSymbol {f : String} (hf : '.' ∉ f.toList) (g : FunctionDef) (x : Param) :
    fnSymbol f ≠ formalSymbol g x := by
  intro h
  have hone : (fnSymbol f).toList.count '.' = 1 := by
    rw [fnSymbol, String.toList_append, List.count_append, List.count_eq_zero.mpr hf]
    rfl
  have htwo : 2 ≤ (formalSymbol g x).toList.count '.' := by
    rw [formalSymbol, String.toList_append, String.toList_append, List.count_append,
      List.count_append]
    have harg : (".arg." : String).toList.count '.' = 2 := by decide
    omega
  rw [h] at hone
  omega

theorem period_mem_fnSymbol (f : String) : '.' ∈ (fnSymbol f).toList := by
  rw [fnSymbol, String.toList_append]
  exact List.mem_append_left _ (by decide)

theorem period_mem_formalSymbol (g : FunctionDef) (x : Param) :
    '.' ∈ (formalSymbol g x).toList := by
  rw [formalSymbol, String.toList_append, String.toList_append]
  exact List.mem_append_left _ (List.mem_append_right _ (by decide))

/-! ## The constants of a function -/

/-- The name of a constant that is declared for one function only: it is told from the symbols of the
session by having no period, and from selectors by its end. -/
structure LocalName (x : String) : Prop where
  noPeriod : '.' ∉ x.toList
  noSelector : ∀ a : String, x ≠ a ++ "!sel"

theorem period_not_mem_append {x y : String} (hx : '.' ∉ x.toList) (hy : '.' ∉ y.toList) :
    '.' ∉ (x ++ y).toList := by
  rw [String.toList_append]
  intro h
  rcases List.mem_append.mp h with h | h
  · exact hx h
  · exact hy h

theorem localName_varSymbol {x : String} (hx : PlainName x) : LocalName (varSymbol x) := by
  constructor
  · unfold varSymbol
    split
    · exact period_not_mem_append hx.2 (by decide)
    · exact hx.2
  · intro a h
    unfold varSymbol at h
    split at h
    · have hlast := congrArg (fun z : String => z.toList.getLast?) h
      simp at hlast
    · refine hx.1 ?_
      rw [h, String.toList_append]
      exact List.mem_append_right _ List.mem_cons_self

theorem localName_length {a : String} (ha : PlainName a) : LocalName (a ++ "!len") := by
  constructor
  · exact period_not_mem_append ha.2 (by decide)
  · intro b h
    have hlast := congrArg (fun z : String => z.toList.getLast?) h
    simp at hlast

theorem localName_cell {a : String} (ha : PlainName a) (n : Nat) :
    LocalName (numberedSymbol (a ++ "!elem") (n + 1)) := by
  constructor
  · have hdigits : '.' ∉ (toString (n + 1)).toList := by
      intro h
      have hdigit := isDigit_of_mem_toString h
      revert hdigit
      decide
    exact period_not_mem_append (period_not_mem_append
      (period_not_mem_append ha.2 (by decide)) (by decide)) hdigits
  · intro b h
    refine selector_not_madeAfter b 0 ?_
    rw [← h]
    exact madeAfter_numberedSymbol.mpr (Nat.succ_pos n)

/-- The called name of a function symbol. -/
def calledName (symbol : String) : String := String.ofList (symbol.toList.drop 3)

@[simp] theorem calledName_fnSymbol (f : String) : calledName (fnSymbol f) = f := by
  rw [calledName, fnSymbol, String.toList_append]
  exact String.ofList_toList

end Contracts
