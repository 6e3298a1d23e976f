import Contracts.CommandLine.Options

/-!
# Reading arguments

The value of an option stands behind an equals sign or in the next argument, and it makes no difference
which (`option_spellings_agree`). The equals sign is the first one, so a value can have more of them;
the next argument is the value even if it looks like an option. What comes before does not matter
either, unless its last option is still without a value and takes the argument that follows.
-/

set_option autoImplicit false

namespace Contracts

theorem Text.startsWith_append {start cs : List Char} (h : Text.startsWith start cs = true)
    (rest : List Char) : Text.startsWith start (cs ++ rest) = true := by
  unfold Text.startsWith at h ⊢
  induction start generalizing cs with
  | nil => rfl
  | cons p ps ih =>
    cases cs with
    | nil => cases h
    | cons c cs =>
      rw [Text.strip?] at h
      rw [List.cons_append, Text.strip?]
      split at h
      · next hpc =>
        rw [if_pos hpc]
        exact ih h
      · cases h

/-- Two computations that go on in the same way from each result are the same. -/
theorem bind_congr_of_ok {ε α β : Type} {x : Except ε α} {f g : α → Except ε β}
    (h : ∀ a, x = .ok a → f a = g a) : x >>= f = x >>= g := by
  cases x with
  | error e => rfl
  | ok a => exact h a rfl

namespace CommandLine

/-! ## The two spellings of an option -/

/-- Everything behind the first equals sign is the value. -/
theorem splitInline_append {name : String} (h : '=' ∉ name.toList)
    (hdashes : Text.startsWith ['-', '-'] name.toList = true) (value : String) :
    splitInline (name ++ "=" ++ value) = (name, some value) := by
  have hname : ∀ c ∈ name.toList, (c != '=') = true := by
    intro c hc
    rw [bne_iff_ne]
    rintro rfl
    exact h hc
  have hchars : (name ++ "=" ++ value).toList = name.toList ++ '=' :: value.toList := by
    simp
  have hdrop : (name.toList ++ '=' :: value.toList).dropWhile (· != '=') = '=' :: value.toList := by
    rw [List.dropWhile_append_of_pos hname]
    rfl
  have htake : (name.toList ++ '=' :: value.toList).takeWhile (· != '=') = name.toList := by
    rw [List.takeWhile_append_of_pos hname]
    exact List.append_nil _
  unfold splitInline
  simp only [hchars, hdrop, htake, Text.startsWith_append hdashes, if_true, String.ofList_toList]

theorem Argument.ofString_name (o : ValueOption) : Argument.ofString o.name = .option o none := by
  cases o <;> rfl

theorem Argument.ofString_inline (o : ValueOption) (value : String) :
    Argument.ofString (o.name ++ "=" ++ value) = .option o (some value) := by
  have hname : '=' ∉ o.name.toList := by cases o <;> decide
  have hdashes : Text.startsWith ['-', '-'] o.name.toList = true := by cases o <;> rfl
  unfold Argument.ofString
  rw [splitInline_append hname hdashes]
  cases o <;> rfl

namespace Reading

variable (envSolver : Option String) (r : Reading) (o : ValueOption) (value : String)
  (rest : List String)

theorem readAll_inline : r.readAll envSolver ((o.name ++ "=" ++ value) :: rest) =
    r.set o value >>= fun r' => r'.readAll envSolver rest := by
  rw [Reading.readAll, Argument.ofString_inline]

theorem readAll_separate : r.readAll envSolver (o.name :: value :: rest) =
    r.set o value >>= fun r' => r'.readAll envSolver rest := by
  rw [Reading.readAll, Argument.ofString_name]

/-! ## What stands before the option -/

/-- Where none of the arguments so far waits for a value, the option can be written in either way. If
they end the reading, what follows is not looked at. -/
theorem readAll_spellings : ∀ (args : List String) (r : Reading),
    (∀ o', r.readAll envSolver args ≠ .error (.missingValue o')) →
    r.readAll envSolver (args ++ (o.name ++ "=" ++ value) :: rest) =
      r.readAll envSolver (args ++ o.name :: value :: rest)
  | [], r, _ => by
    rw [List.nil_append, List.nil_append, readAll_inline, readAll_separate]
  | arg :: args, r, h => by
    rw [Reading.readAll] at h
    rw [List.cons_append, List.cons_append, Reading.readAll, Reading.readAll]
    cases harg : Argument.ofString arg with
    | switch s =>
      rw [harg] at h
      cases s with
      | help | version => rfl
      | verbose | closeLoops => exact readAll_spellings args _ h
    | option o' inline =>
      rw [harg] at h
      cases inline with
      | some v =>
        refine bind_congr_of_ok fun r' hset => readAll_spellings args r' ?_
        dsimp only at h
        rw [hset] at h
        exact h
      | none =>
        -- the value is the next argument, so it is here that one can be missing
        cases args with
        | nil => exact absurd rfl (h o')
        | cons v args =>
          refine bind_congr_of_ok fun r' hset => readAll_spellings args r' ?_
          dsimp only at h
          rw [hset] at h
          exact h
    | unknown name => rfl
    | input path =>
      rw [harg] at h
      refine bind_congr_of_ok fun r' hset => readAll_spellings args r' ?_
      dsimp only at h
      rw [hset] at h
      exact h

end Reading

/-- **Both spellings of an option are the same.** Let `before` be arguments that do not end with an
option still to get its value. Then an option with its value behind an equals sign and the option with
its value as the next argument lead to the same request or the same error, whatever the value is and
whatever follows. -/
theorem option_spellings_agree (before rest : List String) (o : ValueOption) (value : String)
    (envSolver : Option String)
    (hbefore : ∀ o', readArguments before envSolver ≠ .error (.missingValue o')) :
    readArguments (before ++ [o.name ++ "=" ++ value] ++ rest) envSolver =
      readArguments (before ++ [o.name, value] ++ rest) envSolver := by
  rw [List.append_assoc, List.append_assoc]
  exact Reading.readAll_spellings envSolver o value rest before Reading.start hbefore

/-- The value has an equals sign and looks like a request for help. -/
theorem option_spellings_agree_dump :
    readArguments (["-j", "2", "m.json"] ++ ["--dump-smt" ++ "=" ++ "--help=x"] ++ ["-v"]) none =
      .ok (.verify "m.json" { Options.default with
        jobs := 2, dumpDir := some "--help=x", verbose := true }) := by
  have hbefore : readArguments ["-j", "2", "m.json"] none =
      .ok (.verify "m.json" { Options.default with jobs := 2 }) := rfl
  have hagree := option_spellings_agree ["-j", "2", "m.json"] ["-v"] .dumpSmt "--help=x" none
    (fun o' h => by cases hbefore.symm.trans h)
  exact hagree.trans rfl

-- An option that waits for its value takes the next argument, and then the spelling matters.
example : readArguments ["--dump-smt", "--jobs=2", "m.json"] none =
      .ok (.verify "m.json" { Options.default with dumpDir := some "--jobs=2" }) ∧
    readArguments ["--dump-smt", "--jobs", "2", "m.json"] none = .error .severalInputs := by
  exact ⟨rfl, rfl⟩

end CommandLine

end Contracts
