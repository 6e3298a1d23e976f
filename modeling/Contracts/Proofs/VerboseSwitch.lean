import Contracts.Proofs.ArgumentReading

/-!
# The switch for verbose output

Whether the output is verbose is found out twice: in advance, by a look at each argument for the text
of the switch (`wantsVerbose`), and in the course of the reading. The reading knows more. It passes
over an argument that is the value of the option before it, and it takes no notice of a value that is
written behind the switch. So the arguments are told apart here: `takenValues` are the values,
`ownArguments` all others. The look in advance sees both kinds, the reading the second only, and
`verbose_readings_agree_iff` says what the arguments are like if the two agree.

`Reading.readAll_own` and `Reading.readAll_takesNext` are the steps of a reading that ends with a
program to check, and `Reading.verbose_readAll_iff` is the whole of it.
-/

set_option autoImplicit false

namespace Contracts

/-- A computation that has a result got one from its first part. -/
theorem exists_of_bind_eq_ok {ε α β : Type} {x : Except ε α} {f : α → Except ε β} {b : β}
    (h : x >>= f = .ok b) : ∃ a, x = .ok a ∧ f a = .ok b := by
  cases x with
  | error e => cases h
  | ok a => exact ⟨a, rfl, h⟩

namespace CommandLine

/-! ## The switch by itself -/

/-- The texts of the switch. -/
def NamesVerbose (arg : String) : Prop := arg = "--verbose" ∨ arg = "-v"

theorem wantsVerbose_iff {args : List String} :
    wantsVerbose args = true ↔ ∃ arg ∈ args, NamesVerbose arg := by
  simp [wantsVerbose, NamesVerbose]

theorem Switch.namesVerbose_of_ofName? {name : String} (h : Switch.ofName? name = some .verbose) :
    NamesVerbose name := by
  unfold Switch.ofName? at h
  split at h <;> simp_all [NamesVerbose]

/-- An argument is all name, or it has a value and starts with two dashes. -/
theorem splitInline_cases (arg : String) : splitInline arg = (arg, none) ∨
    ∃ name value, splitInline arg = (name, some value) ∧ arg = name ++ "=" ++ value ∧
      Text.startsWith ['-', '-'] arg.toList = true := by
  unfold splitInline
  dsimp only
  split
  · next value hdrop =>
    split
    · next hdashes =>
      refine .inr ⟨_, _, rfl, ?_, hdashes⟩
      have hparts := List.takeWhile_append_dropWhile (p := (· != '=')) (l := arg.toList)
      rw [hdrop] at hparts
      apply String.toList_injective
      simp [hparts]
    · exact .inl rfl
  · exact .inl rfl

theorem Switch.ofName?_of_ofString {arg : String} {s : Switch}
    (h : Argument.ofString arg = .switch s) : Switch.ofName? (splitInline arg).1 = some s := by
  unfold Argument.ofString at h
  cases hs : Switch.ofName? (splitInline arg).1 with
  | some s' =>
    simp only [hs] at h
    rw [Argument.switch.inj h]
  | none =>
    cases ho : ValueOption.ofName? (splitInline arg).1 with
    | some o =>
      simp only [hs, ho] at h
      cases h
    | none =>
      simp only [hs, ho] at h
      split at h <;> cases h

/-- The reader recognizes the switch also with a value, which the long name can have. -/
theorem Argument.ofString_eq_verbose_iff {arg : String} :
    Argument.ofString arg = .switch .verbose ↔
      NamesVerbose arg ∨ ∃ value, arg = "--verbose=" ++ value := by
  constructor
  · intro h
    have hname := Switch.namesVerbose_of_ofName? (Switch.ofName?_of_ofString h)
    rcases splitInline_cases arg with hsplit | ⟨name, value, hsplit, harg, hdashes⟩
    · rw [hsplit] at hname
      exact .inl hname
    · rw [hsplit] at hname
      rcases hname with rfl | rfl
      · exact .inr ⟨value, harg⟩
      · -- the short name has one dash only
        rw [harg] at hdashes
        simp [Text.startsWith, Text.strip?] at hdashes
  · rintro ((rfl | rfl) | ⟨value, rfl⟩)
    · rfl
    · rfl
    · have hsplit : splitInline ("--verbose" ++ "=" ++ value) = ("--verbose", some value) :=
        splitInline_append (by decide) rfl value
      have htext : "--verbose=" ++ value = "--verbose" ++ "=" ++ value := rfl
      unfold Argument.ofString
      rw [htext, hsplit]
      rfl

/-! ## Values and other arguments -/

/-- Whether an argument is an option whose value is the next argument. -/
def takesNext (arg : String) : Bool :=
  match Argument.ofString arg with
  | .option _ none => true
  | _ => false

theorem takesNext_iff {arg : String} :
    takesNext arg = true ↔ ∃ o, Argument.ofString arg = .option o none := by
  unfold takesNext
  split
  · next o harg => simp [harg]
  · next hother => simpa using hother

/-- The arguments that are read by themselves. -/
def ownArguments : List String → List String
  | [] => []
  | [arg] => [arg]
  | arg :: value :: rest =>
    if takesNext arg then arg :: ownArguments rest else arg :: ownArguments (value :: rest)

/-- The arguments that are the value of the option before them. -/
def takenValues : List String → List String
  | [] | [_] => []
  | arg :: value :: rest =>
    if takesNext arg then value :: takenValues rest else takenValues (value :: rest)

theorem mem_own_or_taken_iff {a : String} (args : List String) :
    a ∈ args ↔ a ∈ ownArguments args ∨ a ∈ takenValues args := by
  fun_induction ownArguments args with
  | case1 => simp [takenValues]
  | case2 arg => simp [takenValues]
  | case3 arg value rest htakes ih =>
    rw [takenValues, if_pos htakes]
    simp only [List.mem_cons, ih]
    grind
  | case4 arg value rest hown ih =>
    rw [takenValues, if_neg hown, List.mem_cons, ih, List.mem_cons, or_assoc]

/-! ## What the reading makes of the switch -/

namespace Reading

theorem verbose_of_set {r r' : Reading} {o : ValueOption} {value : String}
    (h : r.set o value = .ok r') : r'.options.verbose = r.options.verbose := by
  unfold Reading.set at h
  cases o with
  | timeout =>
    obtain ⟨seconds, -, hr⟩ := exists_of_bind_eq_ok h
    cases hr
    rfl
  | jobs =>
    obtain ⟨jobs, -, hr⟩ := exists_of_bind_eq_ok h
    split at hr
    · cases hr
    · cases hr
      rfl
  | solver | dumpSmt =>
    cases h
    rfl
  | outputFormat =>
    dsimp only at h
    split at h
    · cases h
      rfl
    · cases h

theorem verbose_of_setInput {r r' : Reading} {path : String} (h : r.setInput path = .ok r') :
    r'.options.verbose = r.options.verbose := by
  unfold Reading.setInput at h
  split at h
  · cases h
  · cases h
    rfl

section

variable {envSolver : Option String} {input : String} {options : Options}

theorem verbose_of_finish {r : Reading} (h : r.finish envSolver = .ok (.verify input options)) :
    options.verbose = r.options.verbose := by
  unfold Reading.finish at h
  cases hinput : r.input with
  | none =>
    simp only [hinput] at h
    split at h
    · cases h
    · split at h <;> cases h
  | some path =>
    simp only [hinput] at h
    split at h
    · cases h
      rfl
    · split at h
      · cases h
        rfl
      · cases h

/-- An option takes the next argument, whatever it is, and the output stays as verbose as it was. -/
theorem readAll_takesNext {r : Reading} {arg value : String} {args : List String}
    (htakes : takesNext arg = true)
    (h : r.readAll envSolver (arg :: value :: args) = .ok (.verify input options)) :
    ∃ r' : Reading, r'.readAll envSolver args = .ok (.verify input options) ∧
      r'.options.verbose = r.options.verbose := by
  obtain ⟨o, harg⟩ := takesNext_iff.mp htakes
  rw [Reading.readAll, harg] at h
  obtain ⟨r', hset, hrest⟩ := exists_of_bind_eq_ok h
  exact ⟨r', hrest, verbose_of_set hset⟩

/-- Of all other arguments the switch is the only one that makes the output verbose. -/
theorem readAll_own {r : Reading} {arg : String} {args : List String}
    (hown : takesNext arg ≠ true)
    (h : r.readAll envSolver (arg :: args) = .ok (.verify input options)) :
    ∃ r' : Reading, r'.readAll envSolver args = .ok (.verify input options) ∧
      (r'.options.verbose = true ↔
        r.options.verbose = true ∨ Argument.ofString arg = .switch .verbose) := by
  rw [Reading.readAll] at h
  cases harg : Argument.ofString arg with
  | switch s =>
    rw [harg] at h
    cases s with
    -- these end the reading, and no program is checked
    | help | version => cases h
    | verbose | closeLoops => exact ⟨_, h, by simp⟩
  | option o inline =>
    rw [harg] at h
    cases inline with
    | none => exact absurd (takesNext_iff.mpr ⟨o, harg⟩) hown
    | some value =>
      obtain ⟨r', hset, hrest⟩ := exists_of_bind_eq_ok h
      exact ⟨r', hrest, by simp [verbose_of_set hset]⟩
  | unknown name =>
    rw [harg] at h
    cases h
  | input path =>
    rw [harg] at h
    obtain ⟨r', hset, hrest⟩ := exists_of_bind_eq_ok h
    exact ⟨r', hrest, by simp [verbose_of_setInput hset]⟩

theorem verbose_readAll_iff {args : List String} {r : Reading}
    (h : r.readAll envSolver args = .ok (.verify input options)) :
    options.verbose = true ↔ r.options.verbose = true ∨
      ∃ arg ∈ ownArguments args, Argument.ofString arg = .switch .verbose := by
  fun_induction ownArguments args generalizing r with
  | case1 =>
    rw [Reading.readAll] at h
    simp [verbose_of_finish h]
  | case2 arg =>
    by_cases htakes : takesNext arg = true
    · -- its value is missing, so nothing is checked
      obtain ⟨o, harg⟩ := takesNext_iff.mp htakes
      rw [Reading.readAll, harg] at h
      cases h
    · obtain ⟨r', hrest, hstep⟩ := readAll_own htakes h
      rw [Reading.readAll] at hrest
      simp [verbose_of_finish hrest, hstep]
  | case3 arg value rest htakes ih =>
    obtain ⟨r', hrest, hstep⟩ := readAll_takesNext htakes h
    obtain ⟨o, harg⟩ := takesNext_iff.mp htakes
    -- the argument is an option and so not the switch, and its value does not count
    simp [ih hrest, hstep, harg]
  | case4 arg value rest hown ih =>
    obtain ⟨r', hrest, hstep⟩ := readAll_own hown h
    simp [ih hrest, hstep, or_assoc]

end

end Reading

theorem verbose_iff {args : List String} {envSolver : Option String} {input : String}
    {options : Options} (h : readArguments args envSolver = .ok (.verify input options)) :
    options.verbose = true ↔ (∃ arg ∈ ownArguments args, NamesVerbose arg) ∨
      ∃ value, "--verbose=" ++ value ∈ ownArguments args := by
  rw [Reading.verbose_readAll_iff h]
  simp only [Argument.ofString_eq_verbose_iff]
  constructor
  · rintro (hstart | ⟨arg, harg, hnames | ⟨value, rfl⟩⟩)
    · cases hstart
    · exact .inl ⟨arg, harg, hnames⟩
    · exact .inr ⟨value, harg⟩
  · rintro (⟨arg, harg, hnames⟩ | ⟨value, harg⟩)
    · exact .inr ⟨arg, harg, .inl hnames⟩
    · exact .inr ⟨_, harg, .inr ⟨value, rfl⟩⟩

/-- **When the look in advance is right.** Let the arguments ask to check a program. Then the look for
the switch in advance agrees with the options if one of the arguments that are read by themselves is
the switch as it is. If none is, an option with the text of the switch for its value misleads the
look, and a switch with a value is seen by the reading only; the two agree if neither occurs, or both
do. -/
theorem verbose_readings_agree_iff (args : List String) (envSolver : Option String) (input : String)
    (options : Options) (hread : readArguments args envSolver = .ok (.verify input options)) :
    (wantsVerbose args = true ↔ options.verbose = true) ↔
      (∃ arg ∈ ownArguments args, NamesVerbose arg) ∨
      ((∃ value ∈ takenValues args, NamesVerbose value) ↔
        ∃ value, "--verbose=" ++ value ∈ ownArguments args) := by
  have hlook : wantsVerbose args = true ↔ (∃ arg ∈ ownArguments args, NamesVerbose arg) ∨
      ∃ value ∈ takenValues args, NamesVerbose value := by
    simp only [wantsVerbose_iff, mem_own_or_taken_iff args, or_and_right, exists_or]
  rw [hlook, verbose_iff hread]
  grind

/-- The switch is there as it is, with a value, and as the value of an option. -/
theorem verbose_readings_agree_threefold :
    readArguments ["--verbose=2", "--dump-smt", "-v", "m.json", "-v"] none =
      .ok (.verify "m.json" { Options.default with dumpDir := some "-v", verbose := true }) ∧
    (wantsVerbose ["--verbose=2", "--dump-smt", "-v", "m.json", "-v"] = true ↔
      ({ Options.default with dumpDir := some "-v", verbose := true } : Options).verbose = true) :=
  ⟨rfl, (verbose_readings_agree_iff _ none "m.json" _ rfl).mpr
    (.inl ⟨"-v", by decide, .inr rfl⟩)⟩

/-- **The look in advance takes a value for the switch, and misses a switch with a value.** -/
theorem verbose_readings_differ :
    readArguments ["--dump-smt", "-v", "m.json"] none =
      .ok (.verify "m.json" { Options.default with dumpDir := some "-v" }) ∧
    wantsVerbose ["--dump-smt", "-v", "m.json"] = true ∧
    readArguments ["--verbose=yes", "m.json"] none =
      .ok (.verify "m.json" { Options.default with verbose := true }) ∧
    wantsVerbose ["--verbose=yes", "m.json"] = false :=
  ⟨rfl, rfl, rfl, rfl⟩

end CommandLine

end Contracts
