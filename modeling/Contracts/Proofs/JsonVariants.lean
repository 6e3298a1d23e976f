import Contracts.Syntax.Canonical
import Contracts.Syntax.Decode
import Mathlib.Data.List.Perm.Basic

/-!
# Variants of canonical JSON

The canonical JSON of a program has every field, in one order, and one spelling of comparisons. The
same program can be written in other ways: the fields of an object may come in any order and among
others that nobody knows, a field with its default may be left out, and a comparison may be named by
its variant instead of its operator. `Varies` relates canonical JSON to all of these.

Fields that nobody knows are read where a tagged object stands around them, and stepped over
elsewhere. What is asked of those that are read is a parameter, `allow`, which also gets the number
of levels left. Where it is asked that they can be represented and keep to these levels (`Fits`),
the same holds of the whole (`Varies.fits`).

The reader of an object sees its fields and nothing else: `Shows.fields?` and `Varies.tagged` say so
for records and tagged objects.
-/

set_option autoImplicit false

namespace Contracts

/-- The variant of its own that a comparison has. -/
def CmpOp.word : CmpOp → String
  | .eq => "eq"
  | .ne => "neq"
  | .gt => "gt"
  | .lt => "lt"
  | .ge => "ge"
  | .le => "le"

theorem CmpOp.ofSymbol?_symbol (op : CmpOp) : CmpOp.ofSymbol? op.symbol = some op := by
  cases op <;> rfl

theorem CmpOp.symbol_injective {op op' : CmpOp} (h : op.symbol = op'.symbol) : op = op' := by
  apply Option.some.inj
  rw [← CmpOp.ofSymbol?_symbol op, h, CmpOp.ofSymbol?_symbol]

namespace Json

/-! ## Variants -/

/-- The fields that may be left out, with the values that they have then. -/
def defaults : List (String × Json) :=
  [("functions", .array []), ("formulas", .array []), ("parameters", .array []),
    ("returns", .array []), ("locals", .array []), ("args", .array []), ("varType", .string "int"),
    ("else", .null), ("invariant", .null), ("precondition", .null), ("postcondition", .null)]

/-- Whether an object names its variant in a tag. -/
def isTagged (entries : List (String × Json)) : Bool :=
  entries.any fun e => e.1 == "type" || e.1 == "kind"

/-- The fields that have a value. -/
def shown : List String → List (Option Json) → List (String × Json)
  | name :: names, some j :: values => (name, j) :: shown names values
  | _ :: names, none :: values => shown names values
  | _, _ => []

/-- An object with the values of the declared fields, in any order, among other fields that satisfy
`allows`. -/
def Shows (allows : Json → Prop) (names : List String) (values : List (Option Json)) (j : Json) :
    Prop :=
  ∃ entries others, j = .object entries ∧ entries.Perm (shown names values ++ others) ∧
    ∀ other ∈ others, other.1 ∉ names ∧ allows other.2

/-- The fields of an object stay as they are, or a comparison gets its short spelling. -/
inductive Respelled :
    List String → List (Option Json) → List String → List (Option Json) → Prop
  | same (names : List String) (values : List (Option Json)) : Respelled names values names values
  | short (op : CmpOp) (left right : Option Json) :
      Respelled ["kind", "op", "left", "right"]
        [some (.string "comparison"), some (.string op.symbol), left, right]
        ["kind", "left", "right"] [some (.string op.word), left, right]

section

variable (allow : Nat → Json → Prop)

mutual

/-- The second value is a variant of the first: `inside` a tagged object or not, and with `room`
levels of nesting left. -/
def Varies (inside : Bool) (room : Nat) : Json → Json → Prop
  | .array items, j => ∃ items', j = .array items' ∧ ItemsVary inside (room - 1) items items'
  | .object entries, j => ∃ values names' values',
      FieldsVary (inside || isTagged entries) (room - 1) entries values ∧
      Respelled (entries.map Prod.fst) values names' values' ∧
      Shows (fun other => (inside || isTagged entries) = true → allow (room - 1) other)
        names' values' j
  | c, j => j = c

/-- Variants one by one. -/
def ItemsVary (inside : Bool) (room : Nat) : List Json → List Json → Prop
  | [], js => js = []
  | c :: cs, js => ∃ j rest, js = j :: rest ∧ Varies inside room c j ∧ ItemsVary inside room cs rest

/-- Variants of the values of fields. A field with its default may be left out. -/
def FieldsVary (inside : Bool) (room : Nat) : List (String × Json) → List (Option Json) → Prop
  | [], values => values = []
  | (name, c) :: fields, values => ∃ value rest, values = value :: rest ∧
      (match value with
        | some j => Varies inside room c j
        | none => (name, c) ∈ defaults) ∧
      FieldsVary inside room fields rest

end

end

variable {allow : Nat → Json → Prop} {inside : Bool} {room : Nat}

mutual

/-- Canonical JSON is a variant of itself. -/
theorem Varies.refl : ∀ (inside : Bool) (room : Nat) (j : Json), Varies allow inside room j j
  | inside, room, .array items => by
    rw [Varies]
    exact ⟨items, rfl, ItemsVary.refl inside (room - 1) items⟩
  | inside, room, .object entries => by
    rw [Varies]
    refine ⟨entries.map fun e => some e.2, _, _, FieldsVary.refl _ (room - 1) entries, .same _ _,
      entries, [], rfl, ?_, nofun⟩
    have hshown : shown (entries.map Prod.fst) (entries.map fun e => some e.2) = entries := by
      induction entries with
      | nil => rfl
      | cons e entries ih => rw [List.map_cons, List.map_cons, shown, ih]
    rw [hshown, List.append_nil]
  | _, _, .null | _, _, .bool _ | _, _, .int _ | _, _, .fraction | _, _, .unreadable
  | _, _, .string _ => by rw [Varies] <;> simp

theorem ItemsVary.refl : ∀ (inside : Bool) (room : Nat) (items : List Json),
    ItemsVary allow inside room items items
  | _, _, [] => by rw [ItemsVary]
  | inside, room, j :: items => by
    rw [ItemsVary]
    exact ⟨j, items, rfl, Varies.refl inside room j, ItemsVary.refl inside room items⟩

theorem FieldsVary.refl : ∀ (inside : Bool) (room : Nat) (fields : List (String × Json)),
    FieldsVary allow inside room fields (fields.map fun e => some e.2)
  | _, _, [] => by
    rw [FieldsVary]
    rfl
  | inside, room, (name, j) :: fields => by
    rw [FieldsVary]
    exact ⟨some j, fields.map fun e => some e.2, rfl, Varies.refl inside room j,
      FieldsVary.refl inside room fields⟩

end

theorem FieldsVary.length_eq {fields : List (String × Json)} {values : List (Option Json)}
    (h : FieldsVary allow inside room fields values) : values.length = fields.length := by
  induction fields generalizing values with
  | nil =>
    rw [FieldsVary] at h
    rw [h, List.length_nil, List.length_nil]
  | cons field fields ih =>
    rw [FieldsVary] at h
    obtain ⟨value, rest, rfl, -, hrest⟩ := h
    rw [List.length_cons, List.length_cons, ih hrest]

theorem fieldsVary_nil {values : List (Option Json)} :
    FieldsVary allow inside room [] values ↔ values = [] := by
  rw [FieldsVary]

/-- The value of a field, or nothing where the field has its default. -/
def FieldVaries (allow : Nat → Json → Prop) (inside : Bool) (room : Nat) (name : String)
    (c : Json) : Option Json → Prop
  | some j => Varies allow inside room c j
  | none => (name, c) ∈ defaults

theorem fieldsVary_cons {name : String} {c : Json} {fields : List (String × Json)}
    {values : List (Option Json)} :
    FieldsVary allow inside room ((name, c) :: fields) values ↔
      ∃ value rest, values = value :: rest ∧ FieldVaries allow inside room name c value ∧
        FieldsVary allow inside room fields rest := by
  rw [FieldsVary]
  rfl

/-- A field without a default is there. -/
theorem fieldsVary_required {name : String} {c : Json} {fields : List (String × Json)}
    {values : List (Option Json)} (hname : name ∉ defaults.map Prod.fst) :
    FieldsVary allow inside room ((name, c) :: fields) values ↔
      ∃ j rest, values = some j :: rest ∧ Varies allow inside room c j ∧
        FieldsVary allow inside room fields rest := by
  rw [FieldsVary]
  constructor
  · rintro ⟨value, rest, rfl, hvalue, hrest⟩
    cases value with
    | some j => exact ⟨j, rest, rfl, hvalue, hrest⟩
    | none => exact absurd (List.mem_map.mpr ⟨_, hvalue, rfl⟩) hname
  · rintro ⟨j, rest, rfl, hj, hrest⟩
    exact ⟨some j, rest, rfl, hj, hrest⟩

@[simp] theorem varies_string {s : String} {j : Json} :
    Varies allow inside room (.string s) j ↔ j = .string s := by
  simp [Varies]

@[simp] theorem varies_int {n : Int} {j : Json} :
    Varies allow inside room (.int n) j ↔ j = .int n := by
  simp [Varies]

@[simp] theorem varies_null {j : Json} : Varies allow inside room .null j ↔ j = .null := by
  simp [Varies]

/-- The fields in reverse order, behind others. -/
theorem Varies.of_reverse {entries entries' : List (String × Json)} {names' : List String}
    {values' : List (Option Json)} (values : List (Option Json)) (others : List (String × Json))
    (hspell : Respelled (entries.map Prod.fst) values names' values')
    (hentries' : entries' = (shown names' values' ++ others).reverse)
    (hfields : FieldsVary allow (inside || isTagged entries) (room - 1) entries values)
    (hothers : ∀ other ∈ others, other.1 ∉ names' ∧
      ((inside || isTagged entries) = true → allow (room - 1) other.2)) :
    Varies allow inside room (.object entries) (.object entries') := by
  rw [Varies, hentries']
  exact ⟨values, names', values', hfields, hspell, _, others, rfl, List.reverse_perm _, hothers⟩

/-! ## What the reader of an object sees -/

theorem filter_shown_of_not_mem {name : String} {names : List String} (h : name ∉ names)
    (values : List (Option Json)) : (shown names values).filter (·.1 == name) = [] := by
  fun_induction shown names values with
  | case1 name' names j values ih =>
    rw [List.mem_cons, not_or] at h
    rw [List.filter_cons_of_neg (by simpa using Ne.symm h.1), ih h.2]
  | case2 name' names values ih => exact ih (List.not_mem_of_not_mem_cons h)
  | case3 => rfl

theorem filter_shown_self {name : String} {names : List String} (h : name ∉ names)
    (value : Option Json) (values : List (Option Json)) :
    (shown (name :: names) (value :: values)).filter (·.1 == name) =
      value.toList.map fun j => (name, j) := by
  cases value with
  | none =>
    rw [shown, filter_shown_of_not_mem h]
    rfl
  | some j =>
    rw [shown, List.filter_cons, filter_shown_of_not_mem h, if_pos (beq_self_eq_true name)]
    rfl

theorem filter_shown_of_ne {name name' : String} (h : name ≠ name') (names : List String)
    (value : Option Json) (values : List (Option Json)) :
    (shown (name :: names) (value :: values)).filter (·.1 == name') =
      (shown names values).filter (·.1 == name') := by
  cases value with
  | none => rfl
  | some j => rw [shown, List.filter_cons_of_neg (by simpa using h)]

theorem single?_of_perm {entries : List (String × Json)} {name : String} {value : Option Json}
    (h : (entries.filter (·.1 == name)).Perm (value.toList.map fun j => (name, j))) :
    single? entries name = some value := by
  unfold single?
  cases value with
  | none => rw [List.perm_nil.mp h]
  | some j => rw [List.perm_singleton.mp h]

theorem mapM_single? {entries : List (String × Json)} :
    ∀ {names : List String} {values : List (Option Json)}, names.Nodup →
      values.length = names.length →
      (∀ name ∈ names, (entries.filter (·.1 == name)).Perm
        ((shown names values).filter (·.1 == name))) →
      names.mapM (single? entries) = some values
  | [], [], _, _, _ => rfl
  | name :: names, value :: values, hnodup, hlength, h => by
    rw [List.nodup_cons] at hnodup
    -- the names are distinct, so the entries of the others are shown by the other values
    have hfirst := h name List.mem_cons_self
    rw [filter_shown_self hnodup.1] at hfirst
    have hrest : names.mapM (single? entries) = some values := by
      refine mapM_single? hnodup.2 (Nat.succ.inj hlength) fun name' hname' => ?_
      have hne : name ≠ name' := by
        rintro rfl
        exact hnodup.1 hname'
      rw [← filter_shown_of_ne hne names value]
      exact h name' (List.mem_cons_of_mem _ hname')
    rw [List.mapM_cons, single?_of_perm hfirst, hrest]
    rfl

/-- The entries of one name are those that are shown, where the name is declared. -/
theorem perm_filter_shown {allows : Json → Prop} {names : List String}
    {values : List (Option Json)} {entries others : List (String × Json)}
    (hperm : entries.Perm (shown names values ++ others))
    (hothers : ∀ other ∈ others, other.1 ∉ names ∧ allows other.2) {name : String}
    (hname : name ∈ names) :
    (entries.filter (·.1 == name)).Perm ((shown names values).filter (·.1 == name)) := by
  have hnone : others.filter (·.1 == name) = [] := by
    rw [List.filter_eq_nil_iff]
    intro other hother
    rw [beq_iff_eq]
    rintro rfl
    exact (hothers other hother).1 hname
  have hfilter := hperm.filter (·.1 == name)
  rwa [List.filter_append, hnone, List.append_nil] at hfilter

/-- The declared fields are read as they are shown. -/
theorem Shows.fields? {allows : Json → Prop} {names : List String} {values : List (Option Json)}
    {j : Json} (h : Shows allows names values j) (hnodup : names.Nodup)
    (hlength : values.length = names.length) : j.fields? names = some values := by
  obtain ⟨entries, others, rfl, hperm, hothers⟩ := h
  exact mapM_single? hnodup hlength fun name hname => perm_filter_shown hperm hothers hname

/-- The tag is found, and what is left shows the other fields. -/
theorem Shows.tagged? {allows : Json → Prop} {tag : String} {names : List String} {tagValue : Json}
    {values : List (Option Json)} {j : Json}
    (h : Shows allows (tag :: names) (some tagValue :: values) j) (htag : tag ∉ names) :
    ∃ body, j.tagged? tag = some (tagValue, body) ∧ Shows allows names values body := by
  obtain ⟨entries, others, rfl, hperm, hothers⟩ := h
  have hsingle : single? entries tag = some (some tagValue) := by
    refine single?_of_perm ?_
    rw [← filter_shown_self htag (some tagValue) values]
    exact perm_filter_shown hperm hothers List.mem_cons_self
  -- nothing but the tag goes when the entries of its name are taken out
  have hkept : ∀ e ∈ shown names values ++ others, (e.1 != tag) = true := by
    intro e he
    rw [bne_iff_ne]
    rintro rfl
    rcases List.mem_append.mp he with he | he
    · have hnone := filter_shown_of_not_mem htag values
      rw [List.filter_eq_nil_iff] at hnone
      exact hnone e he (beq_self_eq_true e.1)
    · exact (hothers e he).1 List.mem_cons_self
  refine ⟨.object (entries.filter (·.1 != tag)), ?_, entries.filter (·.1 != tag), others, rfl, ?_,
    fun other hother => ?_⟩
  · unfold Json.tagged?
    simp only [hsingle]
  · have hfilter := hperm.filter (·.1 != tag)
    rw [shown, List.cons_append, List.filter_cons_of_neg (by simp)] at hfilter
    rwa [List.filter_eq_self.mpr hkept] at hfilter
  · obtain ⟨hname, hallows⟩ := hothers other hother
    exact ⟨List.not_mem_of_not_mem_cons hname, hallows⟩

/-- A variant of an object is an object. -/
theorem Varies.exists_object {entries : List (String × Json)} {j : Json}
    (h : Varies allow inside room (.object entries) j) : ∃ entries', j = .object entries' := by
  rw [Varies] at h
  obtain ⟨_, _, _, _, _, entries', _, rfl, -⟩ := h
  exact ⟨entries', rfl⟩

/-- Everything in a tagged object is inside one. -/
theorem varies_tagged {entries : List (String × Json)} (h : isTagged entries = true) {j : Json} :
    Varies allow inside room (.object entries) j ↔
      Varies allow true room (.object entries) j := by
  rw [Varies, Varies, h, Bool.or_true, Bool.or_true]

/-- **Reading a variant of a record** gives the variants of its fields. -/
theorem Varies.record {fields : List (String × Json)} {j : Json}
    (h : Varies allow inside room (.object fields) j) (hkind : "kind" ∉ fields.map Prod.fst)
    (hnodup : (fields.map Prod.fst).Nodup) :
    ∃ values, FieldsVary allow (inside || isTagged fields) (room - 1) fields values ∧
      j.fields? (fields.map Prod.fst) = some values := by
  rw [Varies] at h
  obtain ⟨values, names', values', hfields, hspell, hshows⟩ := h
  -- only comparisons have another spelling, and they have a kind
  have hsame : names' = fields.map Prod.fst ∧ values' = values := by
    generalize fields.map Prod.fst = names at hspell hkind
    cases hspell with
    | same => exact ⟨rfl, rfl⟩
    | short => exact absurd List.mem_cons_self hkind
  obtain ⟨rfl, rfl⟩ := hsame
  refine ⟨values', hfields, hshows.fields? hnodup ?_⟩
  rw [hfields.length_eq, List.length_map]

/-- **Reading a variant of a tagged object** gives its tag and the variants of its fields. -/
theorem Varies.tagged {tag w : String} {fields : List (String × Json)} {j : Json}
    (h : Varies allow inside room (.object ((tag, .string w) :: fields)) j)
    (htag : tag ∉ defaults.map Prod.fst) (hw : w ≠ "comparison")
    (hnodup : (tag :: fields.map Prod.fst).Nodup) :
    ∃ inside' values body, FieldsVary allow inside' (room - 1) fields values ∧
      j.tagged? tag = some (.string w, body) ∧
      body.fields? (fields.map Prod.fst) = some values := by
  rw [Varies] at h
  obtain ⟨values, names', values', hfields, hspell, hshows⟩ := h
  rw [fieldsVary_required htag] at hfields
  obtain ⟨j', rest, rfl, hj', hrest⟩ := hfields
  rw [varies_string] at hj'
  obtain rfl := hj'
  -- only a comparison can be spelled in another way
  have hsame : names' = tag :: fields.map Prod.fst ∧ values' = some (.string w) :: rest := by
    rw [List.map_cons] at hspell
    generalize hnames : tag :: fields.map Prod.fst = names at hspell
    generalize hvalues : some (.string w) :: rest = values at hspell
    cases hspell with
    | same => exact ⟨rfl, rfl⟩
    | short op left right =>
      cases hvalues
      exact absurd rfl hw
  obtain ⟨rfl, rfl⟩ := hsame
  rw [List.nodup_cons] at hnodup
  obtain ⟨body, htagged, hbody⟩ := hshows.tagged? hnodup.1
  refine ⟨_, rest, body, hrest, htagged, hbody.fields? hnodup.2 ?_⟩
  rw [hrest.length_eq, List.length_map]

theorem Respelled.comparison {symbol : String} {left right : Option Json} {names' : List String}
    {values' : List (Option Json)} (h : Respelled ["kind", "op", "left", "right"]
      [some (.string "comparison"), some (.string symbol), left, right] names' values') :
    (names' = ["kind", "op", "left", "right"] ∧
      values' = [some (.string "comparison"), some (.string symbol), left, right]) ∨
    ∃ op : CmpOp, symbol = op.symbol ∧ names' = ["kind", "left", "right"] ∧
      values' = [some (.string op.word), left, right] := by
  cases h with
  | same => exact .inl ⟨rfl, rfl⟩
  | short op => exact .inr ⟨op, rfl, rfl, rfl⟩

/-- A comparison is read in either spelling. -/
theorem Varies.comparison {op : CmpOp} {left right j : Json}
    (h : Varies allow inside room (.object [("kind", .string "comparison"),
      ("op", .string op.symbol), ("left", left), ("right", right)]) j) :
    ∃ inside' left' right' body, Varies allow inside' (room - 1) left left' ∧
      Varies allow inside' (room - 1) right right' ∧
      (j.tagged? "kind" = some (.string "comparison", body) ∧
          body.fields? ["op", "left", "right"] =
            some [some (.string op.symbol), some left', some right'] ∨
        j.tagged? "kind" = some (.string op.word, body) ∧
          body.fields? ["left", "right"] = some [some left', some right']) := by
  rw [Varies] at h
  obtain ⟨values, names', values', hfields, hspell, hshows⟩ := h
  simp (disch := decide) only [fieldsVary_required, fieldsVary_nil, varies_string] at hfields
  obtain ⟨_, _, rfl, rfl, _, _, rfl, rfl, left', _, rfl, hleft, right', _, rfl, hright, rfl⟩ :=
    hfields
  -- the operator is a field of its own in one spelling and the tag in the other
  rcases Respelled.comparison hspell with ⟨rfl, rfl⟩ | ⟨op', hop, rfl, rfl⟩
  · obtain ⟨body, htagged, hbody⟩ := hshows.tagged? (by decide)
    exact ⟨_, left', right', body, hleft, hright, .inl ⟨htagged, hbody.fields? (by decide) rfl⟩⟩
  · obtain rfl := CmpOp.symbol_injective hop
    obtain ⟨body, htagged, hbody⟩ := hshows.tagged? (by decide)
    exact ⟨_, left', right', body, hleft, hright, .inr ⟨htagged, hbody.fields? (by decide) rfl⟩⟩

/-! ## Variants that keep within the limit -/

/-- A value that can be represented and has at most the given levels of nesting. -/
def Fits (room : Nat) (j : Json) : Prop := j.depth ≤ room ∧ j.isReadable = true

theorem admitted?_of_fits {room : Nat} {j : Json} (h : Fits room j) : j.admitted? room = some j :=
  if_pos h

theorem depthItems_le_iff {n : Nat} {items : List Json} :
    depthItems items ≤ n ↔ ∀ j ∈ items, j.depth ≤ n := by
  induction items with
  | nil => simp [depthItems]
  | cons j items ih => simp only [depthItems, Nat.max_le, List.forall_mem_cons, ih]

theorem depthEntries_le_iff {n : Nat} {entries : List (String × Json)} :
    depthEntries entries ≤ n ↔ ∀ e ∈ entries, e.2.depth ≤ n := by
  induction entries with
  | nil => simp [depthEntries]
  | cons e entries ih => simp only [depthEntries, Nat.max_le, List.forall_mem_cons, ih]

theorem readableItems_iff {items : List Json} :
    readableItems items = true ↔ ∀ j ∈ items, j.isReadable = true := by
  induction items with
  | nil => simp [readableItems]
  | cons j items ih => simp [readableItems, ih]

theorem readableEntries_iff {entries : List (String × Json)} :
    readableEntries entries = true ↔ ∀ e ∈ entries, e.2.isReadable = true := by
  induction entries with
  | nil => simp [readableEntries]
  | cons e entries ih => simp only [readableEntries, Bool.and_eq_true, List.forall_mem_cons, ih]

theorem fits_array {items : List Json} :
    Fits room (.array items) ↔ 0 < room ∧ ∀ j ∈ items, Fits (room - 1) j := by
  have hdepth : 1 + depthItems items ≤ room ↔ 0 < room ∧ depthItems items ≤ room - 1 := by omega
  rw [Fits, depth, isReadable, hdepth, depthItems_le_iff, readableItems_iff]
  simp only [Fits, and_assoc, forall_and]

theorem fits_object {entries : List (String × Json)} :
    Fits room (.object entries) ↔ 0 < room ∧ ∀ e ∈ entries, Fits (room - 1) e.2 := by
  have hdepth : 1 + depthEntries entries ≤ room ↔
    0 < room ∧ depthEntries entries ≤ room - 1 := by omega
  rw [Fits, depth, isReadable, hdepth, depthEntries_le_iff, readableEntries_iff]
  simp only [Fits, and_assoc, forall_and]

/-- An object takes a level. -/
theorem Fits.exists_succ {entries : List (String × Json)} (h : Fits room (.object entries)) :
    ∃ k, room = k + 1 :=
  ⟨room - 1, by have := (fits_object.mp h).1; omega⟩

theorem fits_string (s : String) : Fits room (.string s) := ⟨Nat.zero_le _, rfl⟩

/-- What is shown comes from a value. -/
theorem exists_of_mem_shown {names : List String} {values : List (Option Json)}
    {e : String × Json} (h : e ∈ shown names values) : some e.2 ∈ values := by
  fun_induction shown names values with
  | case1 name names j values ih =>
    rcases List.mem_cons.mp h with rfl | h
    · exact List.mem_cons_self
    · exact List.mem_cons_of_mem _ (ih h)
  | case2 name names values ih => exact List.mem_cons_of_mem _ (ih h)
  | case3 => cases h

theorem Respelled.fits {names names' : List String} {values values' : List (Option Json)}
    (h : Respelled names values names' values') (hvalues : ∀ j, some j ∈ values → Fits room j) :
    ∀ j, some j ∈ values' → Fits room j := by
  cases h with
  | same => exact hvalues
  | short op left right =>
    intro j hj
    rcases List.mem_cons.mp hj with hj | hj
    · cases hj
      exact fits_string _
    · exact hvalues j (List.mem_cons_of_mem _ (List.mem_cons_of_mem _ hj))

mutual

/-- **A variant keeps within the limit** if the fields that nobody knows do. -/
theorem Varies.fits : ∀ {c : Json} {room : Nat} {j : Json}, Fits room c →
    Varies Fits true room c j → Fits room j
  | .array items, room, j, hc, h => by
    rw [Varies] at h
    obtain ⟨items', rfl, hitems⟩ := h
    rw [fits_array] at hc ⊢
    exact ⟨hc.1, ItemsVary.fits hc.2 hitems⟩
  | .object entries, room, j, hc, h => by
    rw [Varies] at h
    obtain ⟨values, names', values', hfields, hspell, entries', others, rfl, hperm, hothers⟩ := h
    rw [fits_object] at hc ⊢
    -- an entry is a declared field, which varies one of the canonical ones, or an unknown one
    have hvalues := hspell.fits (FieldsVary.fits hc.2 hfields)
    refine ⟨hc.1, fun e he => ?_⟩
    rcases List.mem_append.mp (hperm.mem_iff.mp he) with he | he
    · exact hvalues e.2 (exists_of_mem_shown he)
    · exact (hothers e he).2 rfl
  | .null, room, j, hc, h | .bool _, room, j, hc, h | .int _, room, j, hc, h
  | .fraction, room, j, hc, h | .unreadable, room, j, hc, h | .string _, room, j, hc, h => by
    simp only [Varies] at h
    rwa [h]

theorem ItemsVary.fits : ∀ {items : List Json} {room : Nat} {js : List Json},
    (∀ c ∈ items, Fits room c) → ItemsVary Fits true room items js → ∀ j ∈ js, Fits room j
  | [], room, js, _, h => by
    rw [ItemsVary] at h
    rw [h]
    nofun
  | c :: items, room, js, hc, h => by
    rw [ItemsVary] at h
    obtain ⟨j, rest, rfl, hj, hrest⟩ := h
    rw [List.forall_mem_cons] at hc ⊢
    exact ⟨Varies.fits hc.1 hj, ItemsVary.fits hc.2 hrest⟩

theorem FieldsVary.fits : ∀ {fields : List (String × Json)} {room : Nat}
    {values : List (Option Json)}, (∀ e ∈ fields, Fits room e.2) →
    FieldsVary Fits true room fields values → ∀ j, some j ∈ values → Fits room j
  | [], room, values, _, h => by
    rw [FieldsVary] at h
    rw [h]
    nofun
  | (name, c) :: fields, room, values, hc, h => by
    rw [FieldsVary] at h
    obtain ⟨value, rest, rfl, hvalue, hrest⟩ := h
    rw [List.forall_mem_cons] at hc
    intro j hj
    rcases List.mem_cons.mp hj with rfl | hj
    · exact Varies.fits hc.1 hvalue
    · exact FieldsVary.fits hc.2 hrest j hj

end

/-- What stands around a tagged object does not matter. -/
theorem Varies.fits_tagged {c j : Json}
    (hc : ∃ entries, c = .object entries ∧ isTagged entries = true) (hfits : Fits room c)
    (h : Varies Fits inside room c j) : Fits room j := by
  obtain ⟨entries, rfl, htagged⟩ := hc
  exact Varies.fits hfits ((varies_tagged htagged).mp h)

end Json

end Contracts
