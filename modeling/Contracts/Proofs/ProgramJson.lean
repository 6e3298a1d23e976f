import Contracts.Proofs.JsonText
import Contracts.Proofs.JsonVariants

/-!
# Programs are read back

Whatever variant of its canonical JSON a program is written in, reading gives the program again
(`program_read_back`). For each kind of node there is one lemma: its variants are read as the node
if those of its parts are read as the parts (`ReadsBack`). The induction over the trees only has to
count the levels that are left.

What is in an expression, a predicate, a target or a statement is taken in before it is read. So
their unknown fields have to be representable and within the nesting limit; other unknown fields do
not (`unreadable_field_refused`).
-/

set_option autoImplicit false

namespace Contracts

theorem ArithOp.ofSymbol?_symbol (op : ArithOp) : ArithOp.ofSymbol? op.symbol = some op := by
  cases op <;> rfl

theorem VarType.ofText?_text (type : VarType) : VarType.ofText? type.text = some type := by
  cases type <;> rfl

open Json

/-! ## Canonical JSON -/

namespace Json

theorem shortItems_iff {items : List Json} :
    shortItems items = true ↔ ∀ j ∈ items, j.isShort = true := by
  induction items with
  | nil => simp [shortItems]
  | cons j items ih => simp only [shortItems, Bool.and_eq_true, List.forall_mem_cons, ih]

/-- A value that can be represented, with integers of 64 bits. -/
def IsPlain (j : Json) : Prop := j.isReadable = true ∧ j.isShort = true

@[simp] theorem isPlain_string (s : String) : IsPlain (.string s) := ⟨rfl, rfl⟩

@[simp] theorem isPlain_null : IsPlain .null := ⟨rfl, rfl⟩

@[simp] theorem isPlain_int64 (k : Int64) : IsPlain (.int k.toInt) := by
  have hlo := k.le_toInt
  have hhi := k.toInt_lt
  refine ⟨rfl, ?_⟩
  rw [isShort, decide_eq_true_eq, significandLimit]
  omega

theorem isPlain_array {items : List Json} :
    IsPlain (.array items) ↔ ∀ j ∈ items, IsPlain j := by
  rw [IsPlain, isReadable, isShort, readableItems_iff, shortItems_iff]
  simp only [IsPlain, forall_and]

@[simp] theorem isPlain_object_nil : IsPlain (.object []) := ⟨rfl, rfl⟩

@[simp] theorem isPlain_object_cons {name : String} {j : Json} {entries : List (String × Json)} :
    IsPlain (.object ((name, j) :: entries)) ↔ IsPlain j ∧ IsPlain (.object entries) := by
  simp only [IsPlain, isReadable, isShort, readableEntries, shortEntries, Bool.and_eq_true]
  tauto

end Json

theorem Param.isPlain_toJson (p : Param) : IsPlain p.toJson := by
  simp [Param.toJson]

mutual

theorem Expr.isPlain_toJson : ∀ e : Expr, IsPlain e.toJson
  | .const k => by simp [Expr.toJson]
  | .var x => by simp [Expr.toJson]
  | .neg e => by simp [Expr.toJson, Expr.isPlain_toJson e]
  | .binary op a b => by
    simp [Expr.toJson, Expr.isPlain_toJson a, Expr.isPlain_toJson b]
  | .read a i => by simp [Expr.toJson, Expr.isPlain_toJson i]
  | .call f args => by
    simp only [Expr.toJson, isPlain_object_cons, isPlain_object_nil, isPlain_string, isPlain_array,
      true_and, and_true]
    exact Expr.isPlain_listToJson args
  | .cond p a b => by
    simp [Expr.toJson, Pred.isPlain_toJson p, Expr.isPlain_toJson a,
      Expr.isPlain_toJson b]

theorem Expr.isPlain_listToJson : ∀ es : List Expr, ∀ j ∈ Expr.listToJson es, IsPlain j
  | [] => by simp [Expr.listToJson]
  | e :: es => by
    rw [Expr.listToJson, List.forall_mem_cons]
    exact ⟨Expr.isPlain_toJson e, Expr.isPlain_listToJson es⟩

theorem Pred.isPlain_toJson : ∀ p : Pred, IsPlain p.toJson
  | .bool true | .bool false => by simp [Pred.toJson]
  | .compare op a b => by
    simp [Pred.toJson, Expr.isPlain_toJson a, Expr.isPlain_toJson b]
  | .not p | .paren p => by simp [Pred.toJson, Pred.isPlain_toJson p]
  | .and p q | .or p q | .implies p q => by
    simp [Pred.toJson, Pred.isPlain_toJson p, Pred.isPlain_toJson q]
  | .quantified q x p => by
    simp [Pred.toJson, x.isPlain_toJson, Pred.isPlain_toJson p]
  | .formula f args => by
    simp only [Pred.toJson, isPlain_object_cons, isPlain_object_nil, isPlain_string, isPlain_array,
      true_and, and_true]
    exact Expr.isPlain_listToJson args

end

theorem Target.isPlain_toJson (t : Target) : IsPlain t.toJson := by
  cases t with
  | var x => simp [Target.toJson]
  | cell a i => simp [Target.toJson, i.isPlain_toJson]

theorem Pred.isPlain_optionToJson (p : Option Pred) : IsPlain (Pred.optionToJson p) := by
  cases p with
  | none => exact isPlain_null
  | some p => exact p.isPlain_toJson

mutual

theorem Stmt.isPlain_toJson : ∀ s : Stmt, IsPlain s.toJson
  | .assign targets exprs => by
    simp only [Stmt.toJson, isPlain_object_cons, isPlain_object_nil, isPlain_string, isPlain_array,
      List.forall_mem_map, true_and, and_true]
    exact ⟨fun t _ => t.isPlain_toJson, Expr.isPlain_listToJson exprs⟩
  | .block ss => by
    simp only [Stmt.toJson, isPlain_object_cons, isPlain_object_nil, isPlain_string, isPlain_array,
      true_and, and_true]
    exact Stmt.isPlain_listToJson ss
  | .branch p yes none => by
    simp [Stmt.toJson, p.isPlain_toJson, Stmt.isPlain_toJson yes]
  | .branch p yes (some no) => by
    simp [Stmt.toJson, p.isPlain_toJson, Stmt.isPlain_toJson yes,
      Stmt.isPlain_toJson no]
  | .loop p body invariant => by
    simp [Stmt.toJson, p.isPlain_toJson, Stmt.isPlain_toJson body,
      Pred.isPlain_optionToJson]

theorem Stmt.isPlain_listToJson : ∀ ss : List Stmt, ∀ j ∈ Stmt.listToJson ss, IsPlain j
  | [] => by simp [Stmt.listToJson]
  | s :: ss => by
    rw [Stmt.listToJson, List.forall_mem_cons]
    exact ⟨Stmt.isPlain_toJson s, Stmt.isPlain_listToJson ss⟩

end

theorem FunctionDef.isPlain_toJson (f : FunctionDef) : IsPlain f.toJson := by
  simp [FunctionDef.toJson, isPlain_array, Param.isPlain_toJson,
    f.body.isPlain_toJson, Pred.isPlain_optionToJson]

theorem FormulaDef.isPlain_toJson (f : FormulaDef) : IsPlain f.toJson := by
  simp [FormulaDef.toJson, isPlain_array, Param.isPlain_toJson,
    f.body.isPlain_toJson]

theorem Program.isPlain_toJson (p : Program) : IsPlain p.toJson := by
  simp [Program.toJson, isPlain_array, FunctionDef.isPlain_toJson, FormulaDef.isPlain_toJson]

/-! ## Reading the variants of a value -/

namespace Json

variable {allow : Nat → Json → Prop} {α : Type} {decode : Json → Option α}

/-- Every variant of the canonical JSON `c` is read as `x`. -/
def ReadsBack (allow : Nat → Json → Prop) (decode : Json → Option α) (c : Json) (x : α) : Prop :=
  ∀ {inside : Bool} {room : Nat} {j : Json}, Varies allow inside room c j → decode j = some x

/-- **A tagged object is read field by field**: a decoder that goes by the tag to the other fields
reads the object if it builds the value from variants of these. -/
theorem ReadsBack.tagged {tag w : String} {fields : List (String × Json)} {x : α}
    {build : List (Option Json) → Option α}
    (htag : tag ∉ defaults.map Prod.fst) (hw : w ≠ "comparison")
    (hnodup : (tag :: fields.map Prod.fst).Nodup)
    (hdecode : ∀ j body, j.tagged? tag = some (.string w, body) →
      decode j = body.fields? (fields.map Prod.fst) >>= build)
    (hbuild : ∀ inside room values, FieldsVary allow inside room fields values →
      build values = some x) : ReadsBack allow decode (.object ((tag, .string w) :: fields)) x := by
  intro inside room j h
  obtain ⟨inside', values, body, hvalues, htagged, hbody⟩ := h.tagged htag hw hnodup
  rw [hdecode j body htagged, hbody]
  exact hbuild inside' (room - 1) values hvalues

-- the fields in another order and with a note, a short comparison, and no invariant
example : Stmt.decode 3 (.object [
      ("body", .object [("stmts", .array []), ("type", .string "block")]), ("note", .null),
      ("type", .string "while"), ("condition", .object [("kind", .string "lt"),
        ("right", .object [("type", .string "const"), ("value", .int 3)]),
        ("left", .object [("name", .string "x"), ("type", .string "var")])])]) =
    some (.loop (.compare .lt (.var "x") (.const 3)) (.block []) none) := by cbv

theorem mapM_itemsVary {inside : Bool} {room : Nat} {toJson : α → Json} {xs : List α}
    (h : ∀ x ∈ xs, ∀ j, Varies allow inside room (toJson x) j → decode j = some x)
    {js : List Json} (hjs : ItemsVary allow inside room (xs.map toJson) js) :
    js.mapM decode = some xs := by
  induction xs generalizing js with
  | nil =>
    rw [List.map_nil, ItemsVary] at hjs
    rw [hjs]
    rfl
  | cons x xs ih =>
    rw [List.forall_mem_cons] at h
    rw [List.map_cons, ItemsVary] at hjs
    obtain ⟨j, rest, rfl, hj, hrest⟩ := hjs
    rw [List.mapM_cons, h.1 j hj, ih h.2 hrest]
    rfl

/-- A list that cannot be left out. -/
theorem ReadsBack.list {toJson : α → Json} {xs : List α}
    (h : ∀ x ∈ xs, ReadsBack allow decode (toJson x) x) {inside : Bool} {room : Nat} {j : Json}
    (hj : Varies allow inside room (.array (xs.map toJson)) j) :
    list? decode (some j) = some xs := by
  rw [Varies] at hj
  obtain ⟨js, rfl, hjs⟩ := hj
  exact mapM_itemsVary (fun x hx j hj => h x hx hj) hjs

/-- Only the empty list is left out. -/
theorem eq_nil_of_mem_defaults {name : String} {items : List Json}
    (h : (name, Json.array items) ∈ defaults) : items = [] := by
  simp only [defaults, List.mem_cons, Prod.mk.injEq, Json.array.injEq, reduceCtorEq, and_false,
    List.not_mem_nil, or_false] at h
  tauto

/-- A list that may be left out where it is empty. -/
theorem ReadsBack.defaultList {toJson : α → Json} {xs : List α}
    (h : ∀ x ∈ xs, ReadsBack allow decode (toJson x) x) {inside : Bool} {room : Nat} {name : String}
    {value : Option Json}
    (hvalue : FieldVaries allow inside room name (.array (xs.map toJson)) value) :
    list? decode value = some xs := by
  cases value with
  | some j => exact ReadsBack.list h hvalue
  | none =>
    obtain rfl : xs = [] := List.map_eq_nil_iff.mp (eq_nil_of_mem_defaults hvalue)
    rfl

/-- Something that may be missing, and is null in canonical JSON then. -/
theorem optional?_fieldVaries {inside : Bool} {room : Nat} {toJson : α → Json} {x : Option α}
    (hobject : ∀ y ∈ x, ∃ entries, toJson y = .object entries)
    (h : ∀ y ∈ x, ∀ j, Varies allow inside room (toJson y) j → decode j = some y)
    {name : String} {value : Option Json}
    (hvalue : FieldVaries allow inside room name ((x.map toJson).getD .null) value) :
    optional? decode value = some x := by
  cases x with
  | none =>
    cases value with
    | none => rfl
    | some j =>
      rw [Option.map_none, Option.getD_none, FieldVaries, varies_null] at hvalue
      rw [hvalue]
      rfl
  | some y =>
    obtain ⟨entries, hentries⟩ := hobject y rfl
    rw [Option.map_some, Option.getD_some] at hvalue
    cases value with
    | none =>
      rw [hentries] at hvalue
      simp [FieldVaries, defaults] at hvalue
    | some j =>
      have hj := h y rfl j hvalue
      -- null would be read as missing, and no variant of an object is null
      have hnull : j ≠ .null := by
        rintro rfl
        rw [hentries] at hvalue
        obtain ⟨_, h⟩ := Varies.exists_object hvalue
        cases h
      rw [optional?, hj, Option.map_some]
      exact hnull

/-- Records in a list that may be left out where it is empty. -/
theorem decodeRecords_fieldVaries {decode : Nat → Json → Option α} {inside : Bool} {room : Nat}
    {toJson : α → Json} {xs : List α} (hroom : 0 < room)
    (h : ∀ x ∈ xs, ∀ j, Varies allow inside (room - 1) (toJson x) j →
      decode (room - 1) j = some x) {name : String} {value : Option Json}
    (hvalue : FieldVaries allow inside room name (.array (xs.map toJson)) value) :
    decodeRecords decode room value = some xs := by
  cases value with
  | some j =>
    rw [FieldVaries, Varies] at hvalue
    obtain ⟨js, rfl, hjs⟩ := hvalue
    obtain ⟨room, rfl⟩ : ∃ k, room = k + 1 := ⟨room - 1, by omega⟩
    exact mapM_itemsVary h hjs
  | none =>
    obtain rfl : xs = [] := List.map_eq_nil_iff.mp (eq_nil_of_mem_defaults hvalue)
    cases room <;> rfl

end Json

variable {allow : Nat → Json → Prop} {inside : Bool} {n : Nat}

/-! ## Parameters -/

theorem VarType.decode_varies {type : VarType} {inside' : Bool} {room room' : Nat}
    {value : Option Json}
    (h : FieldVaries allow inside' room' "varType" (.string type.text) value) :
    VarType.decode room inside value = some type := by
  cases value with
  | some j =>
    rw [FieldVaries, varies_string] at h
    obtain rfl := h
    have hdepth : (Json.string type.text).depth ≤ room := Nat.zero_le room
    rw [VarType.decode, if_pos hdepth]
    exact VarType.ofText?_text type
  | none =>
    -- only the type of integers is left out
    cases type with
    | int => rfl
    | array => simp [FieldVaries, defaults, VarType.text] at h

theorem Param.reads (p : Param) (room : Nat) :
    ReadsBack allow (Param.decode inside (room + 1)) p.toJson p := by
  intro inside' room' j h
  rw [Param.toJson] at h
  obtain ⟨values, hvalues, hfields⟩ := h.record (by simp) (by simp)
  simp (disch := decide) only [fieldsVary_required, fieldsVary_cons, fieldsVary_nil,
    varies_string] at hvalues
  obtain ⟨_, _, rfl, rfl, value, _, rfl, hvalue, rfl⟩ := hvalues
  simp only [List.map_cons, List.map_nil] at hfields
  rw [Param.decode, hfields]
  simp [string?, VarType.decode_varies hvalue]

/-! ## Expressions -/

namespace Expr

theorem listToJson_eq_map (es : List Expr) : listToJson es = es.map toJson := by
  induction es with
  | nil => rw [listToJson, List.map_nil]
  | cons e es ih => rw [listToJson, List.map_cons, ih]

theorem reads_const (k : Int64) : ReadsBack allow (decodeAt (n + 1) inside) (toJson (.const k))
    (.const k) := by
  rw [toJson]
  refine ReadsBack.tagged (by decide) (by decide) (by simp)
    (fun j body htag => by rw [decodeAt, htag]; rfl) fun inside' room values hvalues => ?_
  simp (disch := decide) only [fieldsVary_required, fieldsVary_nil, varies_int] at hvalues
  obtain ⟨_, _, rfl, rfl, rfl⟩ := hvalues
  simp [int64?, word?_toInt]

theorem reads_var (x : String) : ReadsBack allow (decodeAt (n + 1) inside) (toJson (.var x))
    (.var x) := by
  rw [toJson]
  refine ReadsBack.tagged (by decide) (by decide) (by simp)
    (fun j body htag => by rw [decodeAt, htag]; rfl) fun inside' room values hvalues => ?_
  simp (disch := decide) only [fieldsVary_required, fieldsVary_nil, varies_string] at hvalues
  obtain ⟨_, _, rfl, rfl, rfl⟩ := hvalues
  simp [string?]

theorem reads_neg {e : Expr} (he : ReadsBack allow (decodeAt n true) e.toJson e) :
    ReadsBack allow (decodeAt (n + 1) inside) (toJson (.neg e)) (.neg e) := by
  rw [toJson]
  refine ReadsBack.tagged (by decide) (by decide) (by simp)
    (fun j body htag => by rw [decodeAt, htag]; rfl) fun inside' room values hvalues => ?_
  simp (disch := decide) only [fieldsVary_required, fieldsVary_nil] at hvalues
  obtain ⟨argument, _, rfl, hargument, rfl⟩ := hvalues
  simp [he hargument]

theorem reads_binary (op : ArithOp) {a b : Expr} (ha : ReadsBack allow (decodeAt n true) a.toJson a)
    (hb : ReadsBack allow (decodeAt n true) b.toJson b) :
    ReadsBack allow (decodeAt (n + 1) inside) (toJson (.binary op a b)) (.binary op a b) := by
  rw [toJson]
  refine ReadsBack.tagged (by decide) (by decide) (by simp)
    (fun j body htag => by rw [decodeAt, htag]; rfl) fun inside' room values hvalues => ?_
  simp (disch := decide) only [fieldsVary_required, fieldsVary_nil, varies_string] at hvalues
  obtain ⟨_, _, rfl, rfl, left, _, rfl, hleft, right, _, rfl, hright, rfl⟩ := hvalues
  simp [spelling?, ArithOp.ofSymbol?_symbol, ha hleft, hb hright]

theorem reads_read (a : String) {i : Expr} (hi : ReadsBack allow (decodeAt n true) i.toJson i) :
    ReadsBack allow (decodeAt (n + 1) inside) (toJson (.read a i)) (.read a i) := by
  rw [toJson]
  refine ReadsBack.tagged (by decide) (by decide) (by simp)
    (fun j body htag => by rw [decodeAt, htag]; rfl) fun inside' room values hvalues => ?_
  simp (disch := decide) only [fieldsVary_required, fieldsVary_nil, varies_string] at hvalues
  obtain ⟨_, _, rfl, rfl, index, _, rfl, hindex, rfl⟩ := hvalues
  simp [string?, hi hindex]

theorem reads_call (f : String) {args : List Expr}
    (hargs : ∀ e ∈ args, ReadsBack allow (decodeAt n true) e.toJson e) :
    ReadsBack allow (decodeAt (n + 1) inside) (toJson (.call f args)) (.call f args) := by
  rw [toJson, listToJson_eq_map]
  refine ReadsBack.tagged (by decide) (by decide) (by simp)
    (fun j body htag => by rw [decodeAt, htag]; rfl) fun inside' room values hvalues => ?_
  simp (disch := decide) only [fieldsVary_required, fieldsVary_cons, fieldsVary_nil,
    varies_string] at hvalues
  obtain ⟨_, _, rfl, rfl, value, _, rfl, hvalue, rfl⟩ := hvalues
  simp [string?, ReadsBack.defaultList hargs hvalue]

theorem reads_cond {p : Pred} {a b : Expr} (hp : ReadsBack allow (Pred.decodeAt n true) p.toJson p)
    (ha : ReadsBack allow (decodeAt n true) a.toJson a)
    (hb : ReadsBack allow (decodeAt n true) b.toJson b) :
    ReadsBack allow (decodeAt (n + 1) inside) (toJson (.cond p a b)) (.cond p a b) := by
  rw [toJson]
  refine ReadsBack.tagged (by decide) (by decide) (by simp)
    (fun j body htag => by rw [decodeAt, htag]; rfl) fun inside' room values hvalues => ?_
  simp (disch := decide) only [fieldsVary_required, fieldsVary_nil] at hvalues
  obtain ⟨test, _, rfl, htest, yes, _, rfl, hyes, no, _, rfl, hno, rfl⟩ := hvalues
  simp [hp htest, ha hyes, hb hno]

end Expr

/-! ## Predicates -/

namespace Pred

theorem reads_bool (b : Bool) :
    ReadsBack allow (decodeAt (n + 1) inside) (toJson (.bool b)) (.bool b) := by
  cases b
  all_goals
    rw [toJson]
    refine ReadsBack.tagged (by decide) (by decide) (by simp)
      (fun j body htag => by rw [decodeAt, htag]; rfl) fun inside' room values hvalues => ?_
    rw [fieldsVary_nil] at hvalues
    rw [hvalues]
    rfl

/-- The short spelling of a comparison. -/
theorem decodeAt_short (op : CmpOp) {j body left right : Json} {a b : Expr}
    (htag : j.tagged? "kind" = some (.string op.word, body))
    (hbody : body.fields? ["left", "right"] = some [some left, some right])
    (ha : Expr.decodeAt n true left = some a) (hb : Expr.decodeAt n true right = some b) :
    decodeAt (n + 1) inside j = some (.compare op a b) := by
  rw [decodeAt, htag]
  cases op
  all_goals
    change (body.fields? _ >>= _) = _
    rw [hbody]
    simp [ha, hb]

theorem reads_compare (op : CmpOp) {a b : Expr}
    (ha : ReadsBack allow (Expr.decodeAt n true) a.toJson a)
    (hb : ReadsBack allow (Expr.decodeAt n true) b.toJson b) :
    ReadsBack allow (decodeAt (n + 1) inside) (toJson (.compare op a b)) (.compare op a b) := by
  intro inside' room j h
  rw [toJson] at h
  obtain ⟨_, left, right, body, hleft, hright, ⟨htag, hbody⟩ | ⟨htag, hbody⟩⟩ := h.comparison
  -- the long spelling
  · rw [decodeAt, htag]
    change (body.fields? _ >>= _) = _
    rw [hbody]
    simp [spelling?, CmpOp.ofSymbol?_symbol, ha hleft, hb hright]
  · exact decodeAt_short op htag hbody (ha hleft) (hb hright)

theorem reads_not {p : Pred} (hp : ReadsBack allow (decodeAt n true) p.toJson p) :
    ReadsBack allow (decodeAt (n + 1) inside) (toJson (.not p)) (.not p) := by
  rw [toJson]
  refine ReadsBack.tagged (by decide) (by decide) (by simp)
    (fun j body htag => by rw [decodeAt, htag]; rfl) fun inside' room values hvalues => ?_
  simp (disch := decide) only [fieldsVary_required, fieldsVary_nil] at hvalues
  obtain ⟨condition, _, rfl, hcondition, rfl⟩ := hvalues
  simp [hp hcondition]

theorem reads_paren {p : Pred} (hp : ReadsBack allow (decodeAt n true) p.toJson p) :
    ReadsBack allow (decodeAt (n + 1) inside) (toJson (.paren p)) (.paren p) := by
  rw [toJson]
  refine ReadsBack.tagged (by decide) (by decide) (by simp)
    (fun j body htag => by rw [decodeAt, htag]; rfl) fun inside' room values hvalues => ?_
  simp (disch := decide) only [fieldsVary_required, fieldsVary_nil] at hvalues
  obtain ⟨inner, _, rfl, hinner, rfl⟩ := hvalues
  simp [hp hinner]

/-- The three connectives of two predicates differ in their names only. -/
theorem reads_connective {p q : Pred} (hp : ReadsBack allow (decodeAt n true) p.toJson p)
    (hq : ReadsBack allow (decodeAt n true) q.toJson q) :
    ∀ connective ∈ [Pred.and, Pred.or, Pred.implies],
      ReadsBack allow (decodeAt (n + 1) inside) (toJson (connective p q)) (connective p q) := by
  simp only [List.forall_mem_cons, List.not_mem_nil, IsEmpty.forall_iff, implies_true, and_true]
  refine ⟨?_, ?_, ?_⟩
  all_goals
    rw [toJson]
    refine ReadsBack.tagged (by decide) (by decide) (by simp)
      (fun j body htag => by rw [decodeAt, htag]; rfl) fun inside' room values hvalues => ?_
    simp (disch := decide) only [fieldsVary_required, fieldsVary_nil] at hvalues
    obtain ⟨left, _, rfl, hleft, right, _, rfl, hright, rfl⟩ := hvalues
    simp [hp hleft, hq hright]

theorem reads_quantified (q : Quantifier) (x : Param) {p : Pred}
    (hp : ReadsBack allow (decodeAt n true) p.toJson p) :
    ReadsBack allow (decodeAt (n + 1) inside) (toJson (.quantified q x p)) (.quantified q x p) := by
  rw [toJson]
  cases q
  all_goals
    refine ReadsBack.tagged (by decide) (by decide) (by simp)
      (fun j body htag => by rw [decodeAt, htag]; rfl) fun inside' room values hvalues => ?_
    simp (disch := decide) only [fieldsVary_required, fieldsVary_nil] at hvalues
    obtain ⟨binder, _, rfl, hbinder, predicate, _, rfl, hpredicate, rfl⟩ := hvalues
    have hx : Param.decode true nestingLimit binder = some x := x.reads _ hbinder
    simp [hx, hp hpredicate]

theorem reads_formula (f : String) {args : List Expr}
    (hargs : ∀ e ∈ args, ReadsBack allow (Expr.decodeAt n true) e.toJson e) :
    ReadsBack allow (decodeAt (n + 1) inside) (toJson (.formula f args)) (.formula f args) := by
  rw [toJson, Expr.listToJson_eq_map]
  refine ReadsBack.tagged (by decide) (by decide) (by simp)
    (fun j body htag => by rw [decodeAt, htag]; rfl) fun inside' room values hvalues => ?_
  simp (disch := decide) only [fieldsVary_required, fieldsVary_cons, fieldsVary_nil,
    varies_string] at hvalues
  obtain ⟨_, _, rfl, rfl, value, _, rfl, hvalue, rfl⟩ := hvalues
  simp [string?, ReadsBack.defaultList hargs hvalue]

theorem toJson_tagged : ∀ p : Pred, ∃ entries, p.toJson = .object entries ∧ isTagged entries = true
  | .bool true | .bool false | .compare .. | .not _ | .and .. | .or .. | .implies .. | .paren _
  | .quantified .. | .formula .. => by
    rw [toJson]
    exact ⟨_, rfl, rfl⟩

theorem toJson_object (p : Pred) : ∃ entries, p.toJson = .object entries :=
  p.toJson_tagged.imp fun _ h => h.1

end Pred

theorem Expr.toJson_object (e : Expr) : ∃ entries, e.toJson = .object entries := by
  cases e
  all_goals
    rw [toJson]
    exact ⟨_, rfl⟩

/-- An object takes a level, so none is read when no level is left. -/
theorem Json.not_depth_le_zero {c : Json} (hc : ∃ entries, c = .object entries) :
    ¬c.depth ≤ 0 := by
  obtain ⟨entries, rfl⟩ := hc
  rw [depth]
  omega

mutual

/-- **Expressions are read back** if there are enough levels for the canonical JSON. -/
theorem Expr.reads : ∀ (e : Expr) {n : Nat} {inside : Bool}, e.toJson.depth ≤ n →
    ReadsBack allow (Expr.decodeAt n inside) e.toJson e
  | e, 0, _, hdepth => absurd hdepth (not_depth_le_zero e.toJson_object)
  | .const k, n + 1, _, _ => Expr.reads_const k
  | .var x, n + 1, _, _ => Expr.reads_var x
  | .neg e, n + 1, _, hdepth => by
    simp only [Expr.toJson, depth, depthEntries] at hdepth
    exact Expr.reads_neg (Expr.reads e (by omega))
  | .binary op a b, n + 1, _, hdepth => by
    simp only [Expr.toJson, depth, depthEntries] at hdepth
    exact Expr.reads_binary op (Expr.reads a (by omega)) (Expr.reads b (by omega))
  | .read a i, n + 1, _, hdepth => by
    simp only [Expr.toJson, depth, depthEntries] at hdepth
    exact Expr.reads_read a (Expr.reads i (by omega))
  | .call f args, n + 1, _, hdepth => by
    simp only [Expr.toJson, depth, depthEntries] at hdepth
    exact Expr.reads_call f (Expr.reads_mem args (by omega))
  | .cond p a b, n + 1, _, hdepth => by
    simp only [Expr.toJson, depth, depthEntries] at hdepth
    exact Expr.reads_cond (Pred.reads p (by omega)) (Expr.reads a (by omega))
      (Expr.reads b (by omega))

theorem Expr.reads_mem : ∀ (es : List Expr) {n : Nat} {inside : Bool},
    depthItems (Expr.listToJson es) ≤ n →
      ∀ e ∈ es, ReadsBack allow (Expr.decodeAt n inside) e.toJson e
  | [], _, _, _ => by
    intro e he
    cases he
  | e :: es, n, inside, hdepth => by
    simp only [Expr.listToJson, depthItems] at hdepth
    rw [List.forall_mem_cons]
    exact ⟨Expr.reads e (by omega), Expr.reads_mem es (by omega)⟩

/-- **Predicates are read back** if there are enough levels for the canonical JSON. -/
theorem Pred.reads : ∀ (p : Pred) {n : Nat} {inside : Bool}, p.toJson.depth ≤ n →
    ReadsBack allow (Pred.decodeAt n inside) p.toJson p
  | p, 0, _, hdepth => absurd hdepth (not_depth_le_zero p.toJson_object)
  | .bool b, n + 1, _, _ => Pred.reads_bool b
  | .compare op a b, n + 1, _, hdepth => by
    simp only [Pred.toJson, depth, depthEntries] at hdepth
    exact Pred.reads_compare op (Expr.reads a (by omega)) (Expr.reads b (by omega))
  | .not p, n + 1, _, hdepth => by
    simp only [Pred.toJson, depth, depthEntries] at hdepth
    exact Pred.reads_not (Pred.reads p (by omega))
  | .paren p, n + 1, _, hdepth => by
    simp only [Pred.toJson, depth, depthEntries] at hdepth
    exact Pred.reads_paren (Pred.reads p (by omega))
  | .and p q, n + 1, _, hdepth | .or p q, n + 1, _, hdepth | .implies p q, n + 1, _, hdepth => by
    simp only [Pred.toJson, depth, depthEntries] at hdepth
    exact Pred.reads_connective (Pred.reads p (by omega)) (Pred.reads q (by omega)) _ (by simp)
  | .quantified q x p, n + 1, _, hdepth => by
    simp only [Pred.toJson, depth, depthEntries] at hdepth
    exact Pred.reads_quantified q x (Pred.reads p (by omega))
  | .formula f args, n + 1, _, hdepth => by
    simp only [Pred.toJson, depth, depthEntries] at hdepth
    exact Pred.reads_formula f (Expr.reads_mem args (by omega))

end

/-! ## Statements -/

theorem Target.reads (t : Target) (hdepth : t.toJson.depth ≤ nestingLimit + 1) :
    ReadsBack allow Target.decodeInside t.toJson t := by
  cases t with
  | var x =>
    rw [Target.toJson]
    refine ReadsBack.tagged (by decide) (by decide) (by simp)
      (fun j body htag => by rw [Target.decodeInside, htag]; rfl)
      fun inside' room values hvalues => ?_
    simp (disch := decide) only [fieldsVary_required, fieldsVary_nil, varies_string] at hvalues
    obtain ⟨_, _, rfl, rfl, rfl⟩ := hvalues
    simp [string?]
  | cell a i =>
    simp only [Target.toJson, depth, depthEntries] at hdepth ⊢
    refine ReadsBack.tagged (by decide) (by decide) (by simp)
      (fun j body htag => by rw [Target.decodeInside, htag]; rfl)
      fun inside' room values hvalues => ?_
    simp (disch := decide) only [fieldsVary_required, fieldsVary_nil, varies_string] at hvalues
    obtain ⟨_, _, rfl, rfl, index, _, rfl, hindex, rfl⟩ := hvalues
    have hi : Expr.decodeAt (nestingLimit + 1) true index = some i := i.reads (by omega) hindex
    simp [string?, hi]

theorem Pred.optionToJson_eq (p : Option Pred) :
    Pred.optionToJson p = (p.map Pred.toJson).getD .null := by
  cases p <;> rfl

namespace Stmt

theorem listToJson_eq_map (ss : List Stmt) : listToJson ss = ss.map toJson := by
  induction ss with
  | nil => rw [listToJson, List.map_nil]
  | cons s ss ih => rw [listToJson, List.map_cons, ih]

theorem toJson_branch (p : Pred) (yes : Stmt) (no : Option Stmt) :
    toJson (.branch p yes no) = .object [("type", .string "if"), ("condition", p.toJson),
      ("then", yes.toJson), ("else", (no.map toJson).getD .null)] := by
  cases no <;> rw [toJson] <;> rfl

theorem toJson_tagged : ∀ s : Stmt, ∃ entries, s.toJson = .object entries ∧ isTagged entries = true
  | .assign .. | .block _ | .loop .. => by
    rw [toJson]
    exact ⟨_, rfl, rfl⟩
  | .branch .. => by
    rw [toJson_branch]
    exact ⟨_, rfl, rfl⟩

theorem toJson_object (s : Stmt) : ∃ entries, s.toJson = .object entries :=
  s.toJson_tagged.imp fun _ h => h.1

theorem reads_assign {targets : List Target} {exprs : List Expr}
    (htargets : ∀ t ∈ targets, ReadsBack allow Target.decodeInside t.toJson t)
    (hexprs : ∀ e ∈ exprs, ReadsBack allow (Expr.decodeAt (nestingLimit + 1) true) e.toJson e) :
    ReadsBack allow (decodeAt (n + 1) inside) (toJson (.assign targets exprs))
      (.assign targets exprs) := by
  rw [toJson, Expr.listToJson_eq_map]
  refine ReadsBack.tagged (by decide) (by decide) (by simp)
    (fun j body htag => by rw [decodeAt, htag]; rfl) fun inside' room values hvalues => ?_
  simp (disch := decide) only [fieldsVary_required, fieldsVary_nil] at hvalues
  obtain ⟨ts, _, rfl, hts, es, _, rfl, hes, rfl⟩ := hvalues
  simp [ReadsBack.list htargets hts, ReadsBack.list hexprs hes]

theorem reads_block {ss : List Stmt}
    (hss : ∀ s ∈ ss, ReadsBack allow (decodeAt n true) s.toJson s) :
    ReadsBack allow (decodeAt (n + 1) inside) (toJson (.block ss)) (.block ss) := by
  rw [toJson, listToJson_eq_map]
  refine ReadsBack.tagged (by decide) (by decide) (by simp)
    (fun j body htag => by rw [decodeAt, htag]; rfl) fun inside' room values hvalues => ?_
  simp (disch := decide) only [fieldsVary_required, fieldsVary_nil] at hvalues
  obtain ⟨stmts, _, rfl, hstmts, rfl⟩ := hvalues
  simp [ReadsBack.list hss hstmts]

theorem reads_branch {p : Pred} {yes : Stmt} {no : Option Stmt}
    (hp : ReadsBack allow Pred.decodeInside p.toJson p)
    (hyes : ReadsBack allow (decodeAt n true) yes.toJson yes)
    (hno : ∀ s ∈ no, ReadsBack allow (decodeAt n true) s.toJson s) :
    ReadsBack allow (decodeAt (n + 1) inside) (toJson (.branch p yes no)) (.branch p yes no) := by
  rw [toJson_branch]
  refine ReadsBack.tagged (by decide) (by decide) (by simp)
    (fun j body htag => by rw [decodeAt, htag]; rfl) fun inside' room values hvalues => ?_
  simp (disch := decide) only [fieldsVary_required, fieldsVary_cons, fieldsVary_nil] at hvalues
  obtain ⟨condition, _, rfl, hcondition, jyes, _, rfl, hjyes, jno, _, rfl, hjno, rfl⟩ := hvalues
  have helse : optional? (decodeAt n true) jno = some no :=
    optional?_fieldVaries (fun s _ => s.toJson_object) (fun s hs j hj => hno s hs hj) hjno
  simp [hp hcondition, hyes hjyes, helse]

theorem reads_loop {p : Pred} {body : Stmt} {invariant : Option Pred}
    (hp : ReadsBack allow Pred.decodeInside p.toJson p)
    (hbody : ReadsBack allow (decodeAt n true) body.toJson body)
    (hinvariant : ∀ q ∈ invariant, ReadsBack allow Pred.decodeInside q.toJson q) :
    ReadsBack allow (decodeAt (n + 1) inside) (toJson (.loop p body invariant))
      (.loop p body invariant) := by
  rw [toJson, Pred.optionToJson_eq]
  refine ReadsBack.tagged (by decide) (by decide) (by simp)
    (fun j body htag => by rw [decodeAt, htag]; rfl) fun inside' room values hvalues => ?_
  simp (disch := decide) only [fieldsVary_required, fieldsVary_cons, fieldsVary_nil] at hvalues
  obtain ⟨condition, _, rfl, hcondition, jbody, _, rfl, hjbody, jinv, _, rfl, hjinv, rfl⟩ := hvalues
  have hoptional : optional? Pred.decodeInside jinv = some invariant :=
    optional?_fieldVaries (fun q _ => q.toJson_object) (fun q hq j hj => hinvariant q hq hj) hjinv
  simp [hp hcondition, hbody hjbody, hoptional]

end Stmt

mutual

/-- **Statements are read back** if there are enough levels for the canonical JSON. -/
theorem Stmt.reads : ∀ (s : Stmt) {n : Nat} {inside : Bool}, s.toJson.depth ≤ n →
    n ≤ nestingLimit + 1 → ReadsBack allow (Stmt.decodeAt n inside) s.toJson s
  | s, 0, _, hdepth, _ => absurd hdepth (not_depth_le_zero s.toJson_object)
  | .assign targets exprs, n + 1, _, hdepth, hn => by
    simp only [Stmt.toJson, depth, depthEntries, Nat.max_zero] at hdepth
    have htargets : depthItems (targets.map Target.toJson) ≤ nestingLimit + 1 := by omega
    rw [depthItems_le_iff, List.forall_mem_map] at htargets
    exact Stmt.reads_assign (fun t ht => t.reads (htargets t ht))
      (Expr.reads_mem exprs (by omega))
  | .block ss, n + 1, _, hdepth, hn => by
    simp only [Stmt.toJson, depth, depthEntries] at hdepth
    exact Stmt.reads_block (Stmt.reads_mem ss (by omega) (by omega))
  | .branch p yes none, n + 1, _, hdepth, hn => by
    simp only [Stmt.toJson, depth, depthEntries] at hdepth
    exact Stmt.reads_branch (p.reads (by omega)) (Stmt.reads yes (by omega) (by omega)) (by simp)
  | .branch p yes (some no), n + 1, _, hdepth, hn => by
    simp only [Stmt.toJson, depth, depthEntries] at hdepth
    have hno : ReadsBack allow (Stmt.decodeAt n true) no.toJson no :=
      Stmt.reads no (by omega) (by omega)
    refine Stmt.reads_branch (p.reads (by omega)) (Stmt.reads yes (by omega) (by omega)) ?_
    rintro _ ⟨⟩
    exact hno
  | .loop p body invariant, n + 1, _, hdepth, hn => by
    simp only [Stmt.toJson, depth, depthEntries] at hdepth
    refine Stmt.reads_loop (p.reads (by omega)) (Stmt.reads body (by omega) (by omega)) ?_
    rintro q hq
    refine q.reads ?_
    -- the depth of an invariant counts only where there is one
    rw [Option.mem_def.mp hq, Pred.optionToJson] at hdepth
    omega

theorem Stmt.reads_mem : ∀ (ss : List Stmt) {n : Nat} {inside : Bool},
    depthItems (Stmt.listToJson ss) ≤ n → n ≤ nestingLimit + 1 →
      ∀ s ∈ ss, ReadsBack allow (Stmt.decodeAt n inside) s.toJson s
  | [], _, _, _, _ => by
    intro s hs
    cases hs
  | s :: ss, n, inside, hdepth, hn => by
    simp only [Stmt.listToJson, depthItems] at hdepth
    rw [List.forall_mem_cons]
    exact ⟨Stmt.reads s (by omega) hn, Stmt.reads_mem ss (by omega) hn⟩

end

/-! ## Functions, formulas and programs -/

section

variable {room : Nat}

/-- A predicate outside other tagged objects is taken in as a whole. -/
theorem Pred.decode_varies {p : Pred} (hp : Fits room p.toJson) (hroom : room ≤ nestingLimit)
    {j : Json} (h : Varies Fits false room p.toJson j) : Pred.decode room j = some p := by
  -- inside, levels are counted from the start again
  have hdepth : p.toJson.depth ≤ nestingLimit + 1 := hp.1.trans (by omega)
  rw [Pred.decode, admitted?_of_fits (Varies.fits_tagged p.toJson_tagged hp h)]
  exact p.reads hdepth h

theorem Stmt.decode_varies {s : Stmt} (hs : Fits room s.toJson) (hroom : room ≤ nestingLimit)
    {j : Json} (h : Varies Fits false room s.toJson j) : Stmt.decode room j = some s := by
  have hdepth : s.toJson.depth ≤ nestingLimit + 1 := hs.1.trans (by omega)
  rw [Stmt.decode, admitted?_of_fits (Varies.fits_tagged s.toJson_tagged hs h)]
  exact s.reads hdepth (Nat.le_refl _) h

theorem params_decode_varies {params : List Param}
    (hparams : Fits room (.array (params.map Param.toJson))) {name : String} {value : Option Json}
    (h : FieldVaries Fits false room name (.array (params.map Param.toJson)) value) :
    decodeRecords (Param.decode false) room value = some params := by
  rw [fits_array, List.forall_mem_map] at hparams
  refine decodeRecords_fieldVaries hparams.1 (fun p hp j hj => ?_) h
  obtain ⟨k, hk⟩ := (hparams.2 p hp).exists_succ
  rw [hk]
  exact p.reads k hj

theorem optional_decode_varies {p : Option Pred} (hp : Fits room (Pred.optionToJson p))
    (hroom : room ≤ nestingLimit) {name : String} {value : Option Json}
    (h : FieldVaries Fits false room name (Pred.optionToJson p) value) :
    optional? (Pred.decode room) value = some p := by
  rw [Pred.optionToJson_eq] at h
  refine optional?_fieldVaries (fun q _ => q.toJson_object) (fun q hq j hj => ?_) h
  rw [Option.mem_def.mp hq, Pred.optionToJson] at hp
  exact Pred.decode_varies hp hroom hj

theorem FunctionDef.decode_varies {f : FunctionDef} (hf : Fits room f.toJson)
    (hroom : room ≤ nestingLimit) {j : Json} (h : Varies Fits false room f.toJson j) :
    FunctionDef.decode room j = some f := by
  rw [FunctionDef.toJson] at hf h
  obtain ⟨room, rfl⟩ := hf.exists_succ
  rw [fits_object] at hf
  simp only [Nat.add_sub_cancel, List.forall_mem_cons, List.not_mem_nil, IsEmpty.forall_iff,
    implies_true, and_true] at hf
  obtain ⟨-, -, hparams, hreturns, hlocals, hbody, hpre, hpost⟩ := hf
  obtain ⟨values, hvalues, hfields⟩ := h.record (by simp) (by simp)
  simp (disch := decide) only [fieldsVary_required, fieldsVary_cons, fieldsVary_nil, varies_string,
    Nat.add_sub_cancel] at hvalues
  obtain ⟨_, _, rfl, rfl, params, _, rfl, hparams', returns, _, rfl, hreturns', locals, _, rfl,
    hlocals', body, _, rfl, hbody', pre, _, rfl, hpre', post, _, rfl, hpost', rfl⟩ := hvalues
  simp only [List.map_cons, List.map_nil] at hfields
  rw [FunctionDef.decode, hfields]
  simp [string?, params_decode_varies hparams hparams', params_decode_varies hreturns hreturns',
    params_decode_varies hlocals hlocals', Stmt.decode_varies hbody (by omega) hbody',
    optional_decode_varies hpre (by omega) hpre', optional_decode_varies hpost (by omega) hpost']

theorem FormulaDef.decode_varies {f : FormulaDef} (hf : Fits room f.toJson)
    (hroom : room ≤ nestingLimit) {j : Json} (h : Varies Fits false room f.toJson j) :
    FormulaDef.decode room j = some f := by
  rw [FormulaDef.toJson] at hf h
  obtain ⟨room, rfl⟩ := hf.exists_succ
  rw [fits_object] at hf
  simp only [Nat.add_sub_cancel, List.forall_mem_cons, List.not_mem_nil, IsEmpty.forall_iff,
    implies_true, and_true] at hf
  obtain ⟨-, -, hparams, hbody⟩ := hf
  obtain ⟨values, hvalues, hfields⟩ := h.record (by simp) (by simp)
  simp (disch := decide) only [fieldsVary_required, fieldsVary_cons, fieldsVary_nil, varies_string,
    Nat.add_sub_cancel] at hvalues
  obtain ⟨_, _, rfl, rfl, params, _, rfl, hparams', body, _, rfl, hbody', rfl⟩ := hvalues
  simp only [List.map_cons, List.map_nil] at hfields
  rw [FormulaDef.decode, hfields]
  simp [string?, params_decode_varies hparams hparams', Pred.decode_varies hbody (by omega) hbody']

/-- **Programs are read back** from every variant of their canonical JSON. -/
theorem Program.decode_varies {p : Program} (hp : Fits room p.toJson)
    (hroom : room ≤ nestingLimit) {j : Json} (h : Varies Fits false room p.toJson j) :
    Program.decode room j = some p := by
  rw [Program.toJson] at hp h
  obtain ⟨room, rfl⟩ := hp.exists_succ
  rw [fits_object] at hp
  simp only [Nat.add_sub_cancel, List.forall_mem_cons, List.not_mem_nil, IsEmpty.forall_iff,
    implies_true, and_true, fits_array, List.forall_mem_map] at hp
  obtain ⟨-, ⟨hpos, hfunctions⟩, -, hformulas⟩ := hp
  obtain ⟨values, hvalues, hfields⟩ := h.record (by simp) (by simp)
  simp only [fieldsVary_cons, fieldsVary_nil, Nat.add_sub_cancel] at hvalues
  obtain ⟨functions, _, rfl, hfunctions', formulas, _, rfl, hformulas', rfl⟩ := hvalues
  simp only [List.map_cons, List.map_nil] at hfields
  have hread : decodeRecords FunctionDef.decode room functions = some p.functions :=
    decodeRecords_fieldVaries hpos (fun f hf _ hj =>
      FunctionDef.decode_varies (hfunctions f hf) (by omega) hj) hfunctions'
  have hread' : decodeRecords FormulaDef.decode room formulas = some p.formulas :=
    decodeRecords_fieldVaries hpos (fun f hf _ hj =>
      FormulaDef.decode_varies (hformulas f hf) (by omega) hj) hformulas'
  rw [Program.decode, hfields]
  simp [hread, hread']

end

/-- **Programs are read back from JSON.** Take a program whose canonical JSON keeps within the
nesting limit. The text of this JSON is read as the program. So is every text of a variant: with the
fields of objects in any order and among unknown ones, with fields left out that have their
defaults, and with short spellings of comparisons, in any place. Unknown fields may have any values,
except that inside expressions, predicates, targets and statements these have to be representable
and within the nesting limit. A text of a variant is one that the reader of JSON takes for it; all
layouts of the variant are such texts, if its integers have at most 64 bits. -/
theorem program_read_back (p : Program) (hdepth : p.toJson.depth ≤ nestingLimit) :
    Program.parse? p.toJson.compact = some p ∧
    ∀ j : Json, Varies Fits false nestingLimit p.toJson j →
      (∀ text, Json.read text = some j → Program.parse? text = some p) ∧
      (j.isShort = true → ∀ l : Layout j, Program.parse? l.text = some p) := by
  obtain ⟨hreadable, hshort⟩ := p.isPlain_toJson
  have hread : ∀ j, Varies Fits false nestingLimit p.toJson j →
      ∀ text, Json.read text = some j → Program.parse? text = some p := by
    intro j hj text htext
    rw [Program.parse?, htext]
    exact Program.decode_varies ⟨hdepth, hreadable⟩ (Nat.le_refl _) hj
  refine ⟨?_, fun j hj => ⟨hread j hj, fun hj' l => hread j hj l.text (read_layout hj' l)⟩⟩
  rw [← Layout.text_tight]
  exact hread p.toJson (Varies.refl ..) _ (read_layout hshort _)

/-- A function that does nothing, on numbers below the given one. -/
def idle (bound : Int64) : Program where
  functions := [{
    name := "idle"
    params := [⟨"x", .int⟩]
    returns := []
    locals := []
    body := .block []
    pre := some (.compare .lt (.var "x") (.const bound))
    post := none }]
  formulas := []

/-- A variant of its precondition: the fields stand in reverse order, each object has a note, and
the comparison is short. -/
def idlePre (bound : Int64) : Json :=
  .object [("note", .array [.int 1]),
    ("right", .object [("note", .null), ("value", .int bound.toInt), ("type", .string "const")]),
    ("left", .object [("note", .null), ("name", .string "x"), ("type", .string "var")]),
    ("kind", .string "lt")]

/-- A variant of its function without what has its default. The note cannot be represented, and
nobody reads it. -/
def idleFunction (bound : Int64) : Json :=
  .object [("note", .unreadable), ("precondition", idlePre bound),
    ("body", .object [("note", .object []), ("stmts", .array []), ("type", .string "block")]),
    ("parameters", .array [.object [("name", .string "x")]]), ("name", .string "idle")]

def idleVariant (bound : Int64) : Json :=
  .object [("note", .unreadable), ("functions", .array [idleFunction bound])]

theorem idlePre_varies (bound : Int64) : Varies Fits false 124
    (Pred.compare .lt (.var "x") (.const bound)).toJson (idlePre bound) := by
  have hleft : Varies Fits true 123 (Expr.var "x").toJson
      (.object [("note", .null), ("name", .string "x"), ("type", .string "var")]) := by
    rw [Expr.toJson]
    exact .of_reverse [some (.string "var"), some (.string "x")] [("note", .null)] (.same _ _) rfl
      (by simp [FieldsVary]) (by simp [Fits, depth, isReadable])
  have hright : Varies Fits true 123 (Expr.const bound).toJson
      (.object [("note", .null), ("value", .int bound.toInt), ("type", .string "const")]) := by
    rw [Expr.toJson]
    exact .of_reverse [some (.string "const"), some (.int bound.toInt)] [("note", .null)]
      (.same _ _) rfl (by simp [FieldsVary]) (by simp [Fits, depth, isReadable])
  rw [Pred.toJson]
  refine .of_reverse _ [("note", .array [.int 1])] (.short .lt (some _) (some _)) rfl ?_ ?_
  · simp [FieldsVary, isTagged, hleft, hright]
  · simp [Fits, depth, depthItems, isReadable, readableItems]

theorem idleFunctions_vary (bound : Int64) :
    Varies Fits false 126 (.array ((idle bound).functions.map FunctionDef.toJson))
      (.array [idleFunction bound]) := by
  have hparam : Varies Fits false 123 (Param.toJson ⟨"x", .int⟩)
      (.object [("name", .string "x")]) :=
    .of_reverse [some (.string "x"), none] [] (.same _ _) rfl
      (by simp [FieldsVary, defaults, VarType.text]) (by simp)
  have hbody : Varies Fits false 124 (Stmt.block []).toJson
      (.object [("note", .object []), ("stmts", .array []), ("type", .string "block")]) := by
    rw [Stmt.toJson]
    exact .of_reverse [some (.string "block"), some (.array [])] [("note", .object [])] (.same _ _)
      rfl (by simp [FieldsVary, Varies, ItemsVary, Stmt.listToJson])
      (by simp [Fits, depth, depthEntries, isReadable, readableEntries])
  have hparams : Varies Fits false 124 (.array [Param.toJson ⟨"x", .int⟩])
      (.array [.object [("name", .string "x")]]) := by
    rw [Varies]
    exact ⟨_, rfl, by simp [ItemsVary, hparam]⟩
  simp only [idle, List.map_cons, List.map_nil, Varies, ItemsVary]
  refine ⟨_, rfl, _, _, rfl, ?_, rfl⟩
  refine .of_reverse [some (.string "idle"), some _, none, none, some _, some (idlePre bound), none]
    [("note", .unreadable)] (.same _ _) rfl ?_ ?_
  · simp [FieldsVary, isTagged, hparams, hbody, idlePre_varies, Pred.optionToJson, defaults]
  · simp [isTagged]

theorem idleVariant_varies (bound : Int64) :
    Varies Fits false nestingLimit (idle bound).toJson (idleVariant bound) := by
  refine .of_reverse [some (.array [idleFunction bound]), none] [("note", .unreadable)]
    (.same _ _) rfl ?_ ?_
  · simp only [FieldsVary]
    exact ⟨_, _, rfl, idleFunctions_vary bound, _, _, rfl, by simp [idle, defaults], rfl⟩
  · simp [isTagged]

theorem program_read_back_idle :
    (idle (-3)).toJson.depth ≤ nestingLimit ∧
    Program.parse? (idle (-3)).toJson.compact = some (idle (-3)) ∧
    Program.parse? (idleVariant (-3)).compact = some (idle (-3)) := by
  have hdepth : (idle (-3)).toJson.depth ≤ nestingLimit := by decide
  obtain ⟨hcanonical, hvariants⟩ := program_read_back (idle (-3)) hdepth
  have hvariant := (hvariants (idleVariant (-3)) (idleVariant_varies (-3))).2 (by decide) (.tight _)
  rw [Layout.text_tight] at hvariant
  exact ⟨hdepth, hcanonical, hvariant⟩

/-- A function without parameters, contract and effect. -/
def skip : Program where
  functions := [{
    name := "skip"
    params := []
    returns := []
    locals := []
    body := .block []
    pre := none
    post := none }]
  formulas := []

/-- The same with a note in its body that cannot be represented. -/
def skipNoted : Json :=
  .object [("functions", .array [.object [
    ("body", .object [("note", .unreadable), ("stmts", .array []), ("type", .string "block")]),
    ("name", .string "skip")]])]

theorem skipNoted_varies :
    Varies (fun _ _ => True) false nestingLimit skip.toJson skipNoted := by
  have hbody : ∀ room, Varies (fun _ _ => True) false room (Stmt.block []).toJson
      (.object [("note", .unreadable), ("stmts", .array []), ("type", .string "block")]) := by
    intro room
    rw [Stmt.toJson]
    exact .of_reverse [some (.string "block"), some (.array [])] [("note", .unreadable)] (.same _ _)
      rfl (by simp [FieldsVary, Varies, ItemsVary, Stmt.listToJson]) (by simp)
  refine .of_reverse [some _, none] [] (.same _ _) rfl ?_ (by simp)
  simp only [FieldsVary, skip, List.map_cons, List.map_nil, Varies, ItemsVary]
  refine ⟨_, _, rfl, ⟨_, rfl, _, _, rfl, ?_, rfl⟩, _, _, rfl, by simp [defaults], rfl⟩
  refine .of_reverse [some (.string "skip"), none, none, none, some _, none, none] [] (.same _ _)
    rfl ?_ (by simp)
  simp [FieldsVary, isTagged, hbody, Pred.optionToJson, defaults]

/-- The text of it. -/
def skipText : String :=
  "\x7b\"functions\":[\x7b\"body\":\x7b\"note\":\"\\ud800\",\"stmts\":[],\"type\":\"block\"\x7d,"
    ++ "\"name\":\"skip\"\x7d]\x7d"

/-- Not every unknown field can be added: inside a statement it is taken in before the statement is
read, and what cannot be represented, such as half of a surrogate pair, is refused. -/
theorem unreadable_field_refused :
    skip.toJson.depth ≤ nestingLimit ∧
    Varies (fun _ _ => True) false nestingLimit skip.toJson skipNoted ∧
    Json.read skipText = some skipNoted ∧ Program.parse? skipText = none := by
  have hread : Json.read skipText = some skipNoted := by
    have htext : skipText = (Layout.tight skipNoted).text := by
      rw [Layout.text_tight]
      decide
    rw [htext]
    exact read_layout (by decide) _
  refine ⟨by decide, skipNoted_varies, hread, ?_⟩
  rw [Program.parse?, hread]
  rfl

end Contracts
