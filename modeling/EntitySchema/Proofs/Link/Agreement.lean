import EntitySchema.Proofs.Field.NormalForm
import EntitySchema.Proofs.Link.Junction

/-!
# Columns of one junction

Entities that are related many to many make their junctions each for itself, and so one junction may be made more than once. The
columns that are declared are in normal form, which leaves little room: there are six attributes that a column can have, each has
its kind of value, and they stand in one order. Two columns that are the same as values are therefore the same as they are
written.

* `columnAttributes`, `Orderly`: the attributes of a column.
* `Column`: a column by what its attributes are given as.

Results:
* `eq_of_same`: orderly columns that are the same value.
* `orderly_of_declaration`: the columns of a junction are orderly.
-/
namespace EntitySchema

/-! ## Values that are the same -/

namespace Value

@[simp] theorem same_str {s t : String} : (str s).same (str t) = true ↔ s = t := by
  show (Key.text s == Key.text t) = true ↔ s = t
  rw [Key.beq_text, Key.text.injEq]

@[simp] theorem same_int {n k : Int} : (int n).same (int k) = true ↔ n = k := by
  show (Key.int n == Key.int k) = true ↔ n = k
  rw [Key.beq_iff]
  exact Key.int.injEq n k ▸ Iff.rfl

@[simp] theorem same_bool {a b : Bool} : (bool a).same (bool b) = true ↔ a = b := by
  cases a <;> cases b <;> decide

/-- Of two objects that are the same, every member of the first one has its like in the second. -/
theorem exists_of_same {m m' : Members Key Value} (h : (object m).same (object m') = true) {key : Key} {v : Value}
    (hv : Members.get? m key = some v) : ∃ w, Members.get? m' key = some w ∧ v.same w = true := by
  rw [same, Bool.and_eq_true] at h
  obtain ⟨-, h⟩ := h
  induction m with
  | nil => cases hv
  | cons entry rest ih =>
    obtain ⟨k, u⟩ := entry
    rw [sameIn, Bool.and_eq_true, Option.any_eq_true] at h
    obtain ⟨⟨w, hw, hsame⟩, hrest⟩ := h
    rw [Members.get?_cons] at hv
    split at hv
    · rename_i hk
      cases hv
      exact ⟨w, Members.get?_congr hk ▸ hw, hsame⟩
    · exact ih hv hrest

end Value

namespace Junction

/-! ## The attributes of a column -/

/-- The attributes that a column can have, in their order, with the kinds of their values. -/
def columnAttributes : List (Key × Record.Shape) :=
  [("type", .text), ("autoincrement", .flag), ("dbType", .text), ("len", .whole), ("notNull", .flag), ("default", .flag)]

/-- Some of these attributes in their order, each with a value of its kind. -/
structure Orderly (m : Members Key Value) : Prop where
  ordered : m = columnAttributes.filterMap fun a => (Members.get? m a.1).map fun v => (a.1, v)
  fits : ∀ a ∈ columnAttributes, ∀ v, Members.get? m a.1 = some v → a.2.Fits v

/-- Two values of the kind of an attribute that are the same are equal. -/
theorem eq_of_fits {a : Key × Record.Shape} (ha : a ∈ columnAttributes) {v w : Value} (hv : a.2.Fits v) (hw : a.2.Fits w)
    (h : v.same w = true) : v = w := by
  have hkind : a.2 = .text ∨ a.2 = .flag ∨ a.2 = .whole := by
    simp only [columnAttributes, List.mem_cons, List.not_mem_nil, or_false] at ha
    rcases ha with rfl | rfl | rfl | rfl | rfl | rfl <;> simp
  rcases hkind with hkind | hkind | hkind
  · rw [hkind, Record.Shape.Fits] at hv hw
    obtain ⟨s, rfl⟩ := hv
    obtain ⟨t, rfl⟩ := hw
    rw [Value.same_str.1 h]
  · rw [hkind, Record.Shape.Fits] at hv hw
    obtain ⟨a, rfl⟩ := hv
    obtain ⟨b, rfl⟩ := hw
    rw [Value.same_bool.1 h]
  · rw [hkind, Record.Shape.Fits] at hv hw
    obtain ⟨n, rfl⟩ := hv
    obtain ⟨k, rfl⟩ := hw
    rw [Value.same_int.1 h]

/-- Orderly attributes that are the same, seen from either side, are written in the same way. -/
theorem eq_of_same {m m' : Members Key Value} (hm : Orderly m) (hm' : Orderly m')
    (h : (Value.object m).same (.object m') = true) (h' : (Value.object m').same (.object m) = true) : m = m' := by
  refine hm.ordered.trans (Eq.trans (List.filterMap_congr fun a ha => ?_) hm'.ordered.symm)
  cases hv : Members.get? m a.1 with
  | some v =>
    obtain ⟨w, hw, hsame⟩ := Value.exists_of_same h hv
    rw [hw, eq_of_fits ha (hm.fits a ha v hv) (hm'.fits a ha w hw) hsame]
  | none =>
    cases hw : Members.get? m' a.1 with
    | none => rfl
    | some w =>
      obtain ⟨v, hv', -⟩ := Value.exists_of_same h' hw
      rw [hv] at hv'
      cases hv'

/-! ## Normal forms -/

/-- A column: its type and what else it may have. -/
structure Column where
  type : String
  autoincrement : Option Bool := none
  dbType : Option String := none
  len : Option Int := none
  notNull : Option Bool := none
  default : Option Bool := none

/-- The attributes of a column. -/
def Column.attributes (col : Column) : Members Key Value :=
  ("type", .str col.type) :: ((col.autoincrement.map fun b => (Key.text "autoincrement", Value.bool b)).toList ++
    (col.dbType.map fun s => (Key.text "dbType", Value.str s)).toList ++
    (col.len.map fun n => (Key.text "len", Value.int n)).toList ++
    (col.notNull.map fun b => (Key.text "notNull", Value.bool b)).toList ++
    (col.default.map fun b => (Key.text "default", Value.bool b)).toList)

theorem Column.orderly (col : Column) : Orderly col.attributes := by
  obtain ⟨type, autoincrement, dbType, len, notNull, default⟩ := col
  unfold attributes
  constructor
  · cases autoincrement <;> cases dbType <;> cases len <;> cases notNull <;> cases default <;> rfl
  · cases autoincrement <;> cases dbType <;> cases len <;> cases notNull <;> cases default <;>
      simp [columnAttributes, Members.get?_cons, Record.Shape.Fits]

section
variable {c : Config}

/-- The identifier of a column that has a type and nothing else. -/
theorem identifier_bare (c : Config) (word : String) :
    Field.identifier c [("type", .str word)] = ({ type := word, dbType := c.idDbType, len := c.idLength } : Column).attributes := by
  have hinteger : (c.integerDbTypes.any fun t => (Members.value [(Key.text "type", Value.str word)] "dbType").isText t) = false := by
    simp [Members.value, Members.get?_cons, Value.isText]
  rw [Field.identifier, hinteger]
  rfl

/-- The normal form of a column that is declared with nothing but a type. -/
theorem exists_column_of_bare {type : Value} {normal : Members Key Value}
    (h : Field.normalizeTyped c type [("type", type)] = .ok normal) : ∃ col : Column, normal = col.attributes := by
  obtain ⟨word, hword, rfl⟩ := map_eq_ok.1 h
  rcases Field.word?_eq_ok hword with ⟨s, rfl, rfl⟩ | rfl
  · rw [Option.bind_some]
    cases FieldKind.ofText? s with
    | none =>
      simp only [Option.any_some]
      split
      · exact ⟨{ type := s }, rfl⟩
      · exact ⟨{ type := c.defaultFieldType }, rfl⟩
    | some kind =>
      cases kind with
      | id => exact ⟨_, identifier_bare c s⟩
      | foreignId =>
        refine ⟨{ type := s, dbType := c.idDbType, len := c.idLength, notNull := false }, ?_⟩
        simp only [identifier_bare]
        rfl
      | foreignType =>
        exact ⟨{ type := s, dbType := FieldKind.varchar.word, len := Field.discriminatorLength c }, rfl⟩
      | bool => exact ⟨{ type := s, default := c.boolDefault }, rfl⟩
      | _ => exact ⟨{ type := s }, rfl⟩
  · exact ⟨{ type := c.defaultFieldType }, rfl⟩

/-- The normal form of the identifier of a junction. -/
theorem exists_column_of_identifier (dbType : String) :
    ∃ col : Column, Field.identifier c
      [("type", .str FieldKind.id.word), ("autoincrement", .bool true), ("dbType", .str dbType)] = col.attributes := by
  rw [Field.identifier]
  split
  · exact ⟨{ type := FieldKind.id.word, autoincrement := true, dbType }, rfl⟩
  · exact ⟨{ type := FieldKind.id.word, autoincrement := true, dbType := c.idDbType, len := c.idLength }, rfl⟩

/-- The columns of a junction are orderly. -/
theorem orderly_of_declaration {v w : Value} (h : declaration c v) (hw : Field.normalForm? c v = some w) :
    ∃ attributes, w = .object attributes ∧ Orderly attributes := by
  obtain ⟨normal, hnormal, rfl⟩ := Field.normalForm?_eq_some.1 hw
  refine ⟨normal, rfl, ?_⟩
  rcases Field.normalize_eq_ok hnormal with ⟨-, hform⟩ | ⟨-, p, hform, hp⟩
  · have hmark : (v.members.value "notStorable").truthy = false := by
      rcases h with rfl | rfl | ⟨type, rfl⟩ <;> rfl
    rw [hmark] at hform
    cases hform
  · cases hform
    obtain ⟨col, rfl⟩ : ∃ col : Column, normal = col.attributes := by
      rcases h with rfl | rfl | ⟨type, rfl⟩
      · obtain ⟨col, hcol⟩ := exists_column_of_identifier (c := c) c.junctionIdDbType
        exact ⟨col, (Except.ok.inj hp).symm.trans hcol⟩
      · exact ⟨{ type := FieldKind.bool.word, default := false }, (Except.ok.inj hp).symm⟩
      · exact exists_column_of_bare hp
    exact col.orderly

end

end Junction

end EntitySchema
