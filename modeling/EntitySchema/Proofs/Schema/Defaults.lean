import EntitySchema.Proofs.Schema.Entities

/-!
# Computed defaults

A default that is computed when a row is made has no place in a schema. Declared defaults, those of types, of parts and of
the fields that every entity has are read before a field is resolved, and computed ones are left out. The default that a field
gives to itself among its default attributes is not read: it joins the schema as it is.

Results:
* `fieldLaw_declaredDefaults`: a computed default of a field is one that the field gives to itself.
* `noComputedDefaults_iff`: no computed default is in a schema exactly if none that a field gives to itself gets there.
* `exists_computed_default`: one that gets there.
-/
namespace EntitySchema.Schema

/-- The default of a field of a schema. -/
def default? (s : Schema) (entity field : Key) : Option Value :=
  (Members.get? (s.fields entity) field).bind fun v => Members.get? v.members "default"

/-- No default in a schema is a text that begins like a computed one. -/
def NoComputedDefaults (start : String) (s : Schema) : Prop :=
  ∀ entity field text, s.default? entity field = some (.str text) → FieldDefault.startsWith text start = false

/-- Some definition of an entity gives a field this text among the field's own default attributes. -/
def GivesItself (s : Snapshot) (entity field : Key) (text : String) : Prop :=
  ∃ entry ∈ s.entities, (entry.1 == entity) = true ∧ ∃ d, load entry.1 entry.2 = .ok d ∧
    ∃ name, field = .text name ∧ d.ownDefault? name = some (.str text)

/-- A default that begins like a computed one is one that the field gives to itself. -/
def DeclaredDefault (c : Config) (s : Snapshot) (entity field : Key) (attributes : Members Key Value) : Prop :=
  ∀ text, Members.get? attributes "default" = some (.str text) →
    FieldDefault.startsWith text c.computedDefaultStart = true → GivesItself s entity field text

theorem fieldLaw_declaredDefaults (c : Config) (s : Snapshot) (entity : Key) :
    Field.FieldLaw c (DeclaredDefault c s entity) where
  congr := by
    intro f g m hfg h text htext hstart
    obtain ⟨entry, hentry, hkey, d, hd, name, rfl, hown⟩ := h text htext hstart
    exact ⟨entry, hentry, hkey, d, hd, name, Key.text_beq.1 hfg, hown⟩
  plain := fun f _ h text htext => absurd htext (h.default text)
  resolved := by
    intro f params m h text htext hstart
    rw [Field.startsWith_of_compiled_default h htext] at hstart
    cases hstart
  merge := by
    intro f m m' hd h h' text htext
    rcases Members.get?_merge_str hd htext with hupper | ⟨-, hlower⟩
    · exact h' text hupper
    · exact h text hlower
  unset := by
    intro f m path h text htext
    rcases Members.get?_unset htext with hsame | ⟨below, rest, -, hbelow⟩
    · exact h text hsame
    · cases hbelow
  normal := by
    intro f m m' hnormal h text htext
    rcases Field.get?_normalize_default hnormal with hsame | ⟨b, hb⟩
    · rw [hsame] at htext
      exact h text htext
    · rw [hb] at htext
      cases htext

theorem declaredDefault_congr {c : Config} {s : Snapshot} {entity entity' field : Key} {attributes : Members Key Value}
    (h : (entity == entity') = true) (hdefault : DeclaredDefault c s entity field attributes) :
    DeclaredDefault c s entity' field attributes := by
  intro text htext hstart
  obtain ⟨entry, hentry, hkey, hd⟩ := hdefault text htext hstart
  exact ⟨entry, hentry, BEq.trans hkey h, hd⟩

theorem default?_congr {s : Schema} {entity entity' : Key} (h : (entity == entity') = true) (field : Key) :
    s.default? entity field = s.default? entity' field := by
  unfold default? fields fieldsIn
  rw [entityIn_congr h]

section
variable {c : Compiler} {s : Snapshot} {schema : Schema} {tree : Members Key Value} {parts : List (Members Key Value)}

/-- A text default of the schema is one of the tree. -/
theorem default_of_default? (h : Assembled c s schema tree parts) {entity field : Key} {text : String}
    (hdefault : schema.default? entity field = some (.str text)) :
    ∃ m, Members.get? (fieldsIn (parts.foldl Members.overlay tree) entity) field = some (.object m) ∧
      Members.get? m "default" = some (.str text) := by
  have hfields := checkMembers_fields h.accepted (withFields_withJunctions h.withFields h.ofFragments) entity
  have hrel := Record.get?_checkMembers hfields field
  obtain ⟨w, hw, hdefault⟩ := Option.bind_eq_some_iff.1 hdefault
  rw [hw] at hrel
  generalize Members.get? (fieldsIn (parts.foldl Members.overlay tree) entity) field = found at hrel ⊢
  cases hrel with
  | some hcheck =>
    obtain ⟨m, _, rfl, -⟩ := Record.record_eq_ok Record.isRecord_compiledField hcheck
    refine ⟨m, rfl, ?_⟩
    have hiff := Record.get?_record_eq_str Record.isRecord_compiledField hcheck (a := ⟨"default", "default", false⟩)
      (by simp [Record.compiledField, Record.Shape.attributes, Record.plain, Record.maybe]) Record.takesText_anything text
    rw [Record.Attribute.given?_of_name_eq_key rfl] at hiff
    exact hiff.1 hdefault

/-- No computed default is in a schema exactly if none that a field gives to itself gets there. -/
theorem noComputedDefaults_iff (hc : c.registry = {}) (h : (compile c s).result = .ok schema) :
    schema.NoComputedDefaults c.config.computedDefaultStart ↔
      ∀ entry ∈ s.entities, ∀ d, load entry.1 entry.2 = .ok d → ∀ field text, d.ownDefault? field = some (.str text) →
        FieldDefault.startsWith text c.config.computedDefaultStart = true →
          schema.default? entry.1 (.text field) ≠ some (.str text) := by
  obtain ⟨tree, parts, hassembled⟩ := exists_assembled h
  constructor
  · intro hnone entry _ d _ field text _ hstart hdefault
    rw [hnone entry.1 (.text field) text hdefault] at hstart
    cases hstart
  · intro hown entity field text hdefault
    rw [← Bool.not_eq_true]
    intro hstart
    obtain ⟨m, hm, htext⟩ := default_of_default? hassembled hdefault
    have hfields := hassembled.fieldsWith (P := DeclaredDefault c.config s) hc (fieldLaw_declaredDefaults c.config s)
      declaredDefault_congr (fun entry hentry d hd name v hv text htext _ => by
        rw [Members.get?_cons, if_pos BEq.rfl] at htext
        cases htext
        exact ⟨entry, hentry, BEq.rfl, d, hd, name, rfl, hv⟩) entity
    obtain ⟨_, hobject, -, hP⟩ := hfields.each field _ hm
    cases hobject
    obtain ⟨entry, hentry, hkey, d, hd, name, rfl, hgiven⟩ := hP text htext hstart
    exact hown entry hentry d hd name text hgiven hstart (by rw [default?_congr hkey]; exact hdefault)

end

/-! ## A computed default that gets through -/

/-- An entity with a field that gives itself a computed default. -/
def selfComputed : Snapshot :=
  .ofWritten [("Account", .object [("fields", .object [("code", .object [
    ("type", .str FieldKind.varchar.word),
    ("defaultAttributes", .object [("code", .str "javascript:next()")])])])])] {}

theorem noComputedDefaults_iff_selfComputed :
    ({} : Compiler).registry = {} ∧ ∃ schema, (compile {} selfComputed).result = .ok schema ∧
      (schema.NoComputedDefaults ({} : Compiler).config.computedDefaultStart ↔
        ∀ entry ∈ selfComputed.entities, ∀ d, load entry.1 entry.2 = .ok d → ∀ field text,
          d.ownDefault? field = some (.str text) →
            FieldDefault.startsWith text ({} : Compiler).config.computedDefaultStart = true →
              schema.default? entry.1 (.text field) ≠ some (.str text)) := by
  have hgives : gives (compile {} selfComputed).result (fun _ => true) = true := by decide +kernel
  obtain ⟨schema, hschema, -⟩ := gives_iff.1 hgives
  exact ⟨rfl, schema, hschema, noComputedDefaults_iff (c := {}) rfl hschema⟩

/-- The computed default stands in the schema. -/
theorem exists_computed_default :
    ∃ schema, (compile {} selfComputed).result = .ok schema ∧
      ¬ schema.NoComputedDefaults ({} : Compiler).config.computedDefaultStart := by
  have hgives : gives (compile {} selfComputed).result (fun schema =>
      ((schema.default? "Account" "code").getD .null).isText "javascript:next()") = true := by
    decide +kernel
  obtain ⟨schema, hschema, hdefault⟩ := gives_iff.1 hgives
  refine ⟨schema, hschema, fun hnone => ?_⟩
  have htext : schema.default? "Account" "code" = some (.str "javascript:next()") := by
    cases hfound : schema.default? "Account" "code" with
    | none => rw [hfound] at hdefault; cases hdefault
    | some v => rw [hfound] at hdefault; exact congrArg some (Value.isText_iff.1 hdefault)
  have hnot := hnone _ _ _ htext
  revert hnot
  decide +kernel

end EntitySchema.Schema
