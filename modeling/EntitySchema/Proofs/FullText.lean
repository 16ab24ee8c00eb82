import EntitySchema.Proofs.Entity.Compile
import Mathlib.Data.List.Nodup
import Mathlib.Data.List.Pairwise

/-!
# Searched columns that are listed twice

Every listed field that is searched gives its own columns, whatever the other fields give. If no field and no part is listed
twice, a column still is if two of these names meet: a part is named like a field, parts of two fields are named alike, or two
parts of a field go last and have the same capital form. There is no other way.

* `searchedType?`: the type in which a field is searched.
* `IsSearched`, `HasSearchedPart`: listed fields that are searched themselves, and those that are searched in a part.
* `Clash`: two names that meet.

Results:
* `mem_columnsOf`: the columns of a field.
* `nodup_columnsOf_iff`: when the columns of one field differ.
* `nodup_columns_iff`: when no column is listed twice.
* `exists_repeated_column`: a part that is named like a field.
-/
namespace EntitySchema

namespace FullText

variable {c : Config} {m : Metadata} {d : Definition} {t : FieldType} {field part column : String}

/-- The type in which a field is searched: it is declared with one that can be searched, and it is stored. -/
def searchedType? (m : Metadata) (d : Definition) (field : String) : Option FieldType :=
  ((d.field field).value "type").text?.bind fun type =>
    if type ≠ "" && !((d.field field).value "notStorable").truthy && (m.fieldType type).isSearchable then some (m.fieldType type)
    else none

/-- Where a type puts its parts. -/
def placeOf (c : Config) (t : FieldType) : Naming.PartPlace :=
  .ofText (t.naming?.getD c.defaultNaming)

theorem fieldColumns_eq : fieldColumns c m d field = ((searchedType? m d field).map (columnsOf c field)).getD [] := by
  simp only [fieldColumns, searchedType?]
  cases ((d.field field).value "type").text? with
  | none => rfl
  | some type =>
    simp only [Option.bind_some]
    split <;> rfl

theorem mem_fieldColumns : column ∈ fieldColumns c m d field ↔
    ∃ t, searchedType? m d field = some t ∧ column ∈ columnsOf c field t := by
  rw [fieldColumns_eq]
  cases searchedType? m d field <;> simp

/-- A field that is searched is a column itself, or each of its parts is one. -/
theorem mem_columnsOf : column ∈ columnsOf c field t ↔
    t.searchedParts = [] ∧ column = field ∨ ∃ part ∈ t.searchedParts, Naming.composed field part (placeOf c t) = column := by
  unfold columnsOf
  cases hparts : t.searchedParts with
  | nil => simp
  | cons first more =>
    rw [List.isEmpty_cons, if_neg Bool.false_ne_true, List.mem_map]
    exact ⟨.inr, fun h => h.resolve_left fun hnone => List.cons_ne_nil _ _ hnone.1⟩

/-! ## Columns of one field -/

/-- Parts of one field are named alike only if they go last and have the same capital form. -/
theorem composed_eq_iff {other : String} {place : Naming.PartPlace} :
    Naming.composed field part place = Naming.composed field other place ↔
      part = other ∨ place = .last ∧ Text.capitalize part = Text.capitalize other := by
  cases place with
  | first =>
    rw [Naming.composed, Naming.composed, String.append_left_inj]
    simp
  | last =>
    rw [Naming.composed, Naming.composed, String.append_right_inj]
    exact ⟨fun h => .inr ⟨rfl, h⟩, fun h => h.elim (congrArg _) And.right⟩

/-- The columns of a field differ, unless its parts go last and two of them have the same capital form. -/
theorem nodup_columnsOf_iff (hparts : t.searchedParts.Nodup) : (columnsOf c field t).Nodup ↔
    ∀ part ∈ t.searchedParts, ∀ other ∈ t.searchedParts, placeOf c t = .last → Text.capitalize part = Text.capitalize other →
      part = other := by
  unfold columnsOf
  cases hnone : t.searchedParts.isEmpty with
  | true =>
    rw [List.isEmpty_iff.1 hnone]
    simp
  | false =>
    rw [if_neg Bool.false_ne_true, List.nodup_map_iff_inj_on hparts]
    refine forall₂_congr fun part _ => forall₂_congr fun other _ => ?_
    show Naming.composed field part (placeOf c t) = Naming.composed field other (placeOf c t) → _ ↔ _
    rw [composed_eq_iff]
    constructor
    · exact fun h hlast hcapital => h (.inr ⟨hlast, hcapital⟩)
    · exact fun h hsame => hsame.elim id fun hlast => h hlast.1 hlast.2

/-! ## Columns of all fields -/

/-- A listed field that is searched itself. -/
structure IsSearched (m : Metadata) (d : Definition) (field : String) : Prop where
  listed : field ∈ filteredFields d
  type : ∃ t, searchedType? m d field = some t ∧ t.searchedParts = []

/-- A listed field that is searched in a part, which goes to a place. -/
structure HasSearchedPart (c : Config) (m : Metadata) (d : Definition) (field part : String) (place : Naming.PartPlace) :
    Prop where
  listed : field ∈ filteredFields d
  type : ∃ t, searchedType? m d field = some t ∧ part ∈ t.searchedParts ∧ placeOf c t = place

/-- Two names that meet among the searched columns. -/
inductive Clash (c : Config) (m : Metadata) (d : Definition) : Prop
  /-- Two parts of a field go last and have the same capital form. -/
  | ofParts {field part other : String} : HasSearchedPart c m d field part .last → HasSearchedPart c m d field other .last →
      part ≠ other → Text.capitalize part = Text.capitalize other → Clash c m d
  /-- A part of a field is named like another field. -/
  | ofPartAndField {field part other : String} {place : Naming.PartPlace} : HasSearchedPart c m d field part place →
      IsSearched m d other → Naming.composed field part place = other → Clash c m d
  /-- Parts of two fields are named alike. -/
  | ofFields {field part field' part' : String} {place place' : Naming.PartPlace} : HasSearchedPart c m d field part place →
      HasSearchedPart c m d field' part' place' → field ≠ field' →
        Naming.composed field part place = Naming.composed field' part' place' → Clash c m d

/-- A column of a listed field is that field or one of its parts. -/
theorem mem_fieldColumns_of_listed (hlisted : field ∈ filteredFields d) : column ∈ fieldColumns c m d field ↔
    IsSearched m d field ∧ column = field ∨
      ∃ part place, HasSearchedPart c m d field part place ∧ Naming.composed field part place = column := by
  rw [mem_fieldColumns]
  constructor
  · rintro ⟨t, ht, hcolumn⟩
    rcases mem_columnsOf.1 hcolumn with ⟨hnone, hsame⟩ | ⟨part, hpart, hnamed⟩
    · exact .inl ⟨⟨hlisted, t, ht, hnone⟩, hsame⟩
    · exact .inr ⟨part, _, ⟨hlisted, t, ht, hpart, rfl⟩, hnamed⟩
  · rintro (⟨⟨-, t, ht, hnone⟩, hsame⟩ | ⟨part, place, ⟨-, t, ht, hpart, rfl⟩, hnamed⟩)
    · exact ⟨t, ht, mem_columnsOf.2 (.inl ⟨hnone, hsame⟩)⟩
    · exact ⟨t, ht, mem_columnsOf.2 (.inr ⟨part, hpart, hnamed⟩)⟩

/-- The columns of every listed field differ exactly if no two parts of one field meet. -/
theorem nodup_fieldColumns_iff (hparts : ∀ name, (m.fieldType name).searchedParts.Nodup) :
    (∀ field ∈ filteredFields d, (fieldColumns c m d field).Nodup) ↔ ∀ field part other, HasSearchedPart c m d field part .last →
      HasSearchedPart c m d field other .last → Text.capitalize part = Text.capitalize other → part = other := by
  have hnodup : ∀ {field t}, searchedType? m d field = some t → t.searchedParts.Nodup := by
    intro field t ht
    obtain ⟨type, -, hsome⟩ := Option.bind_eq_some_iff.1 ht
    split at hsome
    · cases hsome
      exact hparts type
    · cases hsome
  constructor
  · rintro h field part other ⟨hlisted, t, ht, hpart, hlast⟩ ⟨-, t', ht', hother, -⟩ hcapital
    cases ht.symm.trans ht'
    have hfield := h field hlisted
    rw [fieldColumns_eq, ht] at hfield
    exact (nodup_columnsOf_iff (hnodup ht)).1 hfield part hpart other hother hlast hcapital
  · intro h field hlisted
    rw [fieldColumns_eq]
    cases ht : searchedType? m d field with
    | none => exact List.nodup_nil
    | some t =>
      exact (nodup_columnsOf_iff (hnodup ht)).2 fun part hpart other hother hlast =>
        h field part other ⟨hlisted, t, ht, hpart, hlast⟩ ⟨hlisted, t, ht, hother, hlast⟩

/-- Listed fields share no column exactly if no part of one meets another field or a part of it. -/
theorem disjoint_fieldColumns_iff :
    (∀ field ∈ filteredFields d, ∀ field' ∈ filteredFields d, field ≠ field' →
      List.Disjoint (fieldColumns c m d field) (fieldColumns c m d field')) ↔
    (∀ field part place other, HasSearchedPart c m d field part place → IsSearched m d other →
      Naming.composed field part place ≠ other) ∧
    ∀ field part place field' part' place', HasSearchedPart c m d field part place → HasSearchedPart c m d field' part' place' →
      field ≠ field' → Naming.composed field part place ≠ Naming.composed field' part' place' := by
  constructor
  · intro h
    refine ⟨fun field part place other hpart hother hsame => ?_,
      fun field part place field' part' place' hpart hpart' hne hsame => ?_⟩
    · have hne : field ≠ other := by
        rintro rfl
        obtain ⟨t, ht, hmem, -⟩ := hpart.type
        obtain ⟨t', ht', hnone⟩ := hother.type
        cases ht.symm.trans ht'
        rw [hnone] at hmem
        cases hmem
      exact h field hpart.listed other hother.listed hne
        ((mem_fieldColumns_of_listed hpart.listed).2 (.inr ⟨part, place, hpart, hsame⟩))
        ((mem_fieldColumns_of_listed hother.listed).2 (.inl ⟨hother, rfl⟩))
    · exact h field hpart.listed field' hpart'.listed hne
        ((mem_fieldColumns_of_listed hpart.listed).2 (.inr ⟨part, place, hpart, hsame⟩))
        ((mem_fieldColumns_of_listed hpart'.listed).2 (.inr ⟨part', place', hpart', rfl⟩))
  · rintro ⟨hfield, hfields⟩ field hlisted field' hlisted' hne column hcolumn hcolumn'
    rcases (mem_fieldColumns_of_listed hlisted).1 hcolumn with ⟨hsearched, rfl⟩ | ⟨part, place, hpart, hnamed⟩
    · rcases (mem_fieldColumns_of_listed hlisted').1 hcolumn' with ⟨-, rfl⟩ | ⟨part', place', hpart', hnamed'⟩
      · exact hne rfl
      · exact hfield _ _ _ _ hpart' hsearched hnamed'
    · rcases (mem_fieldColumns_of_listed hlisted').1 hcolumn' with ⟨hsearched, rfl⟩ | ⟨part', place', hpart', hnamed'⟩
      · exact hfield _ _ _ _ hpart hsearched hnamed
      · exact hfields _ _ _ _ _ _ hpart hpart' hne (hnamed.trans hnamed'.symm)

/-- The columns of the full-text index among the members that search adds to an entity. -/
def indexedColumns (c : Config) (found : Members Key Value) : Value :=
  ((found.value "indexes").members.value c.fullTextIndexName).members.value "columns"

/-- If no field is listed twice, and no part of a type, then no column is listed twice, in the list of columns and in the index
over them, exactly if no two of their names meet. -/
theorem nodup_columns_iff (hlisted : (filteredFields d).Nodup) (hparts : ∀ name, (m.fieldType name).searchedParts.Nodup) :
    ((columns c m d).Nodup ↔ ¬Clash c m d) ∧ ∀ p entity found, (fragment c m p entity d).result = .ok found → found ≠ [] →
      found.value "fullTextSearchColumnList" = .ofTexts (columns c m d) ∧ indexedColumns c found = .ofTexts (columns c m d) := by
  refine ⟨?_, fun p entity found h hfound => ?_⟩
  · have hpairs : (filteredFields d).Pairwise (Function.onFun List.Disjoint (fieldColumns c m d)) ↔
        ∀ field ∈ filteredFields d, ∀ field' ∈ filteredFields d, field ≠ field' →
          List.Disjoint (fieldColumns c m d field) (fieldColumns c m d field') := by
      have hsymm : Std.Symm (Function.onFun List.Disjoint (fieldColumns c m d)) :=
        ⟨fun _ _ h _ hcolumn hcolumn' => h hcolumn' hcolumn⟩
      exact ⟨fun h field hfield field' hfield' hne => h.forall hfield hfield' hne, fun h => hlisted.pairwise_of_forall_ne h⟩
    rw [columns, List.nodup_flatMap, hpairs, nodup_fieldColumns_iff hparts, disjoint_fieldColumns_iff]
    constructor
    · rintro ⟨hofParts, hofField, hofFields⟩ hclash
      cases hclash with
      | ofParts hpart hother hne hcapital => exact hne (hofParts _ _ _ hpart hother hcapital)
      | ofPartAndField hpart hother hsame => exact hofField _ _ _ _ hpart hother hsame
      | ofFields hpart hpart' hne hsame => exact hofFields _ _ _ _ _ _ hpart hpart' hne hsame
    · intro h
      refine ⟨fun field part other hpart hother hcapital => ?_, fun field part place other hpart hother hsame => ?_,
        fun field part place field' part' place' hpart hpart' hne hsame => ?_⟩
      · by_contra hne
        exact h (.ofParts hpart hother hne hcapital)
      · exact h (.ofPartAndField hpart hother hsame)
      · exact h (.ofFields hpart hpart' hne hsame)
  · rcases fragment_eq_ok h with hnone | ⟨-, rfl⟩
    · exact absurd hnone hfound
    · refine ⟨rfl, ?_⟩
      have hindex : Members.value (FullText.found c (columns c m d)) "indexes" =
          .object [(c.fullTextIndexName, index (columns c m d))] := rfl
      unfold indexedColumns
      rw [hindex, Value.members_object, Members.value_of_get? (Members.get?_singleton _ _)]
      rfl

/-! ## Persons -/

/-- Types of fields that are searched: of a name its parts, which go first, and of an address its parts, which go last. -/
def personTypes : Metadata where
  fieldTypes := [
    ("personName", ⟨[("fullTextSearch", .bool true), ("fullTextSearchColumnList", .ofTexts ["first", "last"]),
      ("naming", .str "prefix")]⟩),
    ("address", ⟨[("fullTextSearch", .bool true), ("fullTextSearchColumnList", .ofTexts ["street", "city"])]⟩),
    ("varchar", ⟨[("fullTextSearch", .bool true)]⟩)]

/-- A person who is searched in the given fields. -/
def person (listed : List String) : Definition :=
  ⟨[("fields", .object [
      ("name", .object [("type", .str "personName")]),
      ("firstName", .object [("type", .str "varchar")]),
      ("home", .object [("type", .str "address")]),
      ("email", .object [("type", .str "varchar")])]),
    ("collection", .object [("fullTextSearch", .bool true), ("textFilterFields", .ofTexts listed)])]⟩

theorem nodup_searchedParts_personTypes (name : String) : (personTypes.fieldType name).searchedParts.Nodup := by
  unfold personTypes Metadata.fieldType
  simp only [Members.get?_cons]
  split
  · decide
  · split
    · decide
    · split
      · decide
      · exact List.nodup_nil

theorem nodup_columns_iff_person : (filteredFields (person ["name", "home", "email"])).Nodup ∧
    (∀ name, (personTypes.fieldType name).searchedParts.Nodup) ∧
      columns {} personTypes (person ["name", "home", "email"]) = ["firstName", "lastName", "homeStreet", "homeCity", "email"] ∧
        ¬Clash {} personTypes (person ["name", "home", "email"]) ∧
          ∃ found, (fragment {} personTypes .always "Person" (person ["name", "home", "email"])).result = .ok found ∧ found ≠ [] ∧
            indexedColumns {} found = .ofTexts ["firstName", "lastName", "homeStreet", "homeCity", "email"] := by
  have hlisted : (filteredFields (person ["name", "home", "email"])).Nodup := by decide
  have hcolumns : columns {} personTypes (person ["name", "home", "email"]) =
      ["firstName", "lastName", "homeStreet", "homeCity", "email"] := by decide +kernel
  have hgives : gives (fragment {} personTypes .always "Person" (person ["name", "home", "email"])).result
      (fun found => !found.isEmpty) = true := by decide +kernel
  obtain ⟨found, hfound, hsome⟩ := gives_iff.1 hgives
  have hne : found ≠ [] := by
    rintro rfl
    cases hsome
  obtain ⟨hnodup, hlists⟩ := nodup_columns_iff (c := {}) hlisted nodup_searchedParts_personTypes
  refine ⟨hlisted, nodup_searchedParts_personTypes, hcolumns, hnodup.1 (by rw [hcolumns]; decide), found, hfound, hne, ?_⟩
  obtain ⟨-, hindexed⟩ := hlists _ _ found hfound hne
  rw [hindexed, hcolumns]

/-- A part of a name is declared as a field as well, and both are listed. -/
theorem exists_repeated_column : (filteredFields (person ["name", "firstName"])).Nodup ∧
    (∀ name, (personTypes.fieldType name).searchedParts.Nodup) ∧
      columns {} personTypes (person ["name", "firstName"]) = ["firstName", "lastName", "firstName"] ∧
        ¬(columns {} personTypes (person ["name", "firstName"])).Nodup := by
  have hcolumns : columns {} personTypes (person ["name", "firstName"]) = ["firstName", "lastName", "firstName"] := by
    decide +kernel
  exact ⟨by decide, nodup_searchedParts_personTypes, hcolumns, by rw [hcolumns]; decide⟩

end FullText

end EntitySchema
