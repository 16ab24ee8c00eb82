import EntitySchema.Link.Junction
import EntitySchema.Proofs.Field.Law
import EntitySchema.Proofs.Value.Access

/-!
# Junctions of an entity

The junctions of an entity are gathered relation by relation, and of several relations with one junction the last one decides
what its fields are.

Results:
* `get?_entities`: the junction under a name is that of the last relation with the name.
* `lastOf?_insert`, `get?_entities_congr`: relations that decide on no junction, and entities with the same one.
* `fragmentWith_of_entities`: what the columns of all junctions have in common.
* `isFragment_of_ofRelation`: what a junction looks like.
* `contains_columnsOf`: which columns a junction has.
-/
namespace EntitySchema.Junction

/-! ## The declarations of a junction -/

/-- The attributes of a junction's field before they are in normal form. -/
def declaration (c : Config) (v : Value) : Prop :=
  v = .object [("type", .str FieldKind.id.word), ("autoincrement", .bool true), ("dbType", .str c.junctionIdDbType)] ∨
    v = .object [("type", .str FieldKind.bool.word), ("default", .bool false)] ∨ ∃ type, v = .object [("type", type)]

/-- The declarations of a junction have different names, and each is a bare type save for the identifier and the mark. -/
theorem declaration_of_fields {c : Config} {relation declared : Members Key Value} (h : fields c relation = .ok declared) :
    Members.Distinct declared ∧ ∀ entry ∈ declared, declaration c entry.2 := by
  unfold fields at h
  obtain ⟨keys, -, h⟩ := bind_eq_ok.1 h
  obtain ⟨keyed, hkeyed, h⟩ := bind_eq_ok.1 h
  obtain ⟨columns, -, h⟩ := bind_eq_ok.1 h
  let Declared (m : Members Key Value) := Members.Distinct m ∧ ∀ entry ∈ m, declaration c entry.2
  have put : ∀ {m : Members Key Value} {key : Key} {type : Value}, Declared m →
      Declared (Members.set m key (.object [("type", type)])) := by
    intro m key type hdeclared
    obtain ⟨hd, hm⟩ := hdeclared
    refine ⟨Members.distinct_set _ _ hd, fun entry he => ?_⟩
    rcases Members.mem_set he with he | ⟨-, he⟩
    · exact hm entry he
    · exact .inr (.inr ⟨type, he⟩)
  refine foldlM_invariant Declared ?_ ?_ h
  · intro m column m' _ hm hstep
    obtain ⟨defs, -, hstep⟩ := bind_eq_ok.1 hstep
    cases hstep
    exact put hm
  · refine foldlM_invariant Declared ?_ ?_ hkeyed
    · intro m key m' _ hm hstep
      obtain ⟨name, -, hstep⟩ := bind_eq_ok.1 hstep
      cases hstep
      exact put hm
    · refine ⟨by simp [Members.Distinct, Members.keys]; decide, fun entry he => ?_⟩
      rcases List.mem_cons.1 he with rfl | he
      · exact .inl rfl
      · rw [List.mem_singleton] at he
        subst he
        exact .inr (.inl rfl)

/-- Whether a relation gives its junction a column: a declared type that is null gives none. -/
def declares (c : Config) (relation : Members Key Value) (column : Key) : Bool :=
  match fields c relation with
  | .ok declared => (Members.get? declared column).any fun v => !(v.members.value "type").isNull
  | .error _ => false

/-- A field as the normal form of a junction has it: plain attributes without a mark. -/
def IsColumn (v : Value) : Prop :=
  ∃ attributes, v = .object attributes ∧ Field.Plain attributes ∧ Members.get? attributes "notStorable" = none

theorem isColumn_of_declaration {c : Config} {v w : Value} (h : declaration c v) (hw : Field.normalForm? c v = some w) :
    IsColumn w := by
  have hv : IsColumn v := by
    rcases h with rfl | rfl | ⟨type, rfl⟩
    · exact ⟨_, rfl, ⟨by simp [Members.Distinct, Members.keys]; decide, by simp [Members.get?_cons], by
        simp [Members.get?_cons]⟩, by simp [Members.get?_cons]⟩
    · exact ⟨_, rfl, ⟨by simp [Members.Distinct, Members.keys]; decide, by simp [Members.get?_cons], by
        simp [Members.get?_cons]⟩, by simp [Members.get?_cons]⟩
    · exact ⟨_, rfl, ⟨Members.distinct_singleton _ _, by simp [Members.get?_cons], by simp [Members.get?_cons]⟩, by
        simp [Members.get?_cons]⟩
  obtain ⟨attributes, rfl, hplain, hmark⟩ := hv
  obtain ⟨normal, hn, rfl⟩ := Field.normalForm?_eq_some.1 hw
  refine ⟨normal, rfl, hplain.normalize hn, ?_⟩
  rw [Field.get?_normalize_of_untouched hn (by simp [Field.normalizedKeys]), ← hmark]
  rfl

/-! ## One relation -/

/-- Whether a value is a many-to-many relation whose junction is stored under the given key. -/
def isOf (junction : Key) (relation : Value) : Bool :=
  (relation.members.value "type").isText LinkKind.manyMany.word &&
    match relation.members.value "relationName" with
    | .str name => Naming.junctionEntity name == junction
    | _ => false

/-- What a junction looks like: its fields, of which every one is a column. -/
def IsFragment (v : Value) : Prop :=
  ∃ columns, v = .object [("skipRebuild", .bool true), ("fields", .object columns)] ∧ Members.Distinct columns ∧
    ∀ key w, Members.get? columns key = some w → IsColumn w

theorem ofRelation_eq_ok {c : Config} {relation : Value} {found : Option (Key × Value)}
    (h : (ofRelation c relation).result = .ok found) :
    (relation.members.value "type").isText LinkKind.manyMany.word = false ∧ found = none ∨
      (relation.members.value "type").isText LinkKind.manyMany.word = true ∧ ∃ name declared normal,
        relation.members.value "relationName" = .str name ∧ fields c relation.members = .ok declared ∧
        (Field.normalizeAll c (.text (Naming.junctionEntity name)) declared).result = .ok normal ∧
        found = some (.text (Naming.junctionEntity name),
          .object [("skipRebuild", .bool true), ("fields", .object normal)]) := by
  unfold ofRelation at h
  obtain ⟨members, hm, h⟩ := Run.result_bind_eq_ok.1 h
  obtain rfl := Value.openMembers_eq_ok.1 (Run.lift_eq_ok.1 hm)
  split at h
  · rename_i hmany
    obtain ⟨given, hgiven, h⟩ := Run.result_bind_eq_ok.1 h
    obtain ⟨name, hname, h⟩ := Run.result_bind_eq_ok.1 h
    obtain ⟨declared, hdeclared, h⟩ := Run.result_bind_eq_ok.1 h
    obtain ⟨normal, hnormal, h⟩ := Run.result_bind_eq_ok.1 h
    rw [Run.lift_eq_ok] at hgiven hname hdeclared
    cases h
    obtain ⟨_, hobject, hget⟩ := Value.item_eq_ok hgiven
    cases hobject
    obtain rfl := Value.nameText_eq_ok.1 hname
    exact .inr ⟨hmany, name, declared, normal, Members.value_of_get? hget, hdeclared, hnormal, rfl⟩
  · rename_i hmany
    cases h
    exact .inl ⟨Bool.eq_false_iff.2 hmany, rfl⟩

/-- The junction of a relation is stored under the name that the relation says. -/
theorem isOf_of_ofRelation {c : Config} {relation : Value} {found : Option (Key × Value)}
    (h : (ofRelation c relation).result = .ok found) (junction : Key) :
    isOf junction relation = found.any fun entry => entry.1 == junction := by
  rcases ofRelation_eq_ok h with ⟨hmany, rfl⟩ | ⟨hmany, name, declared, normal, hname, -, -, rfl⟩
  · simp [isOf, hmany]
  · simp [isOf, hmany, hname]

/-- A junction of which every column has a property: its mark and its columns under different names. -/
def FragmentWith (Q : Key → Value → Prop) (v : Value) : Prop :=
  ∃ columns, v = .object [("skipRebuild", .bool true), ("fields", .object columns)] ∧ Members.Distinct columns ∧
    ∀ column ∈ columns, Q column.1 column.2

/-- The columns of a junction are the normal forms of what its relation declares. -/
theorem fragmentWith_of_ofRelation {c : Config} {relation : Value} {entry : Key × Value} {Q : Key → Value → Prop}
    (hQ : ∀ declared, fields c relation.members = .ok declared → ∀ column ∈ declared, ∀ w, declaration c column.2 →
      Field.normalForm? c column.2 = some w → Q column.1 w)
    (h : (ofRelation c relation).result = .ok (some entry)) : (∃ name, entry.1 = .text name) ∧ FragmentWith Q entry.2 := by
  rcases ofRelation_eq_ok h with ⟨-, hnone⟩ | ⟨-, name, declared, normal, -, hdeclared, hnormal, hentry⟩
  · cases hnone
  · cases hentry
    obtain ⟨hd, hdecl⟩ := declaration_of_fields hdeclared
    refine ⟨⟨_, rfl⟩, normal, rfl, Field.distinct_normalizeAll hd hnormal, fun column hcolumn => ?_⟩
    obtain ⟨params, p, hmem, hp, hform⟩ := Field.exists_of_mem_normalizeAll hnormal hcolumn
    exact hQ declared hdeclared _ hmem _ (hdecl _ hmem) (Field.normalForm?_eq_some.2 ⟨p, hp, hform⟩)

theorem isFragment_of_ofRelation {c : Config} {relation : Value} {entry : Key × Value}
    (h : (ofRelation c relation).result = .ok (some entry)) : IsFragment entry.2 := by
  have hfragment := fragmentWith_of_ofRelation (Q := fun _ v => IsColumn v)
    (fun _ _ _ _ _ hdecl hw => isColumn_of_declaration hdecl hw) h
  obtain ⟨-, columns, hentry, hd, hcolumn⟩ := hfragment
  refine ⟨columns, hentry, hd, fun key w hw => ?_⟩
  obtain ⟨k, -, hm⟩ := Members.exists_of_get? hw
  exact hcolumn _ hm

/-- A junction has the columns that its relation declares. -/
theorem contains_columnsOf {c : Config} {relation : Value} {entry : Key × Value}
    (h : (ofRelation c relation).result = .ok (some entry)) (column : Key) :
    Members.contains (entry.2.members.value "fields").members column = declares c relation.members column := by
  rcases ofRelation_eq_ok h with ⟨-, hnone⟩ | ⟨-, name, declared, normal, -, hdeclared, hnormal, hentry⟩
  · cases hnone
  · cases hentry
    obtain ⟨hd, hdecl⟩ := declaration_of_fields hdeclared
    show (Members.get? normal column).isSome = _
    rw [Field.get?_normalizeAll hd hnormal]
    simp only [declares, hdeclared]
    cases hv : Members.get? declared column with
    | none => rfl
    | some v =>
      obtain ⟨k, -, hm⟩ := Members.exists_of_get? hv
      obtain ⟨params, form, rfl, hform⟩ := Field.normalize_of_mem hnormal hm
      have hmark : (Members.value params "notStorable").truthy = false := by
        rcases hdecl _ hm with h | h | ⟨type, h⟩ <;> cases h <;> rfl
      have hnone := Field.normalize_eq_none_iff hform
      rw [hmark] at hnone
      simp only [Option.bind_some, Option.any_some, Field.normalForm?, Value.members, hform]
      cases form <;> simp_all

/-! ## All relations of an entity -/

/-- The last relation with a junction of the given name. -/
def lastOf? (relations : Members Key Value) (junction : Key) : Option Value :=
  (relations.reverse.find? fun link => isOf junction link.2).map Prod.snd

theorem lastOf?_append (front back : Members Key Value) (junction : Key) :
    lastOf? (front ++ back) junction = (lastOf? back junction).or (lastOf? front junction) := by
  unfold lastOf?
  rw [List.reverse_append, List.find?_append, Option.map_or]

theorem lastOf?_singleton (link : Key × Value) (junction : Key) :
    lastOf? [link] junction = if isOf junction link.2 then some link.2 else none := by
  unfold lastOf?
  by_cases h : isOf junction link.2 = true <;> simp [h]

theorem lastOf?_cons (link : Key × Value) (rest : Members Key Value) (junction : Key) :
    lastOf? (link :: rest) junction = (lastOf? rest junction).or (if isOf junction link.2 then some link.2 else none) := by
  rw [← List.singleton_append, lastOf?_append, lastOf?_singleton]

/-- Among relations of which one has the name of a junction there is a last one. -/
theorem isSome_lastOf? {relations : Members Key Value} {junction : Key} {relation : Value} (h : relation ∈ relations.values)
    (hof : isOf junction relation = true) : (lastOf? relations junction).isSome = true := by
  obtain ⟨link, hlink, rfl⟩ := List.mem_map.1 h
  rw [lastOf?, Option.isSome_map, List.find?_isSome]
  exact ⟨link, List.mem_reverse.2 hlink, hof⟩

/-- A relation decides on a junction neither if it has another name nor if one with the name comes behind it. -/
theorem lastOf?_insert {front back : Members Key Value} {link : Key × Value} {junction : Key}
    (h : isOf junction link.2 = true → (lastOf? back junction).isSome = true) :
    lastOf? (front ++ link :: back) junction = lastOf? (front ++ back) junction := by
  rw [lastOf?_append, lastOf?_append, lastOf?_cons]
  cases hback : lastOf? back junction with
  | some last => rfl
  | none =>
    have hnot : ¬isOf junction link.2 = true := fun hof => by
      have hsome := h hof
      rw [hback] at hsome
      cases hsome
    rw [if_neg hnot]
    rfl

/-- The relations of a compiled entity. -/
def relationsOf (compiled : Value) : Members Key Value :=
  (compiled.members.value "relations").members

/-- Puts the junction of one relation, if it has one. -/
def put (junctions : Members Key Value) (found : Option (Key × Value)) : Members Key Value :=
  match found with
  | some entry => Members.set junctions entry.1 entry.2
  | none => junctions

/-- The junctions of an entity are those of its relations, put one after the other. -/
theorem entities_eq_ok {c : Config} {compiled : Value} {junctions : Members Key Value}
    (h : (entities c compiled).result = .ok junctions) :
    ∃ found, List.Forall₂ (fun link entry => (ofRelation c link.2).result = .ok entry) (relationsOf compiled) found ∧
      junctions = found.foldl put [] := by
  unfold entities at h
  obtain ⟨members, hm, h⟩ := Run.result_bind_eq_ok.1 h
  obtain ⟨relations, hrelations, h⟩ := Run.result_bind_eq_ok.1 h
  obtain rfl := Value.openMembers_eq_ok.1 (Run.lift_eq_ok.1 hm)
  obtain rfl : relations = relationsOf (.object members) := Value.givenMembers_eq_ok (Run.lift_eq_ok.1 hrelations)
  refine Run.foldlM_map_eq_ok.1 ?_
  refine Eq.trans (congrArg Run.result ?_) h
  congr 1
  funext acc link
  congr 1
  funext found
  cases found <;> rfl

/-- The junctions of an entity stand under names, and their columns are the normal forms of what its relations declare. -/
theorem fragmentWith_of_entities {c : Config} {compiled : Value} {junctions : Members Key Value} {Q : Key → Value → Prop}
    (hQ : ∀ link ∈ relationsOf compiled, ∀ declared, fields c link.2.members = .ok declared → ∀ column ∈ declared, ∀ w,
      declaration c column.2 → Field.normalForm? c column.2 = some w → Q column.1 w)
    (h : (entities c compiled).result = .ok junctions) :
    ∀ entry ∈ junctions, (∃ name, entry.1 = .text name) ∧ FragmentWith Q entry.2 := by
  obtain ⟨found, hfound, rfl⟩ := entities_eq_ok h
  refine List.foldlRecOn (motive := fun m => ∀ entry ∈ m, (∃ name, entry.1 = .text name) ∧ FragmentWith Q entry.2) found put
    (fun _ he => absurd he List.not_mem_nil) fun m hm junction hjunction entry hentry => ?_
  cases junction with
  | none => exact hm entry hentry
  | some one =>
    obtain ⟨link, hlink, hone⟩ := Members.forall₂_exists_right hfound hjunction
    obtain ⟨⟨name, hname⟩, hfragment⟩ := fragmentWith_of_ofRelation (hQ link hlink) hone
    rcases Members.mem_set hentry with hentry | ⟨hkey, hvalue⟩
    · exact hm entry hentry
    · rw [hname, Key.beq_text] at hkey
      exact ⟨⟨name, hkey⟩, hvalue ▸ hfragment⟩

theorem distinct_entities {c : Config} {compiled : Value} {junctions : Members Key Value}
    (h : (entities c compiled).result = .ok junctions) : Members.Distinct junctions := by
  obtain ⟨found, -, rfl⟩ := entities_eq_ok h
  refine List.foldlRecOn found put Members.distinct_nil fun m hm entry _ => ?_
  cases entry with
  | none => exact hm
  | some entry => exact Members.distinct_set _ _ hm

theorem get?_foldl_put {c : Config} {relations : Members Key Value} {found : List (Option (Key × Value))}
    (h : List.Forall₂ (fun link entry => (ofRelation c link.2).result = .ok entry) relations found)
    (start : Members Key Value) (junction : Key) :
    match lastOf? relations junction with
    | some relation => ∃ entry, (ofRelation c relation).result = .ok (some entry) ∧
        Members.get? (found.foldl put start) junction = some entry.2
    | none => Members.get? (found.foldl put start) junction = Members.get? start junction := by
  induction h generalizing start with
  | nil => rfl
  | @cons link entry rest found hentry _ ih =>
    have hlast := ih (put start entry)
    rw [lastOf?_cons, List.foldl_cons]
    cases hrest : lastOf? rest junction with
    | some relation => rw [hrest] at hlast; exact hlast
    | none =>
      rw [hrest] at hlast
      simp only [Option.none_or] at hlast ⊢
      have hof := isOf_of_ofRelation hentry junction
      cases entry with
      | none => rw [hof]; exact hlast
      | some e =>
        rw [hof]
        by_cases he : (e.1 == junction) = true
        · simp only [Option.any_some, he, if_true]
          exact ⟨e, hentry, by rw [hlast, put, Members.get?_set, if_pos he]⟩
        · simp only [Option.any_some, he, Bool.false_eq_true, if_false]
          rw [hlast, put, Members.get?_set, if_neg he]

/-- The junction under a name is that of the last relation with the name. -/
theorem get?_entities {c : Config} {compiled : Value} {junctions : Members Key Value}
    (h : (entities c compiled).result = .ok junctions) (junction : Key) :
    match lastOf? (relationsOf compiled) junction with
    | some relation => ∃ entry, (ofRelation c relation).result = .ok (some entry) ∧
        Members.get? junctions junction = some entry.2
    | none => Members.get? junctions junction = none := by
  obtain ⟨found, hfound, rfl⟩ := entities_eq_ok h
  exact get?_foldl_put hfound [] junction

/-- Entities with the same last relation of a name have the same junction under it. -/
theorem get?_entities_congr {c : Config} {compiled compiled' : Value} {part part' : Members Key Value} {junction : Key}
    (h : (entities c compiled).result = .ok part) (h' : (entities c compiled').result = .ok part')
    (hlast : lastOf? (relationsOf compiled) junction = lastOf? (relationsOf compiled') junction) :
    Members.get? part junction = Members.get? part' junction := by
  have hget := get?_entities h junction
  have hget' := get?_entities h' junction
  rw [← hlast] at hget'
  cases hrelation : lastOf? (relationsOf compiled) junction with
  | none =>
    rw [hrelation] at hget hget'
    rw [hget, hget']
  | some relation =>
    rw [hrelation] at hget hget'
    obtain ⟨entry, hentry, hpart⟩ := hget
    obtain ⟨entry', hentry', hpart'⟩ := hget'
    cases hentry.symm.trans hentry'
    rw [hpart, hpart']

theorem isFragment_of_entities {c : Config} {compiled : Value} {junctions : Members Key Value}
    (h : (entities c compiled).result = .ok junctions) {junction : Key} {v : Value}
    (hv : Members.get? junctions junction = some v) : IsFragment v := by
  have hlast := get?_entities h junction
  split at hlast
  · obtain ⟨entry, hentry, hget⟩ := hlast
    rw [hget] at hv
    cases hv
    exact isFragment_of_ofRelation hentry
  · rw [hlast] at hv; cases hv

end EntitySchema.Junction
