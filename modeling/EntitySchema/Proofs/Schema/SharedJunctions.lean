import EntitySchema.Proofs.Link.JunctionName
import EntitySchema.Proofs.Schema.Junctions

/-!
# Junctions that links share

Two links that leave the names of their junctions to the compiler share a junction exactly if their pairs of entities overlap.
What that means shows when the junctions are laid over the tree of all entities: of links of one entity that share a junction
the later one replaces the earlier one, links of different entities both give it their columns, and a link adds nothing to a
junction that it does not share.

* `HasColumns`, `HasNoSay`, `IsReplacedBy`: what a relation does to a junction.
* `InOne`, `Apart`: junctions that are one entity, and junctions that are two.

Results:
* `get?_joined_congr`: what stands under a name is decided by the last relation of each entity that has the name.
* `sharesJunction_iff`: which pairs of links share a junction, and what becomes of their junctions.
* `exists_shared_junction`: different pairs with the same name.
-/
namespace EntitySchema.Schema

open Link (JoinsByDefault defaultJunction)

variable {c : Config} {tree joined : Members Key Value} {junction : Key} {relation relation' : Value}

/-! ## Trees with junctions -/

/-- What stands under a name once all junctions are laid over is decided by the last relation of each entity that has it. -/
theorem get?_joined_congr {entities entities' : List Value} {joined' : Members Key Value} (h : Joined c tree entities joined)
    (h' : Joined c tree entities' joined')
    (hlast : List.Forall₂ (fun compiled compiled' => Junction.lastOf? (Junction.relationsOf compiled) junction =
      Junction.lastOf? (Junction.relationsOf compiled') junction) entities entities') :
    Members.get? joined junction = Members.get? joined' junction := by
  obtain ⟨count, h⟩ := h
  obtain ⟨count', h'⟩ := h'
  obtain ⟨parts, hparts, rfl⟩ := withJunctions_eq_ok h
  obtain ⟨parts', hparts', rfl⟩ := withJunctions_eq_ok h'
  refine Members.get?_foldl_overlay_congr ?_ rfl
  clear h h'
  induction hlast generalizing parts parts' with
  | nil =>
    cases hparts
    cases hparts'
    exact .nil
  | cons hsame _ ih =>
    cases hparts with
    | cons hpart hparts =>
      cases hparts' with
      | cons hpart' hparts' =>
        exact .cons ⟨Junction.distinct_entities hpart, Junction.distinct_entities hpart',
          Junction.get?_entities_congr hpart hpart' hsame⟩ (ih _ hparts _ hparts')

/-! ## What a relation does to a junction -/

/-- The columns of a relation are in a junction, provided that of the relations of its entity with that name it is the last. -/
def HasColumns (c : Config) (relation : Value) (junction : Key) : Prop :=
  ∀ tree entities joined, Joined c tree entities joined → ∀ compiled ∈ entities,
    Junction.lastOf? (Junction.relationsOf compiled) junction = some relation → ∀ column,
      Junction.declares c relation.members column = true → Members.contains (fieldsIn joined junction) column = true

/-- What stands under a name is the same whether an entity is the one or the other, whatever the tree and the other entities. -/
def AgreeUnder (c : Config) (junction : Key) (compiled compiled' : Value) : Prop :=
  ∀ tree before after joined joined', Joined c tree (before ++ compiled :: after) joined →
    Joined c tree (before ++ compiled' :: after) joined' → Members.get? joined junction = Members.get? joined' junction

/-- A relation has no say in a junction: with it or without it, the same stands under the name. -/
def HasNoSay (c : Config) (relation : Value) (junction : Key) : Prop :=
  ∀ link rest compiled, Members.WithOne (link, relation) (Junction.relationsOf rest) (Junction.relationsOf compiled) →
    AgreeUnder c junction rest compiled

/-- A relation has no say in a junction if the other one comes behind it among the relations of an entity. -/
def IsReplacedBy (c : Config) (relation relation' : Value) (junction : Key) : Prop :=
  ∀ link rest compiled front back, Junction.relationsOf rest = front ++ back →
    Junction.relationsOf compiled = front ++ (link, relation) :: back → relation' ∈ back.values →
      AgreeUnder c junction rest compiled

/-- The junctions of two relations are one entity. -/
structure InOne (c : Config) (relation relation' : Value) (junction junction' : Key) : Prop where
  eq : junction = junction'
  columns : HasColumns c relation junction
  columns' : HasColumns c relation' junction
  replaced : IsReplacedBy c relation relation' junction
  replaced' : IsReplacedBy c relation' relation junction

/-- The junctions of two relations are two entities. -/
structure Apart (c : Config) (relation relation' : Value) (junction junction' : Key) : Prop where
  ne : junction ≠ junction'
  columns : HasColumns c relation junction
  columns' : HasColumns c relation' junction'
  noSay : HasNoSay c relation' junction
  noSay' : HasNoSay c relation junction'

theorem hasColumns (c : Config) (relation : Value) (junction : Key) : HasColumns c relation junction := by
  intro tree entities joined hjoined compiled hcompiled hlast column hdeclares
  obtain ⟨count, hjoined⟩ := hjoined
  obtain ⟨parts, hparts, rfl⟩ := withJunctions_eq_ok hjoined
  have hfragments : ∀ part ∈ parts, OfFragments part := fun part hpart => by
    obtain ⟨compiled, -, hentities⟩ := Members.forall₂_exists_right hparts hpart
    exact ofFragments_entities hentities
  obtain ⟨part, hpart, hentities⟩ := Members.forall₂_exists_left hparts hcompiled
  refine (contains_fieldsIn_withJunctions tree hfragments junction column).2 (.inr ⟨part, hpart, ?_⟩)
  exact (contains_fieldsIn_entities hentities junction column).2 ⟨relation, hlast, hdeclares⟩

/-- Entities with the same last relation of a name may stand for each other. -/
theorem agreeUnder_of_lastOf? {compiled compiled' : Value}
    (h : Junction.lastOf? (Junction.relationsOf compiled) junction = Junction.lastOf? (Junction.relationsOf compiled') junction) :
    AgreeUnder c junction compiled compiled' := by
  intro tree before after joined joined' hjoined hjoined'
  refine get?_joined_congr hjoined hjoined' (List.rel_append ?_ (.cons h ?_))
  · exact List.forall₂_same.2 fun _ _ => rfl
  · exact List.forall₂_same.2 fun _ _ => rfl

theorem hasNoSay_of_isOf (h : Junction.isOf junction relation = false) : HasNoSay c relation junction := by
  intro link rest compiled hone
  obtain ⟨front, back, hrest, hcompiled⟩ := hone
  refine agreeUnder_of_lastOf? ?_
  rw [hrest, hcompiled]
  refine (Junction.lastOf?_insert fun hof => ?_).symm
  rw [h] at hof
  cases hof

theorem isReplacedBy_of_isOf (h : Junction.isOf junction relation' = true) : IsReplacedBy c relation relation' junction := by
  intro link rest compiled front back hrest hcompiled hbehind
  refine agreeUnder_of_lastOf? ?_
  rw [hrest, hcompiled]
  exact (Junction.lastOf?_insert fun _ => Junction.isSome_lastOf? hbehind h).symm

/-! ## Which links share a junction -/

/-- Two links that leave the names of their junctions to the compiler have one entity for a junction exactly if their pairs of
entities overlap, else they have an entity each. -/
theorem sharesJunction_iff (c : Config) (m : Metadata) (entity target entity' target' : String) :
    (Naming.junctionEntity (Naming.relationName entity target) =
        Naming.junctionEntity (Naming.relationName entity' target') ↔ Naming.Overlap entity target entity' target') ∧
      ∀ relation relation', JoinsByDefault m entity target relation → JoinsByDefault m entity' target' relation' →
        (Naming.Overlap entity target entity' target' →
          InOne c relation relation' (defaultJunction entity target) (defaultJunction entity' target')) ∧
        (¬Naming.Overlap entity target entity' target' →
          Apart c relation relation' (defaultJunction entity target) (defaultJunction entity' target')) := by
  have hiff := Naming.junctionEntity_eq_iff entity target entity' target'
  have hjunction : defaultJunction entity target = defaultJunction entity' target' ↔
      Naming.Overlap entity target entity' target' := by
    rw [defaultJunction, defaultJunction, Key.text.injEq]
    exact hiff
  refine ⟨hiff, fun relation relation' hjoins hjoins' => ⟨fun hoverlap => ?_, fun hapart => ?_⟩⟩
  · have hsame := hjunction.2 hoverlap
    have hof : Junction.isOf (defaultJunction entity target) relation = true := by
      rw [Link.isOf_of_joinsByDefault hjoins]
      exact BEq.rfl
    have hof' : Junction.isOf (defaultJunction entity target) relation' = true := by
      rw [Link.isOf_of_joinsByDefault hjoins', hsame]
      exact BEq.rfl
    exact ⟨hsame, hasColumns _ _ _, hasColumns _ _ _, isReplacedBy_of_isOf hof', isReplacedBy_of_isOf hof⟩
  · have hne := mt hjunction.1 hapart
    have hof : Junction.isOf (defaultJunction entity' target') relation = false := by
      rw [Link.isOf_of_joinsByDefault hjoins, defaultJunction, ← Bool.not_eq_true, Key.text_beq]
      exact fun hsame => hne hsame.symm
    have hof' : Junction.isOf (defaultJunction entity target) relation' = false := by
      rw [Link.isOf_of_joinsByDefault hjoins', defaultJunction, ← Bool.not_eq_true, Key.text_beq]
      exact hne
    exact ⟨hne, hasColumns _ _ _, hasColumns _ _ _, hasNoSay_of_isOf hof', hasNoSay_of_isOf hof⟩

/-! ## Leads of contacts -/

/-- A many-to-many link that declares its target alone. -/
def plainLink (target : String) : Params :=
  [("type", .str LinkKind.manyMany.word), ("entity", .str target)]

/-- What an entity relates to by such a link. -/
def plainRelation (entity target : String) : Value :=
  match Link.relation {} (.str entity) (.str "links") (plainLink target) .manyMany with
  | .ok found => .object found
  | .error _ => .null

/-- A compiled entity that has relations alone. -/
def relating (relations : Members Key Value) : Value :=
  .object [("relations", .object relations)]

theorem joinsByDefault_plainRelation (entity target : String)
    (h : gives (Link.relation {} (.str entity) (.str "links") (plainLink target) .manyMany) (fun _ => true) = true) :
    JoinsByDefault {} entity target (plainRelation entity target) := by
  obtain ⟨found, hfound, -⟩ := gives_iff.1 h
  refine ⟨.str "links", plainLink target, found, ⟨rfl, rfl⟩, hfound, fun key _ => ?_⟩
  rw [plainRelation, hfound, Value.members_object]

theorem exists_joined {entities : List Value} (h : gives (withJunctions {} [] 0 entities).result (fun _ => true) = true) :
    ∃ joined, Joined {} [] entities joined := by
  obtain ⟨⟨joined, count⟩, hjoined, -⟩ := gives_iff.1 h
  exact ⟨joined, count, hjoined⟩

theorem sharesJunction_iff_contactLead :
    (∃ joined, Joined {} [] [relating [("leads", plainRelation "Account" "ContactLead")],
        relating [("leads", plainRelation "AccountContact" "Lead")]] joined ∧
      Members.contains (fieldsIn joined "AccountContactLead") "contactLeadId" = true ∧
        Members.contains (fieldsIn joined "AccountContactLead") "accountContactId" = true) ∧
    (∃ joined joined', Joined {} [] [relating [("as", plainRelation "ABA" "BA"), ("bs", plainRelation "ABA" "AB")]] joined ∧
      Joined {} [] [relating [("bs", plainRelation "ABA" "AB")]] joined' ∧
        Members.get? joined' "ABABA" = Members.get? joined "ABABA") ∧
    ∃ joined joined', Joined {} [] [relating [("contacts", plainRelation "Account" "Contact"),
        ("leads", plainRelation "Account" "Lead")]] joined ∧
      Joined {} [] [relating [("contacts", plainRelation "Account" "Contact")]] joined' ∧
        Members.get? joined' "AccountContact" = Members.get? joined "AccountContact" := by
  refine ⟨?_, ?_, ?_⟩
  -- links of two entities
  · have hoverlap : Naming.Overlap "Account" "ContactLead" "AccountContact" "Lead" :=
      .inl ⟨"Contact", by decide +kernel, by decide +kernel⟩
    have hjoins := joinsByDefault_plainRelation "Account" "ContactLead" (by decide +kernel)
    have hjoins' := joinsByDefault_plainRelation "AccountContact" "Lead" (by decide +kernel)
    obtain ⟨-, hlinks⟩ := sharesJunction_iff {} {} "Account" "ContactLead" "AccountContact" "Lead"
    have hone := (hlinks _ _ hjoins hjoins').1 hoverlap
    have hname : defaultJunction "Account" "ContactLead" = "AccountContactLead" := by decide +kernel
    rw [hname] at hone
    obtain ⟨joined, hjoined⟩ : ∃ joined, Joined {} [] [relating [("leads", plainRelation "Account" "ContactLead")],
      relating [("leads", plainRelation "AccountContact" "Lead")]] joined := exists_joined (by decide +kernel)
    refine ⟨joined, hjoined, ?_, ?_⟩
    · refine hone.columns _ _ _ hjoined _ List.mem_cons_self ?_ _ (by decide +kernel)
      exact (Junction.lastOf?_singleton _ _).trans (if_pos (by decide +kernel))
    · refine hone.columns' _ _ _ hjoined _ (List.mem_cons_of_mem _ List.mem_cons_self) ?_ _ (by decide +kernel)
      exact (Junction.lastOf?_singleton _ _).trans (if_pos (by decide +kernel))
  -- links of one entity
  · have hoverlap : Naming.Overlap "ABA" "BA" "ABA" "AB" := .inr ⟨"A", by decide +kernel, by decide +kernel⟩
    have hjoins := joinsByDefault_plainRelation "ABA" "BA" (by decide +kernel)
    have hjoins' := joinsByDefault_plainRelation "ABA" "AB" (by decide +kernel)
    obtain ⟨-, hlinks⟩ := sharesJunction_iff {} {} "ABA" "BA" "ABA" "AB"
    have hone := (hlinks _ _ hjoins hjoins').1 hoverlap
    have hname : defaultJunction "ABA" "BA" = "ABABA" := by decide +kernel
    rw [hname] at hone
    obtain ⟨joined, hjoined⟩ : ∃ joined, Joined {} []
      [relating [("as", plainRelation "ABA" "BA"), ("bs", plainRelation "ABA" "AB")]] joined := exists_joined (by decide +kernel)
    obtain ⟨joined', hjoined'⟩ : ∃ joined, Joined {} [] [relating [("bs", plainRelation "ABA" "AB")]] joined :=
      exists_joined (by decide +kernel)
    refine ⟨joined, joined', hjoined, hjoined', ?_⟩
    exact hone.replaced "as" _ _ [] _ rfl rfl List.mem_cons_self [] [] [] _ _ hjoined' hjoined
  -- links that share no junction
  · have hjoins := joinsByDefault_plainRelation "Account" "Contact" (by decide +kernel)
    have hjoins' := joinsByDefault_plainRelation "Account" "Lead" (by decide +kernel)
    obtain ⟨hiff, hlinks⟩ := sharesJunction_iff {} {} "Account" "Contact" "Account" "Lead"
    have hapart := (hlinks _ _ hjoins hjoins').2 (mt hiff.2 (by decide +kernel))
    have hname : defaultJunction "Account" "Contact" = "AccountContact" := by decide +kernel
    rw [hname] at hapart
    obtain ⟨joined, hjoined⟩ : ∃ joined, Joined {} [] [relating [("contacts", plainRelation "Account" "Contact"),
      ("leads", plainRelation "Account" "Lead")]] joined := exists_joined (by decide +kernel)
    obtain ⟨joined', hjoined'⟩ : ∃ joined, Joined {} [] [relating [("contacts", plainRelation "Account" "Contact")]] joined :=
      exists_joined (by decide +kernel)
    refine ⟨joined, joined', hjoined, hjoined', ?_⟩
    exact hapart.noSay "leads" _ _ ⟨[("contacts", plainRelation "Account" "Contact")], [], rfl, rfl⟩ [] [] [] _ _ hjoined' hjoined

/-- Accounts with contact leads and account contacts with leads have one junction, though no entity is in both pairs. -/
theorem exists_shared_junction :
    ¬∀ entity target entity' target' : String,
      ¬(entity = entity' ∧ target = target' ∨ entity = target' ∧ target = entity') →
        Naming.junctionEntity (Naming.relationName entity target) ≠
          Naming.junctionEntity (Naming.relationName entity' target') := by
  intro hdifferent
  refine hdifferent "Account" "ContactLead" "AccountContact" "Lead" (by decide) ?_
  decide +kernel

end EntitySchema.Schema
