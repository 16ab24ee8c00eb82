import EntitySchema.Proofs.Entity.Outcome
import EntitySchema.Proofs.Link.JunctionName

/-!
# The relations of an entity

A link has a relation unless it is left out, by itself or by its type, and there are no other relations. They stand in the order
of the links. No template of a type, no processor, no index and no search takes from a relation what its kind builds.

* `Link.isLeftOut`: a link that is left out.
* `Link.Complete`: what every relation of a kind has.
* `Link.IsRelationOf`: the entry that a link has among the relations of its entity.
* `Link.IsResolved`: the same with all that the link resolves to.
* `WithRelations`: an entity with its relations.

Results:
* `complete_of_relation`: a relation is complete, whatever the template of its type says.
* `WithRelations.correct`: corrections give an entity no relation.
* `WithRelations.relate`: links add their relations one by one.
* `WithRelations.indexed`: indexes of relations change nothing else of them.
* `Link.IsResolved.joinsByDefault`: which relations of an entity leave the name of their junction to the compiler.
* `resolved_of_compile`, `relations_of_compile`: the relations of a compiled entity.
-/
namespace EntitySchema

theorem LinkKind.word_of_ofText? {word : String} {kind : LinkKind} (h : ofText? word = some kind) : word = kind.word := by
  have hfound := List.find?_some h
  rw [beq_iff_eq] at hfound
  exact hfound.symm

namespace Link

/-! ## Links that are left out -/

/-- Whether a link is left out, by itself or by its type. -/
def isLeftOut (m : Metadata) (params : Params) : Bool :=
  match params.value "skipOrmDefs", params.value "type" with
  | .bool true, _ => true
  | _, .str word => (m.linkType word).isSkipped
  | _, _ => false

/-- A link of no kind is left out; one of a kind says its kind, and its target unless the target may be of any kind. -/
theorem kind?_cases {m : Metadata} {entity link : Value} {params : Params} {found : Option LinkKind}
    (h : kind? m entity link params = .ok found) :
    found = none ∧ isLeftOut m params = true ∨
      ∃ kind, found = some kind ∧ isLeftOut m params = false ∧ params.value "type" = .str kind.word ∧
        (kind ≠ .belongsToParent → (params.value "entity").truthy = true) := by
  unfold kind? at h
  split at h
  · rename_i hskipped
    cases h
    exact .inl ⟨rfl, by rw [isLeftOut, hskipped]⟩
  · rename_i hkept
    simp only at h
    split at h
    · cases h
    · split at h
      · cases h
      · rename_i kind hkind
        obtain ⟨word, hword, hof⟩ := Option.bind_eq_some_iff.1 hkind
        obtain rfl := LinkKind.word_of_ofText? hof
        have htype : params.value "type" = .str kind.word := by
          revert hword
          cases params.value "type" <;> simp [Value.text?]
        have hleftOut : isLeftOut m params = (m.linkType kind.word).isSkipped := by
          unfold isLeftOut
          rw [htype]
          split <;> first | exact absurd ‹_› hkept | simp_all
        split at h
        · rename_i hskipped
          cases h
          exact .inl ⟨rfl, hleftOut.trans hskipped⟩
        · rename_i hnot
          split at h
          · cases h
          · rename_i hentity
            cases h
            refine .inr ⟨kind, rfl, hleftOut.trans (by simpa using hnot), htype, fun hkind => ?_⟩
            simpa [hkind] using hentity

/-- A link is left out exactly if it is of no kind. -/
theorem isLeftOut_eq_isNone {m : Metadata} {entity link : Value} {params : Params} {found : Option LinkKind}
    (h : kind? m entity link params = .ok found) : isLeftOut m params = found.isNone := by
  rcases kind?_cases h with ⟨rfl, hleftOut⟩ | ⟨_, rfl, hkept, -⟩
  · exact hleftOut
  · exact hkept

/-! ## What relations have -/

/-- What every relation of a kind has: its kind, a target unless that may be of any kind, and if it has a junction the name and
the keys of that. -/
structure Complete (kind : LinkKind) (relation : Members Key Value) : Prop where
  type : Members.get? relation "type" = some (.str kind.word)
  entity : kind ≠ .belongsToParent → (relation.value "entity").truthy = true
  relationName : kind = .manyMany → (relation.value "relationName").truthy = true
  midKeys : kind = .manyMany → (relation.value "midKeys").truthy = true

section
variable {m : Metadata} {entity link : Value} {params : Params} {kind : LinkKind} {built : Members Key Value}

theorem junctionName_ne_empty {target : Value} {name : String} (h : junctionName entity target = .ok name)
    (htarget : target.truthy = true) : name ≠ "" := by
  unfold junctionName at h
  split at h
  · obtain ⟨own, -, h⟩ := bind_eq_ok.1 h
    obtain ⟨other, hother, h⟩ := bind_eq_ok.1 h
    cases h
    have hne : other ≠ "" := by
      rintro rfl
      unfold Value.nameText at hother
      cases target <;> simp_all [Value.truthy]
    unfold Naming.relationName
    -- the name of the target comes first with a small initial, or it comes last
    split
    · exact fun hempty => Text.uncapitalize_ne_empty hne (String.append_eq_empty_iff.1 hempty).1
    · exact fun hempty => hne (String.append_eq_empty_iff.1 hempty).2
  · cases h

theorem junctionKeys_ne_nil {keys : List String} (h : junctionKeys entity link params = .ok keys) : keys ≠ [] := by
  unfold junctionKeys at h
  obtain ⟨target, -, h⟩ := bind_eq_ok.1 h
  split at h
  · obtain ⟨own, -, h⟩ := bind_eq_ok.1 h
    obtain ⟨other, -, h⟩ := bind_eq_ok.1 h
    cases h
    simp [Naming.pairKeys]
  · split at h
    · rename_i isFirst _
      cases h
      cases isFirst <;> simp [Naming.sideKeys]
    · cases h

/-- What is given or made is given, if it can only be made so. -/
theorem truthy_of_givenOr {v found : Value} {made : Except Misuse Value} (h : givenOr v made = .ok found)
    (hmade : ∀ w, made = .ok w → w.truthy = true) : found.truthy = true := by
  unfold givenOr at h
  split at h
  · rename_i hgiven
    cases h
    exact hgiven
  · exact hmade found h

/-- A relation without a junction is complete with its kind and a target. -/
theorem Complete.of_ne_manyMany (hkind : kind ≠ .manyMany) (htype : Members.get? built "type" = some (.str kind.word))
    (hentity : kind ≠ .belongsToParent → (built.value "entity").truthy = true) : Complete kind built :=
  ⟨htype, hentity, fun h => absurd h hkind, fun h => absurd h hkind⟩

/-- What a kind builds is complete. -/
theorem complete_of_built (h : relationOf entity link params kind = .ok built)
    (htarget : kind ≠ .belongsToParent → (params.value "entity").truthy = true) : Complete kind built := by
  have hmany : ∀ {one : LinkKind}, one ≠ .manyMany → (params.value "entity").truthy = true →
      hasMany entity one params = .ok built → Complete one built := fun hjunction hgiven hbuilt => by
    obtain ⟨inverse, -, rfl⟩ := hasMany_eq_ok hbuilt
    exact .of_ne_manyMany hjunction (by simp [get?_withGiven, Members.get?_cons])
      fun _ => by simpa [Members.value, get?_withGiven, Members.get?_cons] using hgiven
  cases kind with
  | belongsTo =>
    cases h
    exact .of_ne_manyMany (by decide) (by simp [get?_withGiven, Members.get?_cons])
      fun hkind => by simpa [Members.value, get?_withGiven, Members.get?_cons] using htarget hkind
  | hasMany => exact hmany (by decide) (htarget (by decide)) h
  | hasOne => exact hmany (by decide) (htarget (by decide)) h
  | manyMany =>
    obtain ⟨name, keys, rfl, hname, hkeys⟩ := manyMany_eq_ok h
    have hentity := htarget (by decide)
    have hnamed : name.truthy = true := truthy_of_givenOr hname fun w hw => by
      obtain ⟨s, hs, rfl⟩ := map_eq_ok.1 hw
      simpa [Value.truthy] using junctionName_ne_empty hs hentity
    have hkeyed : keys.truthy = true := truthy_of_givenOr hkeys fun w hw => by
      obtain ⟨texts, htexts, rfl⟩ := map_eq_ok.1 hw
      simpa [Value.ofTexts, Value.truthy] using junctionKeys_ne_nil htexts
    exact ⟨by simp [get?_withGiven, Members.get?_cons],
      fun _ => by simpa [Members.value, get?_withGiven, Members.get?_cons] using hentity,
      fun _ => by simpa [Members.value, get?_withGiven, Members.get?_cons] using hnamed,
      fun _ => by simpa [Members.value, get?_withGiven, Members.get?_cons] using hkeyed⟩
  | hasChildren =>
    cases h
    exact .of_ne_manyMany (by decide) (by simp [hasChildren, Members.get?_cons])
      fun hkind => by simpa [hasChildren, Members.value, Members.get?_cons] using htarget hkind
  | belongsToParent =>
    cases h
    exact .of_ne_manyMany (by decide) (by simp [get?_withGiven, Members.get?_cons]) fun hkind => absurd rfl hkind

/-- A relation is complete, whatever the template of its type says and whatever the link keeps. -/
theorem complete_of_relation {found : Members Key Value} (h : Link.relation m entity link params kind = .ok found)
    (htarget : kind ≠ .belongsToParent → (params.value "entity").truthy = true) : Complete kind found := by
  obtain ⟨built, hbuilt, rfl⟩ := relation_eq_ok.1 h
  have hcomplete := complete_of_built hbuilt htarget
  obtain ⟨hd, hget⟩ := get?_foldl_keep params (distinct_relationOf hbuilt)
  have hover : ∀ key ∉ keptParams, (built.value key).truthy = true →
      ((Members.overlay (m.linkType kind.word).relationDefs (keptParams.foldl (keep params) built)).value key).truthy = true :=
    fun key hkey hbuilt => Members.truthy_overlay _ hd (by rwa [Members.value_congr (hget key hkey)])
  exact ⟨get?_relation hbuilt h (by simp [keptParams]) hcomplete.type (fun _ => Value.noConfusion),
    fun hkind => hover _ (by simp [keptParams]) (hcomplete.entity hkind),
    fun hkind => hover _ (by simp [keptParams]) (hcomplete.relationName hkind),
    fun hkind => hover _ (by simp [keptParams]) (hcomplete.midKeys hkind)⟩

/-- A relation that differs in its indexes is complete as well. -/
theorem Complete.congr {found relation : Members Key Value} (h : Complete kind found)
    (hsame : ∀ key : Key, key ≠ "indexes" → Members.get? relation key = Members.get? found key) : Complete kind relation := by
  have hvalue := fun key hkey => Members.value_congr (hsame key hkey)
  exact ⟨by rw [hsame _ (by simp), h.type], fun hkind => by rw [hvalue _ (by simp)]; exact h.entity hkind,
    fun hkind => by rw [hvalue _ (by simp)]; exact h.relationName hkind,
    fun hkind => by rw [hvalue _ (by simp)]; exact h.midKeys hkind⟩

end

/-- The entry that a link has among the relations of its entity: under its name a complete relation of its kind. -/
def IsRelationOf (link : String × Params) (entry : Key × Value) : Prop :=
  entry.1 = .text link.1 ∧ ∃ kind relation, link.2.value "type" = .str kind.word ∧ entry.2 = .object relation ∧
    Complete kind relation

/-- The entry of a link that is not left out: under its name what the link resolves to, save that its indexes may have keys. -/
structure IsResolved (m : Metadata) (entity : Value) (link : String × Params) (entry : Key × Value) : Prop where
  name : entry.1 = .text link.1
  resolved : ∃ kind found relation, kind? m entity (.str link.1) link.2 = .ok (some kind) ∧
    Link.relation m entity (.str link.1) link.2 kind = .ok found ∧ entry.2 = .object relation ∧
      ∀ key : Key, key ≠ "indexes" → Members.get? relation key = Members.get? found key

theorem IsResolved.isRelationOf {m : Metadata} {entity : Value} {link : String × Params} {entry : Key × Value}
    (h : IsResolved m entity link entry) : IsRelationOf link entry := by
  obtain ⟨hname, kind, found, relation, hkind, hfound, hentry, hsame⟩ := h
  obtain ⟨_, hone, -, htype, htarget⟩ := (kind?_cases hkind).resolve_left fun hnone => Option.some_ne_none _ hnone.1
  cases hone
  exact ⟨hname, kind, relation, htype, hentry, (complete_of_relation hfound htarget).congr hsame⟩

/-- A relation that gets indexes is what it was besides. -/
theorem IsResolved.overlay_indexes {m : Metadata} {entity : Value} {link : String × Params} {key : Key} {v : Value}
    (h : IsResolved m entity link (key, v)) (indexes : Value) :
    IsResolved m entity link (key, Value.overlay .override v (.object [("indexes", indexes)])) := by
  obtain ⟨hname, kind, found, relation, hkind, hfound, rfl, hsame⟩ := h
  refine ⟨hname, kind, found, Members.overlay relation [("indexes", indexes)], hkind, hfound, Value.overlay_object _ _ _, ?_⟩
  intro other hother
  rw [← hsame other hother]
  exact Members.get?_merge_of_none (by rw [Members.get?_cons, if_neg (by simpa [Key.text_beq] using hother)]; rfl)

/-- A many-to-many link that leaves the name of its junction to the compiler joins by default. -/
theorem IsResolved.joinsByDefault {m : Metadata} {entity target : String} {link : String × Params} {entry : Key × Value}
    (h : IsResolved m (.str entity) link entry) (hdefault : NamedByDefault target link.2)
    (htype : link.2.value "type" = .str LinkKind.manyMany.word) : JoinsByDefault m entity target entry.2 := by
  obtain ⟨-, kind, found, relation, hkind, hfound, hentry, hsame⟩ := h
  obtain hnone | hmany := kind?_eq_ok htype hkind
  · cases hnone
  · cases hmany
    rw [hentry]
    exact ⟨.str link.1, link.2, found, hdefault, hfound, hsame⟩

/-- The relations of links stand under their names. -/
theorem keys_of_isRelationOf {links : Members String Params} {relations : Members Key Value}
    (h : List.Forall₂ IsRelationOf links relations) : Members.keys relations = links.keys.map Key.text := by
  induction h with
  | nil => rfl
  | cons hentry _ ih =>
    rw [Members.keys, List.map_cons, hentry.1]
    exact congrArg _ ih

end Link

/-! ## Members that correspond to others -/

namespace Members

section
variable {κ α β : Type} [BEq κ] {R : α → κ × β → Prop} {xs : List α} {m : Members κ β}

/-- A member that gets another value corresponds to what it did, if its value may be that one. -/
theorem forall₂_set (h : List.Forall₂ R xs m) {key : κ} {old new : β} (hold : get? m key = some old)
    (hR : ∀ x k, R x (k, old) → R x (k, new)) : List.Forall₂ R xs (m.set key new) := by
  induction h with
  | nil => cases hold
  | @cons x entry _ _ hx hrest ih =>
    obtain ⟨k, v⟩ := entry
    rw [get?_cons] at hold
    rw [set]
    split at hold
    · rename_i hk
      cases hold
      rw [if_pos hk]
      exact .cons (hR x k hx) hrest
    · rename_i hk
      rw [if_neg hk]
      exact .cons hx (ih hold)

end

/-- Members that are all there already leave the others where they are. -/
theorem forall₂_overlay {α : Type} {R : α → Key × Value → Prop} {xs : List α} {lower upper : Members Key Value}
    (h : List.Forall₂ R xs lower) (hkeys : ∀ entry ∈ upper, contains lower entry.1 = true)
    (hR : ∀ entry ∈ upper, ∀ x k v, R x (k, v) → R x (k, Value.overlay .override v entry.2)) :
    List.Forall₂ R xs (lower.overlay upper) := by
  rw [overlay]
  induction upper generalizing lower with
  | nil => rwa [merge_nil]
  | cons entry rest ih =>
    obtain ⟨old, hold⟩ := Option.isSome_iff_exists.1 (hkeys entry List.mem_cons_self)
    rw [merge_cons, mergedAt_of_get? hold]
    refine ih (forall₂_set h hold fun x k => hR entry List.mem_cons_self x k old) (fun other hother => ?_)
      fun other hother => hR other (List.mem_cons_of_mem _ hother)
    rw [contains_set, hkeys other (List.mem_cons_of_mem _ hother), Bool.or_true]

end Members

/-! ## The stages of an entity -/

namespace Entity

/-- An entity with its relations. -/
def WithRelations (entity : Key) (relations schema : Members Key Value) : Prop :=
  ∃ own : Members Key Value, schema = [(entity, .object own)] ∧ Members.get? own "relations" = some (.object relations)

variable {c : Compiler} {m : Metadata} {entity : Key} {d : Definition} {relations schema schema' : Members Key Value}

/-- What lies beside the relations of an entity leaves them as they are. -/
theorem WithRelations.overlay (h : WithRelations entity relations schema) {more : Members Key Value}
    (hmore : Members.get? more "relations" = none) : WithRelations entity relations (schema.overlay [(entity, .object more)]) := by
  obtain ⟨own, rfl, hrelations⟩ := h
  exact ⟨own.overlay more, overlay_own own more, by rw [Members.overlay, Members.get?_merge_of_none hmore, hrelations]⟩

theorem WithRelations.overlay_fields (h : WithRelations entity relations schema) (fields : Members Key Value) :
    WithRelations entity relations (schema.overlay (fieldsFragment entity fields)) :=
  h.overlay (by simp [Members.get?_cons])

/-- A removal that goes below the members of an entity finds no relation, if there is none. -/
theorem WithRelations.unset (h : WithRelations entity [] schema) {path : Path} (hlength : 2 < path.length) :
    WithRelations entity [] (schema.unset path) := by
  obtain ⟨own, rfl, hrelations⟩ := h
  match path, hlength with
  | first :: second :: third :: rest, _ =>
    rw [Members.unset_cons_cons, Members.get?_cons]
    by_cases hfirst : (entity == first) = true
    · rw [if_pos hfirst]
      simp only
      rw [Members.unset_cons_cons, Members.set, if_pos hfirst]
      split
      · rename_i below hbelow
        refine ⟨_, rfl, ?_⟩
        rw [Members.get?_set]
        by_cases hsecond : (second == (.text "relations" : Key)) = true
        · rw [Members.get?_congr hsecond, hrelations] at hbelow
          cases hbelow
          rw [if_pos hsecond]
          cases rest <;> rfl
        · rw [if_neg hsecond, hrelations]
      · exact ⟨own, rfl, hrelations⟩
    · rw [if_neg hfirst]
      exact ⟨own, rfl, hrelations⟩

/-! ## Corrections -/

theorem withRelations_base (hoptions : "relations" ∉ c.config.permittedEntityOptions) (fields : Value) :
    WithRelations entity [] [(entity, .object ((base c.config d).set "fields" fields))] := by
  refine ⟨_, rfl, ?_⟩
  rw [Members.get?_set, if_neg (by simp)]
  unfold base
  refine List.foldlRecOn (motive := fun m : Members Key Value => Members.get? m "relations" = some (.object [])) _ _
    (by simp [Members.get?_cons]) fun acc hacc option hoption => ?_
  simp only
  split
  · exact hacc
  · rw [Members.get?_set, if_neg ?_]
    · exact hacc
    · rw [Key.text_beq, Key.text.injEq]
      rintro rfl
      exact hoptions hoption

theorem WithRelations.process (h : WithRelations entity [] schema) {field : String} {declared : Value}
    (hprocess : process {} entity field declared schema = .ok schema') : WithRelations entity [] schema' := by
  obtain rfl | ⟨_, _, paths, added, -, -, hadded, -, rfl⟩ := process_cases hprocess
  · exact h
  · refine WithRelations.overlay_fields ?_ added
    exact List.foldlRecOn (motive := WithRelations entity []) paths _ h fun acc hacc text htext => by
      rw [hadded.place text htext]
      exact hacc.unset (length_place entity field)

/-- The corrections of an entity give it no relation. -/
theorem WithRelations.correct (h : WithRelations entity [] schema) {fields : Members String Params}
    (hcorrect : correct {} d entity fields schema = .ok schema') : WithRelations entity [] schema' := by
  refine correct_invariant (WithRelations entity []) (fun _ _ _ _ hprocess hs => hs.process hprocess) (fun field s hs => ?_)
    (fun _ hs => hs.overlay_fields _) h hcorrect
  unfold withDefaultAttribute
  split
  · exact hs.overlay_fields _
  · exact hs

/-! ## Relations -/

/-- A link puts its relation behind the others. -/
theorem WithRelations.overlay_fragment (h : WithRelations entity relations schema) {link : String}
    (hnew : Members.get? relations (.text link) = none) (found shown : Members Key Value) :
    WithRelations entity (relations ++ [(.text link, .object found)]) (schema.overlay (Link.fragment entity link found shown)) := by
  obtain ⟨own, rfl, hrelations⟩ := h
  rw [Link.fragment, overlay_own]
  refine ⟨_, rfl, ?_⟩
  rw [Members.get?_overlay own (Link.distinct_fragment link found shown), Members.get?_cons, if_pos BEq.rfl]
  simp only [Members.mergedAt_of_get? hrelations, Value.overlay_object]
  rw [← Members.overlay, Members.overlay_singleton, Members.mergedAt_of_get?_none hnew, Members.set_of_get?_none _ hnew]

/-- A link is as new to the relations as before, when another link has put its own behind them. -/
theorem get?_append_relation {relations : Members Key Value} {link other : String} (hne : (link == other) = false)
    (hnew : Members.get? relations (.text other) = none) (v : Value) :
    Members.get? (relations ++ [(.text link, v)]) (.text other) = none := by
  rw [Members.get?_append, hnew, Members.get?_cons, if_neg ?_]
  · rfl
  · rw [Key.text_beq, Key.text.injEq]
    exact (ne_of_beq_false hne).symm

/-- The links of an entity put their relations behind those that are there, in their order, unless they are left out. -/
theorem WithRelations.relate {links : Members String Params} (h : WithRelations entity relations schema)
    (hd : Members.Distinct links) (hnew : ∀ link ∈ links, Members.get? relations (.text link.1) = none)
    (hrelate : (relate m entity links schema).result = .ok schema') :
    ∃ more, List.Forall₂ (Link.IsResolved m (.ofKey entity)) (links.filter fun link => !Link.isLeftOut m link.2) more ∧
      WithRelations entity (relations ++ more) schema' := by
  induction links generalizing relations schema with
  | nil =>
    cases hrelate
    exact ⟨[], .nil, by rwa [List.append_nil]⟩
  | cons link rest ih =>
    rw [relate_cons] at hrelate
    obtain ⟨s, hone, hrelate⟩ := bind_eq_ok.1 hrelate
    obtain ⟨compiled, added, -, hadded, rfl⟩ := relate_one_eq_ok hone
    obtain ⟨hne, hdrest⟩ := Members.distinct_cons.1 hd
    have hnewrest : ∀ other ∈ rest, Members.get? relations (.text other.1) = none := fun other hother =>
      hnew other (List.mem_cons_of_mem _ hother)
    rcases Link.resolve_cases entity hadded with ⟨hkind, rfl⟩ | ⟨kind, found, _, shown, hkind, hfound, -, -, rfl⟩
    · rw [Members.overlay, Members.merge_nil] at hrelate
      rw [List.filter_cons_of_neg (by simp [Link.isLeftOut_eq_isNone hkind])]
      exact ih h hdrest hnewrest hrelate
    · have hfirst : Members.get? relations (.text link.1) = none := hnew link List.mem_cons_self
      obtain ⟨more, hmore, hschema⟩ := ih (h.overlay_fragment hfirst found shown) hdrest
        (fun other hother => get?_append_relation (hne other hother) (hnewrest other hother) _) hrelate
      rw [List.filter_cons_of_pos (by simp [Link.isLeftOut_eq_isNone hkind])]
      refine ⟨(.text link.1, .object found) :: more, .cons ?_ hmore, ?_⟩
      · exact ⟨rfl, kind, found, found, hkind, hfound, rfl, fun _ _ => rfl⟩
      · rwa [List.append_assoc] at hschema

/-! ## Search, indexes and ordering -/

theorem WithRelations.search (h : WithRelations entity relations schema)
    (hsearch : (search c m entity d schema).result = .ok schema') : WithRelations entity relations schema' := by
  rcases search_eq_ok hsearch with rfl | ⟨-, rfl⟩
  · exact h
  · exact h.overlay (by simp [FullText.found, Members.get?_cons])

/-- The indexes of an entity leave each of its relations what it was but for indexes. -/
theorem WithRelations.indexed {c : Config} (h : WithRelations entity relations schema) {links : List (String × Params)}
    (hrelations : List.Forall₂ (Link.IsResolved m (.ofKey entity)) links relations)
    (hindexed : indexed c entity schema = .ok schema') :
    ∃ relations', List.Forall₂ (Link.IsResolved m (.ofKey entity)) links relations' ∧
      WithRelations entity relations' schema' := by
  obtain ⟨own, rfl, hown⟩ := h
  obtain ⟨compiled, found, hcompiled, hfound, rfl⟩ := indexed_eq_ok hindexed
  rw [Value.item_object (Members.get?_singleton _ _)] at hcompiled
  cases hcompiled
  obtain ⟨more, hmore, hlaid⟩ := Index.get?_relations_overlay hfound hown
  obtain ⟨hkeys, hentries⟩ := Index.allRelationIndexes_eq_ok hmore
  refine ⟨relations.overlay more, Members.forall₂_overlay hrelations (fun entry he => ?_) (fun entry he link key v hv => ?_),
    _, overlay_own own found, hlaid⟩
  · obtain ⟨other, hother, hname⟩ := List.mem_map.1 (hkeys.subset (List.mem_map_of_mem (f := Prod.fst) he))
    exact Members.contains_iff_exists.2 ⟨other, hother, by rw [hname, BEq.rfl]⟩
  · obtain ⟨indexes, hindexes⟩ := hentries entry he
    rw [hindexes]
    exact hv.overlay_indexes _

theorem WithRelations.ordered (h : WithRelations entity relations schema) (hordered : ordered entity d schema = .ok schema') :
    WithRelations entity relations schema' := by
  obtain ⟨own, rfl, hrelations⟩ := h
  obtain ⟨own', rfl, hget⟩ := ordered_own hordered
  exact ⟨own', rfl, by rw [hget _ (by simp), hrelations]⟩

/-! ## The whole -/

/-- The relations of a compiled entity are what its links resolve to, the declared ones over those that its fields add, in their
order and without those that are left out. -/
theorem resolved_of_compile (hc : c.registry = {}) (hoptions : "relations" ∉ c.config.permittedEntityOptions)
    (h : (compile c m entity d).result = .ok schema) :
    ∃ added own relations, contributedLinks m d = .ok added ∧ schema = [(entity, .object own)] ∧
      Members.get? own "relations" = some (.object relations) ∧
        List.Forall₂ (Link.IsResolved m (.ofKey entity))
          ((layered added d.links).filter fun link => !Link.isLeftOut m link.2) relations := by
  obtain ⟨links, declared, resolved, corrected, related, searched, withIndexes, hlinks, -, -, hcorrected, hrelated, hsearched,
    hindexed, hordered⟩ := compile_eq_ok h
  rw [hc] at hcorrected
  have hempty := (withRelations_base (d := d) hoptions (.object (Params.toObjects resolved))).correct hcorrected
  obtain ⟨relations, hrelations, hwith⟩ := hempty.relate (distinct_links hlinks) (fun _ _ => rfl) hrelated
  rw [List.nil_append] at hwith
  obtain ⟨relations', hrelations', hwith⟩ := (hwith.search hsearched).indexed hrelations hindexed
  obtain ⟨own, hschema, hown⟩ := hwith.ordered hordered
  obtain ⟨added, hadded, rfl⟩ := map_eq_ok.1 hlinks
  exact ⟨added, own, relations', hadded, hschema, hown, hrelations'⟩

/-- The relations of a compiled entity are those of its links, the declared ones over those that its fields add, in their order:
each link has its relation unless it is left out, and each relation is complete, whatever the templates say. -/
theorem relations_of_compile (hc : c.registry = {}) (hoptions : "relations" ∉ c.config.permittedEntityOptions)
    (h : (compile c m entity d).result = .ok schema) :
    ∃ added own relations, contributedLinks m d = .ok added ∧ schema = [(entity, .object own)] ∧
      Members.get? own "relations" = some (.object relations) ∧
        List.Forall₂ Link.IsRelationOf ((layered added d.links).filter fun link => !Link.isLeftOut m link.2) relations := by
  obtain ⟨added, own, relations, hadded, hschema, hown, hrelations⟩ := resolved_of_compile hc hoptions h
  exact ⟨added, own, relations, hadded, hschema, hown, hrelations.imp fun _ _ hresolved => hresolved.isRelationOf⟩

/-! ## An album -/

/-- A type of fields that add links, a template that contradicts all that it can, and a type of links that are left out. -/
def albumTypes : Metadata where
  fieldTypes := [("file", ⟨[("linkDefs", .object [("type", .str LinkKind.belongsTo.word), ("entity", .str "Attachment")])]⟩)]
  linkTypes := [
    (LinkKind.manyMany.word, ⟨[("relationDefs", .object [("type", .object []), ("entity", .null), ("relationName", .int 0),
      ("midKeys", .list [])])]⟩),
    (LinkKind.hasOne.word, ⟨[("skipOrmDefs", .bool true)]⟩)]

/-- An album with tags; the links to its owner and to its archive are left out. -/
def album : Definition :=
  ⟨[("fields", .object [("cover", .object [("type", .str "file")])]),
    ("links", .object [
      ("tags", .object [("type", .str LinkKind.manyMany.word), ("entity", .str "Tag")]),
      ("owner", .object [("type", .str LinkKind.hasOne.word), ("entity", .str "User")]),
      ("archive", .object [("skipOrmDefs", .bool true)])])]⟩

theorem relations_of_compile_album :
    ∃ own relations, (compile {} albumTypes (.text "Album") album).result = .ok [(.text "Album", .object own)] ∧
      Members.get? own "relations" = some (.object relations) ∧ Members.keys relations = [.text "cover", .text "tags"] := by
  have hgives : gives (compile {} albumTypes (.text "Album") album).result (fun _ => true) = true := by decide +kernel
  obtain ⟨schema, hschema, -⟩ := gives_iff.1 hgives
  obtain ⟨added, own, relations, hadded, rfl, hown, hrelations⟩ := relations_of_compile rfl (by decide) hschema
  have hlinks : gives (contributedLinks albumTypes album) (fun added =>
      Members.keys ((layered added album.links).filter fun link => !Link.isLeftOut albumTypes link.2) == ["cover", "tags"]) =
        true := by decide +kernel
  obtain ⟨added', hadded', hnames⟩ := gives_iff.1 hlinks
  cases hadded.symm.trans hadded'
  exact ⟨own, relations, hschema, hown, (Link.keys_of_isRelationOf hrelations).trans (by rw [eq_of_beq hnames]; rfl)⟩

end Entity

end EntitySchema
