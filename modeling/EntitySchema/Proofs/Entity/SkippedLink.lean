import EntitySchema.Proofs.Entity.Indexes
import EntitySchema.Proofs.Entity.Relations

/-!
# A link that is left out

A link asks to be left out, or its type does. Put anywhere among the links of an entity, under a name of its own, it is read
twice, for the fields that it implies and for its relation, and adds nothing either time. So the entity compiles to the same as
without it, or fails by the same error.

* `Link.IsSkipped`: a link that is left out, whatever it lacks otherwise.
* `Definition.WithLink`: a definition, and the same with one more link.

Results:
* `Link.kind?_of_isSkipped`: such a link has no kind and no error.
* `withOne_merge`, `withOne_layered`: one more among the upper members is one more in the end.
* `impliedFields_withOne`, `relate_withOne`: the link implies no field and relates to nothing.
* `compile_withLink`: what an entity compiles to does not depend on it.
-/
namespace EntitySchema

open Members (WithOne)

/-! ## Links of no kind -/

namespace Link

variable {m : Metadata} {params : Params}

/-- A link that asks to be left out, or one of a kind whose type asks for it. -/
def IsSkipped (m : Metadata) (params : Params) : Prop :=
  params.value "skipOrmDefs" = .bool true ∨
    ∃ kind : LinkKind, params.value "type" = .str kind.word ∧ (m.linkType kind.word).isSkipped = true

/-- A link that is left out has no kind, and nothing that it lacks is an error. -/
theorem kind?_of_isSkipped (h : IsSkipped m params) (entity link : Value) : kind? m entity link params = .ok none := by
  unfold kind?
  split
  · rfl
  · rename_i hkept
    obtain ⟨kind, htype, hskipped⟩ := h.resolve_left hkept
    have hgiven : (Value.str kind.word).truthy = true := by cases kind <;> rfl
    have hkind : (Value.str kind.word).text?.bind LinkKind.ofText? = some kind := LinkKind.ofText?_word kind
    simp only [htype, hgiven, hkind, hskipped, Bool.not_true, Bool.false_eq_true, if_false, if_true]

theorem impliedFields_of_isSkipped (h : IsSkipped m params) (c : Config) (entity link : Value) :
    impliedFields c m entity link params = .ok [] := by
  rw [impliedFields, kind?_of_isSkipped h]
  rfl

theorem resolve_of_isSkipped (h : IsSkipped m params) (entity link compiled : Value) :
    (resolve m entity link params compiled).result = .ok [] := by
  unfold resolve
  rw [kind?_of_isSkipped h]
  rfl

end Link

/-! ## One more among members -/

namespace Members

variable {mode : MergeMode} {lower lower' upper upper' : Members Key Value} {entry : Key × Value}

/-- Other members are laid over those beside the one more. -/
theorem WithOne.merge (h : WithOne entry lower lower') (hother : ∀ other ∈ upper, (entry.1 == other.1) = false) :
    WithOne entry (merge mode lower upper) (merge mode lower' upper) := by
  induction upper generalizing lower lower' with
  | nil => rwa [merge_nil, merge_nil]
  | cons other rest ih =>
    obtain ⟨hne, hrest⟩ := List.forall_mem_cons.1 hother
    rw [merge_cons, merge_cons, mergedAt_congr (h.get?_eq hne)]
    exact ih (h.set hne _) hrest

/-- One more among the upper members, under a key that is free on both sides, is one more in the end. -/
theorem withOne_merge (h : WithOne entry upper upper') (hlower : get? lower entry.1 = none) (hupper : get? upper entry.1 = none) :
    WithOne entry (merge mode lower upper) (merge mode lower upper') := by
  obtain ⟨front, back, rfl, rfl⟩ := h
  rw [get?_append, Option.or_eq_none_iff] at hupper
  have hmerged : get? (merge mode lower front) entry.1 = none := get?_merge_eq_none_iff.2 ⟨hlower, hupper.1⟩
  rw [merge_append, merge_append, merge_cons, mergedAt_of_get?_none hmerged, set_of_get?_none _ hmerged]
  refine WithOne.merge ⟨_, [], (List.append_nil _).symm, rfl⟩ fun other hother => ?_
  rw [BEq.comm]
  exact get?_eq_none_iff.1 hupper.2 other hother

end Members

namespace Params

variable {link : String × Params} {ps ps' : Members String Params}

theorem withOne_toObjects (h : WithOne link ps ps') :
    WithOne (Key.text link.1, .object link.2) (toObjects ps) (toObjects ps') := by
  obtain ⟨front, back, rfl, rfl⟩ := h
  exact ⟨toObjects front, toObjects back, by simp [toObjects, Members.keyed], by simp [toObjects, Members.keyed]⟩

theorem withOne_ofObjects {m m' : Members Key Value} (h : WithOne (Key.text link.1, .object link.2) m m') :
    WithOne link (ofObjects m) (ofObjects m') := by
  obtain ⟨front, back, rfl, rfl⟩ := h
  refine ⟨ofObjects front, ofObjects back, by simp [ofObjects, Members.named], ?_⟩
  simp [ofObjects, Members.named, Key.text?]

end Params

/-! ## One more link -/

/-- A definition, and the same with one more among its links. -/
structure Definition.WithLink (link : String × Params) (d d' : Definition) : Prop where
  links : WithOne link d.links d'.links
  rest : ∀ key ≠ Key.text "links", d'.body.value key = d.body.value key

namespace Definition.WithLink

variable {link : String × Params} {d d' : Definition}

theorem fields_eq (h : WithLink link d d') : d'.fields = d.fields := by
  rw [Definition.fields, h.rest _ (by simp)]
  rfl

theorem field_eq (h : WithLink link d d') : d'.field = d.field := by
  funext name
  rw [Definition.field, h.fields_eq]
  rfl

theorem collection_eq (h : WithLink link d d') : d'.collection = d.collection := by
  rw [Definition.collection, h.rest _ (by simp)]
  rfl

theorem isStream_eq (h : WithLink link d d') : d'.isStream = d.isStream := by
  rw [Definition.isStream, h.rest _ (by simp)]
  rfl

/-- A link may be put anywhere among the links of a definition. -/
theorem of_append {front back : Members String Params} (h : d.links = front ++ back) (link : String × Params) :
    WithLink link d ⟨d.body.set "links" (.object (Params.toObjects (front ++ link :: back)))⟩ := by
  refine ⟨⟨front, back, h, ?_⟩, fun key hkey => ?_⟩
  · rw [Definition.links, Members.value_set, if_pos BEq.rfl, Value.members_object, Params.ofObjects_toObjects]
  · rw [Members.value_set, if_neg]
    rw [Key.text_beq]
    exact hkey

end Definition.WithLink

namespace Entity

variable {c : Compiler} {m : Metadata} {entity : Key} {link : String × Params}
  {lower upper upper' links links' : Members String Params} {d d' : Definition} {schema : Members Key Value}

/-- One more among the upper parameters, under a name that is free on both sides, is one more in the end. -/
theorem withOne_layered (h : WithOne link upper upper') (hlower : Members.contains lower link.1 = false)
    (hupper : Members.contains upper link.1 = false) : WithOne link (layered lower upper) (layered lower upper') := by
  have hfree : ∀ {ps : Members String Params}, Members.contains ps link.1 = false →
      Members.get? (Params.toObjects ps) (.text link.1) = none := fun {ps} hps => by
    rw [Params.get?_toObjects, Option.map_eq_none_iff]
    simpa [Members.contains] using hps
  exact Params.withOne_ofObjects (Members.withOne_merge (Params.withOne_toObjects h) (hfree hlower) (hfree hupper))

theorem contributedLinks_withLink (h : d.WithLink link d') : contributedLinks m d' = contributedLinks m d := by
  rw [contributedLinks, h.fields_eq]
  rfl

/-! ## Fields and relations -/

/-- A link that is left out implies no field. -/
theorem impliedFields_withOne (h : WithOne link links links') (hskipped : Link.IsSkipped m link.2) (c : Config) :
    impliedFields c m entity links' = impliedFields c m entity links := by
  obtain ⟨front, back, rfl, rfl⟩ := h
  unfold impliedFields
  rw [List.foldlM_append, List.foldlM_append]
  refine bind_congr fun acc => ?_
  have hsame : layered acc (Params.ofObjects []) = acc := by
    show Params.ofObjects (Members.overlay (Params.toObjects acc) []) = acc
    rw [Members.overlay, Members.merge_nil, Params.ofObjects_toObjects]
  rw [List.foldlM_cons, Link.impliedFields_of_isSkipped hskipped, ok_bind, hsame]
  rfl

theorem fields_withLink (h : d.WithLink link d') (hlinks : WithOne link links links') (hskipped : Link.IsSkipped m link.2)
    (c : Config) : fields c m entity d' links' = fields c m entity d links := by
  unfold fields
  rw [impliedFields_withOne hlinks hskipped, h.fields_eq]

/-- A link that is left out relates an entity to nothing. -/
theorem relate_of_isSkipped (hskipped : Link.IsSkipped m link.2) {own : Members Key Value} :
    (relate m entity [link] [(entity, .object own)]).result = .ok [(entity, .object own)] := by
  have hitem : (Value.object [(entity, .object own)]).item entity = .ok (.object own) :=
    Value.item_object (Members.get?_singleton _ _)
  unfold relate
  rw [List.foldlM_cons, Run.bind_of_ok (a := [(entity, .object own)])]
  · rfl
  · refine Run.result_bind_eq_ok.2 ⟨.object own, Run.lift_eq_ok.2 hitem, Run.result_bind_eq_ok.2 ⟨[], ?_, ?_⟩⟩
    · exact Link.resolve_of_isSkipped hskipped _ _ _
    · rw [Members.overlay, Members.merge_nil]
      rfl

/-- Links before and after one that is left out relate an entity as they do without it. -/
theorem relate_withOne (h : WithOne link links links') (hskipped : Link.IsSkipped m link.2) {own : Members Key Value} :
    (relate m entity links' [(entity, .object own)]).result = (relate m entity links [(entity, .object own)]).result := by
  obtain ⟨front, back, rfl, rfl⟩ := h
  rw [relate_append, relate_append]
  cases hfront : (relate m entity front [(entity, .object own)]).result with
  | error e => rfl
  | ok s =>
    -- after the links before it there is still one entity, in which the link is resolved
    obtain ⟨own', rfl, -⟩ := Declares.relate ⟨own, rfl, rfl⟩ hfront
    rw [ok_bind, ok_bind, relate_cons, relate_of_isSkipped hskipped, ok_bind]

/-! ## What else is read of a definition -/

theorem seeds_withLink (h : d.WithLink link d') : seeds d' = seeds d := by
  unfold seeds
  rw [h.field_eq]

theorem base_withLink {c : Config} (h : d.WithLink link d') (hoptions : "links" ∉ c.permittedEntityOptions) :
    base c d' = base c d := by
  unfold base
  refine List.foldl_ext _ _ _ fun acc option hoption => ?_
  rw [h.rest]
  rw [ne_eq, Key.text.injEq]
  rintro rfl
  exact hoptions hoption

theorem correct_withLink (h : d.WithLink link d') (r : Registry) (fields : Members String Params) :
    correct r d' entity fields schema = correct r d entity fields schema := by
  have hfield : correctField r d' entity = correctField r d entity := by
    unfold correctField withDefaultAttribute
    rw [h.field_eq]
  unfold correct
  rw [hfield, h.isStream_eq, h.fields_eq]

theorem search_withLink (h : d.WithLink link d') : search c m entity d' schema = search c m entity d schema := by
  have hcolumns : FullText.columns c.config m d' = FullText.columns c.config m d := by
    unfold FullText.columns FullText.filteredFields FullText.fieldColumns
    rw [h.collection_eq, h.field_eq]
  unfold search FullText.fragment
  rw [hcolumns, h.collection_eq]

theorem ordered_withLink (h : d.WithLink link d') : ordered entity d' schema = ordered entity d schema := by
  unfold ordered
  rw [h.collection_eq]

/-! ## The whole -/

/-- A link that is left out, under a name that is new among the declared links and those that fields add, changes nothing of
what an entity compiles to, and nothing of the error if it does not. -/
theorem compile_withLink (hc : c.registry = {}) (hoptions : "links" ∉ c.config.permittedEntityOptions)
    (h : d.WithLink link d') (hnew : Members.contains d.links link.1 = false)
    (hadded : ∀ added, contributedLinks m d = .ok added → Members.contains added link.1 = false)
    (hskipped : Link.IsSkipped m link.2) : (compile c m entity d').result = (compile c m entity d).result := by
  unfold compile links
  rw [contributedLinks_withLink h]
  cases hcontributed : contributedLinks m d with
  | error cause => rfl
  | ok added =>
    have hlinks := withOne_layered h.links (hadded added hcontributed) hnew
    have hall : ∀ declared : Definition,
        (liftM ((Except.ok added : Except Misuse _).map fun added => layered added declared.links) :
          Run (Members String Params)).result = .ok (layered added declared.links) := fun _ => rfl
    simp only [Run.result_bind, hall, ok_bind, fields_withLink h hlinks hskipped, seeds_withLink h, base_withLink h hoptions,
      correct_withLink h, search_withLink h, ordered_withLink h]
    refine bind_congr fun declared => bind_congr fun resolved => ?_
    rw [hc]
    cases hcorrected : correct {} d entity resolved
        [(entity, .object ((base c.config d).set "fields" (.object (Params.toObjects resolved))))] with
    | error cause => rfl
    | ok corrected =>
      obtain ⟨own, rfl, -⟩ := Declares.correct ⟨_, rfl, rfl⟩ hcorrected
      show (relate m entity (layered added d'.links) [(entity, .object own)]).result >>= _ = _
      rw [relate_withOne hlinks hskipped]
      rfl

/-- A link to one producer that does not say of which entity: its type is left out in an album. -/
def producer : String × Params :=
  ("producer", [("type", .str LinkKind.hasOne.word)])

/-- An album with that link between its tags and its owner. -/
def producedAlbum : Definition :=
  ⟨album.body.set "links" (.object (Params.toObjects (album.links.take 1 ++ producer :: album.links.drop 1)))⟩

theorem compile_withLink_producer : Members.keys producedAlbum.links = ["tags", "producer", "owner", "archive"] ∧
    ∃ schema, (compile {} albumTypes (.text "Album") album).result = .ok schema ∧
      (compile {} albumTypes (.text "Album") producedAlbum).result = .ok schema := by
  have hgives : gives (compile {} albumTypes (.text "Album") album).result (fun _ => true) = true := by decide +kernel
  obtain ⟨schema, hschema, -⟩ := gives_iff.1 hgives
  have hadded : gives (contributedLinks albumTypes album) (fun added => Members.contains added "producer" == false) = true := by
    decide +kernel
  obtain ⟨added, hcontributed, hfree⟩ := gives_iff.1 hadded
  have huncontributed : ∀ other, contributedLinks albumTypes album = .ok other → Members.contains other producer.1 = false := by
    intro other hother
    cases hcontributed.symm.trans hother
    exact eq_of_beq hfree
  have hwith : album.WithLink producer producedAlbum := .of_append (List.take_append_drop 1 _).symm producer
  have hsame : (compile {} albumTypes (.text "Album") producedAlbum).result =
      (compile {} albumTypes (.text "Album") album).result :=
    compile_withLink rfl (by decide) hwith (by decide) huncontributed (.inr ⟨.hasOne, rfl, rfl⟩)
  exact ⟨by decide, schema, hschema, hsame.trans hschema⟩

end Entity

end EntitySchema
