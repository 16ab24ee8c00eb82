import EntitySchema.Proofs.Entity.Outcome
import EntitySchema.Proofs.Link.Template
import EntitySchema.Proofs.Tree.Frame

/-!
# What the stages of an entity leave alone

The stages that compile an entity lay fragments over its schema. Each reaches some places only: processors the fields they are
made for and a few longer names, links their relations and fields that are new, indexes the indexes. What stands anywhere else
stands there at the end.

* `attributePlace`, `relationPlace`: where an attribute of a field and a member of a relation stand.
* `SparedBy`: a field that the processor of another one leaves alone.

Results:
* `Stands.correct`: the corrections leave the attributes of spared fields alone.
* `Stands.relate_field`, `Stands.relate_relation`: links leave fields that are there alone, and the relations of other links.
* `stands_relate`: what the relation of a link says stands in the schema.
* `Stands.finish`: search, indexes and ordering leave both alone.
* `stands_compile_relation`: what the relation of a link says stands in a compiled entity.
-/
namespace EntitySchema

namespace Path

theorem splitDots_of_plain {cs : List Char} (h : '.' ∉ cs) : splitDots cs = [cs] := by
  induction cs with
  | nil => rfl
  | cons c rest ih =>
    rw [List.mem_cons, not_or] at h
    rw [splitDots, ih h.2]
    exact if_neg fun hc => h.1 hc.symm

/-- A text without a dot writes one key. -/
theorem ofDotted_of_plain {text : String} (h : '.' ∉ text.toList) : ofDotted text = [Key.text text] := by
  rw [ofDotted, splitDots_of_plain h]
  simp

/-- The path of a field of an entity, if neither name has a dot. -/
theorem ofDotted_field_of_plain {name field : String} (hname : '.' ∉ name.toList) (hfield : '.' ∉ field.toList) :
    ofDotted (name ++ ".fields." ++ field) = [Key.text name, "fields", Key.text field] := by
  have htoList : (name ++ ".fields." ++ field).toList = name.toList ++ '.' :: ("fields".toList ++ '.' :: field.toList) := by
    rw [String.toList_append, String.toList_append]
    simp
  have hfields : splitDots "fields".toList = ["fields".toList] := by decide
  unfold ofDotted
  rw [htoList, splitDots_append, splitDots_append, hfields, splitDots_of_plain hname, splitDots_of_plain hfield]
  simp

end Path

namespace Entity

/-- Where an attribute of a field stands. -/
def attributePlace (entity field : String) (member : Key) : Path :=
  [.text entity, "fields", .text field, member]

/-- Where a member of a relation stands. -/
def relationPlace (entity link : String) (member : Key) : Path :=
  [.text entity, "relations", .text link, member]

/-! ## Corrections -/

/-- A field that the processor for the type of another one leaves alone: there is no such processor, or the field has none of
the names that it touches. -/
def SparedBy (entity column field : String) (type : Value) : Prop :=
  (∀ key, type.key = .ok key → Members.get? Processor.builtins key = none) ∨
    (∀ suffix ∈ Processor.suffixes, field ++ suffix ≠ column) ∧
      (type = .str "linkMultiple" → '.' ∉ entity.toList ∧ '.' ∉ field.toList)

end Entity

section
open Entity
variable {entity column field link : String} {member : Key} {schema schema' : Members Key Value} {v : Value}

/-- Fields of other names leave a field alone. -/
theorem Stands.overlay_fields (h : Stands schema (attributePlace entity column member) v) {fields : Members Key Value}
    (hfields : Members.get? fields (.text column) = none) :
    Stands (schema.overlay (fieldsFragment (.text entity) fields)) (attributePlace entity column member) v :=
  h.overlay (Value.spares_singleton fun _ => Value.spares_singleton fun _ => Value.spares_of_get?_none hfields)

/-- A value whose key is a text is that text. -/
theorem Value.key_eq_text {v : Value} {s : String} (h : v.key = .ok (.text s)) : v = .str s := by
  unfold Value.key at h
  cases v <;> simp_all [Value.scalar?]

theorem Stands.process (h : Stands schema (attributePlace entity column member) v) {type : Value}
    (hspared : SparedBy entity column field type) (hprocess : process {} (.text entity) field type schema = .ok schema') :
    Stands schema' (attributePlace entity column member) v := by
  obtain rfl | ⟨key, p, paths, added, hkey, hbuiltin, hadded, hmakes, rfl⟩ := process_cases hprocess
  · exact h
  rcases hspared with hnone | ⟨hnames, hdots⟩
  · rw [hnone key hkey] at hbuiltin
    cases hbuiltin
  have hne : field ≠ column := by
    have hself := hnames "" (by simp [Processor.suffixes])
    rwa [String.append_empty] at hself
  refine Stands.overlay_fields ?_ ?_
  · -- the field of many links is taken away, and its path turns off at the name of the field
    refine List.foldlRecOn (motive := fun s => Stands s (attributePlace entity column member) v) paths _ h
      fun acc hacc text htext => hacc.unset ?_
    obtain ⟨hentity, hfield⟩ := hdots (Value.key_eq_text (hmakes.many text htext ▸ hkey))
    have hdisplay : (Key.text entity).display = entity := rfl
    rw [hadded.place text htext, hdisplay, Path.ofDotted_field_of_plain hentity hfield]
    intro _ _ hcolumn
    exact absurd (Key.text.inj (Key.text_beq.1 hcolumn)) (Ne.symm hne)
  · refine Members.get?_eq_none_iff.2 fun entry he => ?_
    obtain ⟨suffix, hsuffix, _, _, rfl⟩ := hmakes.fields entry he
    rw [← Bool.not_eq_true, Key.text_beq, Key.text.injEq]
    exact fun hsame => hnames suffix hsuffix hsame.symm

/-- A default that a field gives to itself touches no other attribute of any field. -/
theorem Stands.withDefaultAttribute (h : Stands schema (attributePlace entity column member) v)
    (hmember : member ≠ "default") (d : Definition) (field : String) :
    Stands (withDefaultAttribute d (.text entity) field schema) (attributePlace entity column member) v := by
  unfold Entity.withDefaultAttribute
  split
  · refine h.overlay (Value.spares_singleton fun _ => Value.spares_singleton fun _ => Value.spares_singleton fun _ => ?_)
    refine Value.spares_of_get?_none ?_
    rw [Members.get?_cons, if_neg (by simpa [Key.text_beq] using hmember)]
    rfl
  · exact h

/-- The corrections leave the attributes of a field alone that is spared by all processors and is none of a followed entity. -/
theorem Stands.correct (h : Stands schema (attributePlace entity column member) v) (hmember : member ≠ "default")
    {d : Definition} {fields : Members String Params}
    (hspared : ∀ one ∈ fields, SparedBy entity column one.1 (one.2.value "type"))
    (hstream : Members.get? streamFields (.text column) = none)
    (hcorrect : correct {} d (.text entity) fields schema = .ok schema') :
    Stands schema' (attributePlace entity column member) v :=
  correct_invariant (fun s => Stands s (attributePlace entity column member) v)
    (fun one hone _ _ hprocess hs => hs.process (hspared one hone) hprocess)
    (fun field _ hs => hs.withDefaultAttribute hmember d field) (fun _ hs => hs.overlay_fields hstream) h hcorrect

/-! ## Relations -/

/-- The fields that show columns of a junction are new. -/
theorem Link.get?_attributeFields_none {params : Params} {fields shown : Members Key Value}
    (h : Link.attributeFields params (.object fields) = .ok shown) {key : Key} (hkey : Members.contains fields key = true) :
    Members.get? shown key = none := by
  unfold Link.attributeFields at h
  obtain ⟨map, -, h⟩ := bind_eq_ok.1 h
  refine foldlM_invariant (fun m => Members.get? m key = none) (fun m entry m' _ hm hstep => ?_) rfl h
  obtain ⟨holds, hholds, hstep⟩ := bind_eq_ok.1 hstep
  cases holds with
  | true => cases hstep; exact hm
  | false =>
    obtain ⟨type, -, hstep⟩ := bind_eq_ok.1 hstep
    obtain ⟨name, hname, hstep⟩ := bind_eq_ok.1 hstep
    cases hstep
    have hlacks : (Value.object fields).holds entry.2 = entry.2.key.map (Members.contains fields) := rfl
    rw [hlacks, hname] at hholds
    have hnot : Members.contains fields name = false := Except.ok.inj hholds
    rw [Members.get?_set, if_neg ?_]
    · exact hm
    · intro hsame
      rw [Members.contains, Members.get?_congr hsame] at hnot
      rw [Members.contains, hnot] at hkey
      cases hkey

/-- The fields of an entity in which an attribute of a field stands. -/
theorem Entity.contains_of_stands (h : Stands schema (attributePlace entity column member) v) {compiled fields : Value}
    (hitem : (Value.object schema).item (.text entity) = .ok compiled) (hfields : Link.fieldsIn compiled = .ok fields) :
    ∃ m : Members Key Value, fields = .object m ∧ Members.contains m (.text column) = true := by
  obtain ⟨own, hown, h⟩ := stands_cons.1 h
  obtain ⟨_, hobject, hget⟩ := Value.item_eq_ok hitem
  cases hobject
  cases hown.symm.trans hget
  obtain ⟨members, below, rfl, hbelow, h⟩ := Value.at?_cons_eq_some.1 h
  obtain ⟨m, attributes, rfl, hm, -⟩ := Value.at?_cons_eq_some.1 h
  refine ⟨m, ?_, by rw [Members.contains, hm]; rfl⟩
  obtain ⟨opened, hopened, rfl⟩ := map_eq_ok.1 hfields
  cases hopened
  have hkey : Members.get? members (.text "fields") = some (.object m) := hbelow
  rw [hkey]
  rfl

/-- The relation of a link with fields that are new leaves fields that are there alone. -/
theorem Stands.overlay_fragment_field (h : Stands schema (attributePlace entity column member) v) {found shown : Members Key Value}
    (hshown : Members.get? shown (.text column) = none) :
    Stands (schema.overlay (Link.fragment (.text entity) link found shown)) (attributePlace entity column member) v := by
  refine h.overlay (Value.spares_singleton fun _ => ⟨_, rfl, fun entry he hkey => ?_⟩)
  rcases List.mem_cons.1 he with rfl | he
  · exact absurd (Key.text.inj (Key.text_beq.1 hkey)) (by decide)
  · split at he
    · cases he
    · rw [List.mem_singleton] at he
      subst he
      exact Value.spares_of_get?_none hshown

/-- The relation of a link leaves the relations of other links alone. -/
theorem Stands.overlay_fragment_relation (h : Stands schema (relationPlace entity column member) v)
    {found shown : Members Key Value} (hlink : link ≠ column) :
    Stands (schema.overlay (Link.fragment (.text entity) link found shown)) (relationPlace entity column member) v := by
  refine h.overlay (Value.spares_singleton fun _ => ⟨_, rfl, fun entry he hkey => ?_⟩)
  rcases List.mem_cons.1 he with rfl | he
  · exact Value.spares_singleton fun hsame => absurd (Key.text.inj (Key.text_beq.1 hsame)) hlink.symm
  · split at he
    · cases he
    · rw [List.mem_singleton] at he
      subst he
      exact absurd (Key.text.inj (Key.text_beq.1 hkey)) (by decide)

/-- What the relation of a link says stands in the schema that it joins, if it is no object. -/
theorem stands_overlay_fragment (schema : Members Key Value) {found shown : Members Key Value} (hd : Members.Distinct found)
    (hfound : Members.get? found member = some v) (hv : ∀ m, v ≠ .object m) :
    Stands (schema.overlay (Link.fragment (.text entity) link found shown)) (relationPlace entity link member) v := by
  have hrelation : (Value.object found).Writes [member] v := ⟨found, v, rfl, hd, hfound, rfl⟩
  refine stands_overlay_of_writes schema (Value.Writes.singleton ?_ _) hv
  exact ⟨_, .object [(.text link, .object found)], rfl, Link.distinct_fragment link found shown,
    by rw [Members.get?_cons, if_pos BEq.rfl], hrelation.singleton _⟩

/-- Links leave the fields of their entity that are there alone. -/
theorem Stands.relate_field (h : Stands schema (attributePlace entity column member) v) {m : Metadata}
    {links : Members String Params} (hrelate : (relate m (.text entity) links schema).result = .ok schema') :
    Stands schema' (attributePlace entity column member) v := by
  refine Run.foldlM_invariant (fun s => Stands s (attributePlace entity column member) v)
    (fun s one s' _ hs hstep => ?_) h hrelate
  obtain ⟨compiled, added, hitem, hadded, rfl⟩ := exists_of_relate_one hstep
  rcases Link.resolve_cases _ hadded with ⟨-, rfl⟩ | ⟨kind, found, fields, shown, -, -, hfields, hshown, rfl⟩
  · rw [Members.overlay, Members.merge_nil]
    exact hs
  · obtain ⟨own, rfl, hcontains⟩ := contains_of_stands hs hitem hfields
    exact hs.overlay_fragment_field (Link.get?_attributeFields_none hshown hcontains)

/-- Links leave the relations of links of other names alone. -/
theorem Stands.relate_relation (h : Stands schema (relationPlace entity column member) v) {m : Metadata}
    {links : Members String Params} (hlinks : ∀ one ∈ links, one.1 ≠ column)
    (hrelate : (relate m (.text entity) links schema).result = .ok schema') :
    Stands schema' (relationPlace entity column member) v := by
  refine Run.foldlM_invariant (fun s => Stands s (relationPlace entity column member) v)
    (fun s one s' hone hs hstep => ?_) h hrelate
  obtain ⟨compiled, added, hitem, hadded, rfl⟩ := exists_of_relate_one hstep
  rcases Link.resolve_cases _ hadded with ⟨-, rfl⟩ | ⟨kind, found, fields, shown, -, -, -, -, rfl⟩
  · rw [Members.overlay, Members.merge_nil]
    exact hs
  · exact hs.overlay_fragment_relation (hlinks one hone)

/-- What the relation of a link that is not left out says stands in the schema, if it is no object. -/
theorem stands_relate {m : Metadata} {links : Members String Params} (hd : Members.Distinct links) {params : Params}
    (hlink : (link, params) ∈ links) {kind : LinkKind} (hkind : Link.kind? m (.str entity) (.str link) params = .ok (some kind))
    (hv : ∀ below, v ≠ .object below)
    (hfound : ∀ found, Link.relation m (.str entity) (.str link) params kind = .ok found →
      Members.Distinct found ∧ Members.get? found member = some v)
    (hrelate : (relate m (.text entity) links schema).result = .ok schema') :
    Stands schema' (relationPlace entity link member) v := by
  obtain ⟨before, after, rfl⟩ := List.append_of_mem hlink
  rw [relate_append] at hrelate
  obtain ⟨s, -, hrelate⟩ := bind_eq_ok.1 hrelate
  rw [relate_cons] at hrelate
  obtain ⟨s', hone, hrelate⟩ := bind_eq_ok.1 hrelate
  obtain ⟨compiled, added, -, hadded, rfl⟩ := relate_one_eq_ok hone
  have hafter : ∀ one ∈ after, one.1 ≠ link := by
    intro one hone hsame
    have hpair := (List.pairwise_append.1 ((List.pairwise_map.1 hd))).2.1
    have hne := (List.pairwise_cons.1 hpair).1 one hone
    rw [hsame, BEq.rfl] at hne
    cases hne
  rcases Link.resolve_cases _ hadded with ⟨hnone, -⟩ | ⟨kind', found, fields, shown, hkind', hrelation, -, -, rfl⟩
  · cases hkind.symm.trans hnone
  · cases hkind.symm.trans hkind'
    obtain ⟨hdfound, hget⟩ := hfound found hrelation
    exact (stands_overlay_fragment s hdfound hget hv).relate_relation hafter hrelate

/-! ## Search, indexes and ordering -/

/-- Full-text search adds members of its own to an entity. -/
theorem Stands.search {rest : Path} {key : Key} (h : Stands schema (.text entity :: key :: rest) v)
    (hcolumns : key ≠ "fullTextSearchColumnList") (hindexes : key ≠ "indexes") {c : Compiler} {m : Metadata} {d : Definition}
    (hsearch : (search c m (.text entity) d schema).result = .ok schema') :
    Stands schema' (.text entity :: key :: rest) v := by
  rcases search_eq_ok hsearch with rfl | ⟨-, rfl⟩
  · exact h
  · refine h.overlay (Value.spares_singleton fun _ => Value.spares_of_get?_none ?_)
    rw [FullText.found, Members.get?_cons, if_neg (by simpa using hcolumns), Members.get?_cons, if_neg (by simpa using hindexes)]
    rfl

/-- What the indexes of an entity add: indexes to itself and to its relations. -/
theorem Index.mem_of_synthesize {c : Config} {compiled : Value} {found : Members Key Value}
    (h : synthesize c compiled = .ok found) {entry : Key × Value} (he : entry ∈ found) : entry.1 = .text "indexes" ∨
      entry.1 = .text "relations" ∧ ∃ more : Members Key Value, entry.2 = .object more ∧
        ∀ one ∈ more, ∃ indexes, one.2 = .object [("indexes", .object indexes)] := by
  obtain ⟨_, indexes, more, -, -, hmore, rfl⟩ := synthesize_eq_ok h
  rcases List.mem_append.1 he with he | he
  · exact .inl (by rw [mem_unlessEmpty he])
  · rw [mem_unlessEmpty he]
    exact .inr ⟨rfl, more, rfl, (allRelationIndexes_eq_ok hmore).2⟩

/-- The indexes of an entity touch only the indexes of its relations besides its own. -/
theorem Stands.indexed {path : Path} (h : Stands schema (.text entity :: path) v)
    (hpath : (∃ (key : Key) (rest : Path), path = key :: rest ∧ key ≠ "indexes" ∧ key ≠ "relations") ∨
      ∃ (link member : Key) (rest : Path), path = Key.text "relations" :: link :: member :: rest ∧ member ≠ "indexes") {c : Config}
    (hindexed : indexed c (.text entity) schema = .ok schema') : Stands schema' (.text entity :: path) v := by
  obtain ⟨compiled, found, -, hfound, rfl⟩ := indexed_eq_ok hindexed
  refine h.overlay (Value.spares_singleton fun _ => ?_)
  rcases hpath with ⟨key, rest, rfl, hindexes, hrelations⟩ | ⟨link, member, rest, rfl, hindexes⟩
  · refine Value.spares_of_get?_none (Members.get?_eq_none_iff.2 fun entry he => ?_)
    rcases Index.mem_of_synthesize hfound he with hname | ⟨hname, -⟩ <;> rw [hname, ← Bool.not_eq_true, Key.text_beq] <;> assumption
  · refine ⟨found, rfl, fun entry he hkey => ?_⟩
    rcases Index.mem_of_synthesize hfound he with hname | ⟨hname, more, hmore, hentries⟩
    · rw [hname] at hkey
      exact absurd (Key.text.inj (Key.text_beq.1 hkey)) (by decide)
    · rw [hmore]
      refine ⟨more, rfl, fun one hone _ => ?_⟩
      obtain ⟨indexes, hone⟩ := hentries one hone
      rw [hone]
      refine Value.spares_singleton fun hsame => absurd (Key.text_beq.1 hsame) hindexes

/-- The ordering of its collection is a member of an entity. -/
theorem Stands.ordered {rest : Path} {key : Key} (h : Stands schema (.text entity :: key :: rest) v) (hkey : key ≠ "collection")
    {d : Definition} (hordered : ordered (.text entity) d schema = .ok schema') :
    Stands schema' (.text entity :: key :: rest) v := by
  obtain ⟨own, _, _, hown, -, -, ⟨-, rfl⟩ | ⟨ordering, -, rfl⟩⟩ := ordered_eq_ok hordered
  · exact h
  · obtain ⟨below, hbelow, h⟩ := stands_cons.1 h
    cases hown.symm.trans hbelow
    obtain ⟨_, w, hobject, hw, h⟩ := Value.at?_cons_eq_some.1 h
    cases hobject
    refine stands_cons.2 ⟨_, Members.get?_set_self _ _ _, Value.at?_cons_eq_some.2 ⟨_, w, rfl, ?_, h⟩⟩
    rw [Members.get?_set, if_neg (by simpa [Key.text_beq] using hkey), hw]

/-! ## The whole -/

/-- Search, indexes and ordering leave fields alone, and of relations all but their indexes. -/
theorem Stands.finish {key : Key} {rest : Path} (h : Stands schema (.text entity :: key :: rest) v)
    (hkey : key = "fields" ∨ key = "relations" ∧ ∃ (link member : Key) (more : Path),
      rest = link :: member :: more ∧ member ≠ "indexes")
    {c : Compiler} {m : Metadata} {d : Definition} {searched withIndexes : Members Key Value}
    (hsearch : (Entity.search c m (.text entity) d schema).result = .ok searched)
    (hindexed : Entity.indexed c.config (.text entity) searched = .ok withIndexes)
    (hordered : Entity.ordered (.text entity) d withIndexes = .ok schema') : Stands schema' (.text entity :: key :: rest) v := by
  have hsearched : Stands searched (.text entity :: key :: rest) v := by
    rcases hkey with rfl | ⟨rfl, -⟩ <;> exact h.search (by decide) (by decide) hsearch
  have hwith : Stands withIndexes (.text entity :: key :: rest) v := by
    refine hsearched.indexed ?_ hindexed
    rcases hkey with rfl | ⟨rfl, link, member, more, rfl, hmember⟩
    · exact .inl ⟨_, _, rfl, by decide, by decide⟩
    · exact .inr ⟨link, member, more, rfl, hmember⟩
  rcases hkey with rfl | ⟨rfl, -⟩ <;> exact hwith.ordered (by decide) hordered

/-- What the relation of a link says stands in a compiled entity, if it is no object, unless it says it of its indexes. -/
theorem stands_compile_relation {c : Compiler} {m : Metadata} {d : Definition} {links : Members String Params}
    (hcompile : (compile c m (.text entity) d).result = .ok schema) (hlinks : Entity.links m d = .ok links)
    (hd : Members.Distinct links) {params : Params} (hlink : (link, params) ∈ links) {kind : LinkKind}
    (hkind : Link.kind? m (.str entity) (.str link) params = .ok (some kind)) (hmember : member ≠ "indexes")
    (hv : ∀ below, v ≠ .object below)
    (hfound : ∀ found, Link.relation m (.str entity) (.str link) params kind = .ok found →
      Members.Distinct found ∧ Members.get? found member = some v) :
    Stands schema (relationPlace entity link member) v := by
  obtain ⟨links', _, _, corrected, related, searched, withIndexes, hlinks', -, -, -, hrelated, hsearched, hindexed, hordered⟩ :=
    compile_eq_ok hcompile
  cases hlinks.symm.trans hlinks'
  have hrelation := stands_relate hd hlink hkind hv hfound hrelated
  exact hrelation.finish (.inr ⟨rfl, .text link, member, [], rfl, hmember⟩) hsearched hindexed hordered

end

end EntitySchema
