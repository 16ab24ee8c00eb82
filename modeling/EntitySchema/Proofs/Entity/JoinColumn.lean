import EntitySchema.Proofs.Entity.Frame
import EntitySchema.Proofs.Entity.Layers

/-!
# Join columns

A link to one target holds it by columns of its own entity; the link on the other side refers to them by name. The two names
are made in different places and of different parameters, and the columns have to get past everything else that gives fields
to the entity.

* `Link.joinColumns`: the columns by which the links of a kind hold their targets.
* `Link.Inverse`: two links that refer to each other, of which the second one holds the columns.
* `Entity.LeavesColumns`: an entity that has no fields of its own in their places.

Results:
* `get?_held`, `get?_referred`: both relations name the columns, whatever the templates of their types say.
* `columned_fields`, `columned_resolveAll`: the columns keep their kinds among all declarations.
* `stands_column`: a column that is in the compiled entity.
* `joinColumns_agree`: inverse links agree on columns that are there.
-/
namespace EntitySchema

namespace Link

/-! ## Columns -/

/-- A column by which a link holds its target. -/
structure JoinColumn where
  /-- What follows the name of the link in the name of the column. -/
  ending : String
  kind : FieldKind
  /-- The member of the link's own relation that names the column. -/
  held : Key
  /-- The member of the other side's relation that names it. -/
  referred : Key

/-- The columns by which the links of a kind hold their targets. -/
def joinColumns : LinkKind → List JoinColumn
  | .belongsTo => [⟨"Id", .foreignId, "key", "foreignKey"⟩]
  | .belongsToParent => [⟨"Id", .foreignId, "key", "foreignKey"⟩, ⟨"Type", .foreignType, "foreignType", "foreignType"⟩]
  | _ => []

/-- What follows the name of a link in the names of the fields that it implies. -/
def endings : List String := ["Id", "Name", "Ids", "Names", "Type"]

/-- Of two texts that end two parts of one name one ends the other. -/
theorem suffix_or_suffix_of_append_eq {a b s t : String} (h : a ++ s = b ++ t) :
    s.toList <:+ t.toList ∨ t.toList <:+ s.toList := by
  have hlists : a.toList ++ s.toList = b.toList ++ t.toList := by
    rw [← String.toList_append, ← String.toList_append, h]
  exact List.suffix_or_suffix_of_suffix ⟨_, hlists⟩ ⟨_, rfl⟩

theorem eq_of_append_ending {a b ending : String} (h : a ++ ending = b ++ ending) : a = b := by
  have hlists : a.toList ++ ending.toList = b.toList ++ ending.toList := by
    rw [← String.toList_append, ← String.toList_append, h]
  exact String.toList_inj.1 (List.append_cancel_right hlists)

section
variable {kind : LinkKind} {column : JoinColumn} {link other : String}

theorem ending_of_mem_joinColumns (h : column ∈ joinColumns kind) : column.ending ∈ ["Id", "Type"] := by
  cases kind <;> simp only [joinColumns, List.mem_cons, List.not_mem_nil, or_false] at h
  · simp [h]
  · rcases h with rfl | rfl <;> simp

theorem ne_indexes_of_mem_joinColumns (h : column ∈ joinColumns kind) : column.held ≠ "indexes" ∧ column.referred ≠ "indexes" := by
  cases kind <;> simp only [joinColumns, List.mem_cons, List.not_mem_nil, or_false] at h
  · simp [h]
  · rcases h with rfl | rfl <;> simp

/-- A name that the compiler makes with another ending is not that of a column. -/
theorem ne_column_of_ending (h : column ∈ joinColumns kind) {ending : String}
    (hending : ending ∈ endings ++ ["Converted"]) (hne : ending ≠ column.ending) : other ++ ending ≠ link ++ column.ending := by
  intro hsame
  have hapart : ∀ ending ∈ endings ++ ["Converted"], ∀ columnEnding ∈ ["Id", "Type"],
      ending.toList <:+ columnEnding.toList ∨ columnEnding.toList <:+ ending.toList → ending = columnEnding := by decide
  exact hne (hapart _ hending _ (ending_of_mem_joinColumns h) (suffix_or_suffix_of_append_eq hsame))

/-- A name that the compiler gives to a field of every entity, or of every followed one, is not that of a column. -/
theorem ne_column_of_fixed (h : column ∈ joinColumns kind) {name : String}
    (hname : name ∈ ["id", "name", "deleted", "isFollowed", "followersIds", "followersNames"]) :
    name ≠ link ++ column.ending := by
  intro hsame
  have hapart : ∀ name ∈ ["id", "name", "deleted", "isFollowed", "followersIds", "followersNames"],
      ∀ columnEnding ∈ ["Id", "Type"], ¬columnEnding.toList <:+ name.toList := by decide
  refine hapart _ hname _ (ending_of_mem_joinColumns h) ⟨link.toList, ?_⟩
  rw [hsame, String.toList_append]

end

/-! ## Relations -/

/-- Two links that refer to each other, of which the second one holds the columns. -/
inductive InverseKinds : LinkKind → LinkKind → Prop
  | hasMany : InverseKinds .hasMany .belongsTo
  | hasOne : InverseKinds .hasOne .belongsTo
  | hasChildren : InverseKinds .hasChildren .belongsToParent

section
variable {m : Metadata} {entity link : Value} {params : Params} {kind : LinkKind} {found : Members Key Value} {column : JoinColumn}

theorem distinct_relation (htemplate : Members.Distinct (m.linkType kind.word).relationDefs)
    (h : Link.relation m entity link params kind = .ok found) : Members.Distinct found := by
  obtain ⟨built, -, rfl⟩ := relation_eq_ok.1 h
  exact Members.distinct_merge _ htemplate

/-- The relation of a link names its own columns. -/
theorem get?_held {name : String} (hcolumn : column ∈ joinColumns kind)
    (h : Link.relation m entity (.str name) params kind = .ok found) :
    Members.get? found column.held = some (.str (name ++ column.ending)) := by
  have hdisplay : (Value.str name).display = name := rfl
  cases kind with
  | belongsTo =>
    rw [joinColumns, List.mem_singleton] at hcolumn
    subst hcolumn
    refine get?_relation rfl h (by simp [keptParams]) ?_ (fun _ => Value.noConfusion)
    simp [withGiven, Members.get?_cons, hdisplay]
  | belongsToParent =>
    simp only [joinColumns, List.mem_cons, List.not_mem_nil, or_false] at hcolumn
    rcases hcolumn with rfl | rfl
    · refine get?_relation rfl h (by simp [keptParams]) ?_ (fun _ => Value.noConfusion)
      simp [withGiven, Members.get?_cons, hdisplay]
    · refine get?_relation rfl h (by simp [keptParams]) ?_ (fun _ => Value.noConfusion)
      simp [withGiven, Members.get?_cons, hdisplay]
  | _ => exact absurd hcolumn List.not_mem_nil

/-- The relation of the link on the other side names the same columns. -/
theorem get?_referred {inverse : LinkKind} (hkinds : InverseKinds kind inverse) {foreign : String}
    (hforeign : params.value "foreign" = .str foreign) (hnamed : foreign ≠ "") (hcolumn : column ∈ joinColumns inverse)
    (h : Link.relation m entity link params kind = .ok found) :
    Members.get? found column.referred = some (.str (foreign ++ column.ending)) := by
  have hgiven : (Value.str foreign).truthy = true := by simpa [Value.truthy] using hnamed
  have hdisplay : (Value.str foreign).display = foreign := rfl
  have hmany : ∀ {kind}, Link.relation m entity link params kind = .ok found → relationOf entity link params kind =
      hasMany entity kind params → column ∈ joinColumns .belongsTo →
        Members.get? found column.referred = some (.str (foreign ++ column.ending)) := by
    intro kind h hkind hcolumn
    obtain ⟨built, hbuilt, -⟩ := relation_eq_ok.1 h
    obtain ⟨inverse, hinverse, rfl⟩ := hasMany_eq_ok (hkind ▸ hbuilt)
    rw [hforeign, inverseOf, if_pos hgiven] at hinverse
    cases hinverse
    rw [joinColumns, List.mem_singleton] at hcolumn
    subst hcolumn
    refine get?_relation hbuilt h (by simp [keptParams]) ?_ (fun _ => Value.noConfusion)
    simp [withGiven, Members.get?_cons, keyColumn, hdisplay]
  cases hkinds with
  | hasMany => exact hmany h rfl hcolumn
  | hasOne => exact hmany h rfl hcolumn
  | hasChildren =>
    simp only [joinColumns, List.mem_cons, List.not_mem_nil, or_false] at hcolumn
    rcases hcolumn with rfl | rfl
    · refine get?_relation rfl h (by simp [keptParams]) ?_ (fun _ => Value.noConfusion)
      simp [hasChildren, Members.get?_cons, keyColumn, hforeign, orElse, hgiven, hdisplay]
    · refine get?_relation rfl h (by simp [keptParams]) ?_ (fun _ => Value.noConfusion)
      simp [hasChildren, Members.get?_cons, hforeign, orElse, hgiven, hdisplay]

end

/-! ## Implied fields -/

/-- A field that a link of a kind implies: its name begins with that of the link, and where a column of the link stands it has
the kind of the column. -/
def Implies (kind : LinkKind) (link : String) (entry : Key × Value) : Prop :=
  ∃ ending ∈ endings, ∃ fieldKind, entry.1 = .text (link ++ ending) ∧ Field.OfKind fieldKind entry.2.members ∧
    ∀ column ∈ joinColumns kind, ending = column.ending → fieldKind = column.kind

section
variable {c : Config} {kind : LinkKind} {link : String}

theorem implies_of_fresh {ending : String} {fieldKind : FieldKind} {more : List (Key × Value)} (hending : ending ∈ endings)
    (hd : (Members.keys more).Pairwise fun a b => (a == b) = false) (hfresh : ∀ key ∈ Members.keys more,
      key ≠ .text "type" ∧ key ≠ .text "skipOrmDefs")
    (hcolumns : ∀ column ∈ joinColumns kind, ending = column.ending → fieldKind = column.kind) :
    Implies kind link (.text (link ++ ending), ofKind fieldKind more) := by
  refine ⟨ending, hending, fieldKind, rfl, ⟨?_, rfl, ?_⟩, hcolumns⟩
  · refine Members.distinct_cons.2 ⟨fun entry he => ?_, hd⟩
    rw [← Bool.not_eq_true, Key.text_beq]
    exact (hfresh _ (List.mem_map_of_mem he)).1
  · refine Members.get?_eq_none_iff.2 fun entry he => ?_
    rw [← Bool.not_eq_true, Key.beq_text]
    rcases List.mem_cons.1 he with rfl | he
    · simp
    · exact (hfresh _ (List.mem_map_of_mem he)).2

/-- All fields that a link implies are such. -/
theorem implies_of_mem_fieldsOf {entry : Key × Value} (h : entry ∈ fieldsOf c (.str link) kind) : Implies kind link entry := by
  have hmany : joinColumns kind = [] → entry ∈ collectionFields (.str link) → Implies kind link entry := by
    intro hnone h
    simp only [collectionFields, unstored, List.mem_cons, List.not_mem_nil, or_false] at h
    rcases h with rfl | rfl <;>
      exact implies_of_fresh (by simp [endings]) (by simp [Members.keys]) (by simp [Members.keys]) (by simp [hnone])
  cases kind with
  | hasMany => exact hmany rfl h
  | manyMany => exact hmany rfl h
  | hasChildren => exact hmany rfl h
  | belongsTo =>
    simp only [fieldsOf, shown, List.mem_cons, List.not_mem_nil, or_false] at h
    rcases h with rfl | rfl <;>
      exact implies_of_fresh (by simp [endings]) (by simp [Members.keys] <;> decide) (by simp [Members.keys]) (by simp [joinColumns])
  | hasOne =>
    simp only [fieldsOf, shown, List.mem_cons, List.not_mem_nil, or_false] at h
    rcases h with rfl | rfl <;>
      exact implies_of_fresh (by simp [endings]) (by simp [Members.keys]; decide) (by simp [Members.keys]) (by simp [joinColumns])
  | belongsToParent =>
    simp only [fieldsOf, unstored, List.mem_cons, List.not_mem_nil, or_false] at h
    rcases h with rfl | rfl | rfl <;>
      exact implies_of_fresh (by simp [endings]) (by simp [Members.keys] <;> decide) (by simp [Members.keys]) (by simp [joinColumns])

/-- A link implies its columns. -/
theorem exists_column_of_fieldsOf (c : Config) (link : String) {column : JoinColumn} (hcolumn : column ∈ joinColumns kind) :
    ∃ v, (Key.text (link ++ column.ending), v) ∈ fieldsOf c (.str link) kind := by
  have hdisplay : (Value.str link).display = link := rfl
  cases kind with
  | belongsTo =>
    rw [joinColumns, List.mem_singleton] at hcolumn
    subst hcolumn
    exact ⟨_, List.mem_cons_self⟩
  | belongsToParent =>
    simp only [joinColumns, List.mem_cons, List.not_mem_nil, or_false] at hcolumn
    rcases hcolumn with rfl | rfl
    · exact ⟨_, List.mem_cons_self⟩
    · exact ⟨_, List.mem_cons_of_mem _ List.mem_cons_self⟩
  | _ => exact absurd hcolumn List.not_mem_nil

end

end Link

namespace Entity

/-! ## Columns among declarations -/

/-- Among declarations the columns of a link have their kinds, and so has what has a dot in its name some kind: only links can
imply it. -/
structure Columned (kind : LinkKind) (link name : String) (params : Params) : Prop where
  column : ∀ column ∈ Link.joinColumns kind, name = link ++ column.ending → Field.OfKind column.kind params
  dotted : '.' ∈ name.toList → ∃ fieldKind, Field.OfKind fieldKind params

/-- An entity that has no field of its own in the places of columns, and no dot in its name or in those of its fields. -/
structure LeavesColumns (c : Config) (m : Metadata) (entity : String) (d : Definition) (kind : LinkKind) (link : String) :
    Prop where
  entity : '.' ∉ entity.toList
  fields : ∀ field ∈ d.fields, '.' ∉ field.1.toList ∧ ∀ column ∈ Link.joinColumns kind, field.1 ≠ link ++ column.ending
  parts : ∀ field ∈ d.fields, ∀ parts, partsOf c m field.1 field.2 = .ok parts → ∀ part ∈ parts,
    '.' ∉ part.1.toList ∧ ∀ column ∈ Link.joinColumns kind, part.1 ≠ link ++ column.ending
  kept : ∀ column ∈ Link.joinColumns kind, Field.KeepsFields (m.fieldType column.kind.word)

section
variable {kind : LinkKind} {link name : String} {params params' : Params}

theorem Columned.overlay (h : Columned kind link name params) (h' : Columned kind link name params') :
    Columned kind link name (Members.overlay params params') where
  column column hcolumn hname := (h.column column hcolumn hname).overlay (h'.column column hcolumn hname)
  dotted hdot := by
    obtain ⟨fieldKind, hkind⟩ := h.dotted hdot
    obtain ⟨fieldKind', hkind'⟩ := h'.dotted hdot
    exact ⟨fieldKind', hkind.overlay hkind'⟩

/-- Where no column stands and no dot is, anything may be declared. -/
theorem columned_of_apart (hdot : '.' ∉ name.toList) (hapart : ∀ column ∈ Link.joinColumns kind, name ≠ link ++ column.ending)
    (params : Params) : Columned kind link name params :=
  ⟨fun column hcolumn hname => absurd hname (hapart column hcolumn), fun h => absurd h hdot⟩

theorem Columned.resolve {c : Config} {t : FieldType} {found : Params} (h : Columned kind link name params)
    (hfound : (Field.resolve c name params t).result = .ok (some found)) : Columned kind link name found where
  column column hcolumn hname := (h.column column hcolumn hname).of_resolve hfound
  dotted hdot := (h.dotted hdot).imp fun _ hkind => hkind.of_resolve hfound

variable {c : Config} {m : Metadata} {entity : String} {d : Definition} {links : Members String Params}

/-- What the links of an entity imply: another link may make a name like that of a column only if it has the same name. -/
theorem columned_implied (hd : Members.Distinct links) (hlink : (link, params) ∈ links)
    (hkind : Link.kind? m (.str entity) (.str link) params = .ok (some kind)) {other : String × Params} (hother : other ∈ links)
    {implied : Members Key Value} (himplied : Link.impliedFields c m (.str entity) (.str other.1) other.2 = .ok implied) :
    ∀ one ∈ Params.ofObjects implied, Columned kind link one.1 one.2 := by
  obtain ⟨found, hfound, rfl⟩ := map_eq_ok.1 himplied
  intro one hone
  obtain ⟨v, he, hv⟩ := Params.mem_ofObjects.1 hone
  cases found with
  | none => cases he
  | some otherKind =>
    obtain ⟨ending, hending, fieldKind, hname, hofKind, hcolumns⟩ := Link.implies_of_mem_fieldsOf he
    rw [Key.text.injEq] at hname
    rw [hv] at hofKind
    refine ⟨fun column hcolumn hsame => ?_, fun _ => ⟨fieldKind, hofKind⟩⟩
    rw [hname] at hsame
    have hendings : ending = column.ending := by
      by_contra hne
      exact Link.ne_column_of_ending hcolumn (List.mem_append_left _ hending) hne hsame
    rw [hendings] at hsame
    have hlinks : other = (link, params) :=
      Members.eq_of_mem_of_beq hd hother hlink (by simpa using Link.eq_of_append_ending hsame)
    subst hlinks
    cases hkind.symm.trans hfound
    rw [← hcolumns column hcolumn hendings]
    exact hofKind

/-- The columns keep their kinds among all declarations of an entity that leaves them their places. -/
theorem columned_fields (hd : Members.Distinct links) (hlink : (link, params) ∈ links)
    (hkind : Link.kind? m (.str entity) (.str link) params = .ok (some kind)) (hleaves : LeavesColumns c m entity d kind link)
    {declared : Members String Params} (h : fields c m (.text entity) d links = .ok declared) :
    ∀ one ∈ declared, Columned kind link one.1 one.2 := by
  refine forall_fields (P := Columned kind link) Columned.overlay
    (fun other hother found hfound => columned_implied hd hlink hkind hother hfound) (fun field hfield parts hparts part hpart => ?_)
    (fun field hfield => ?_) h
  · obtain ⟨hdot, hapart⟩ := hleaves.parts field hfield parts hparts part hpart
    exact columned_of_apart hdot hapart part.2
  · obtain ⟨hdot, hapart⟩ := hleaves.fields field hfield
    exact columned_of_apart hdot hapart field.2

/-- A column of a link that is not left out is among the declarations. -/
theorem contains_fields_column (hlink : (link, params) ∈ links)
    (hkind : Link.kind? m (.str entity) (.str link) params = .ok (some kind)) {declared : Members String Params}
    (h : fields c m (.text entity) d links = .ok declared) {column : Link.JoinColumn} (hcolumn : column ∈ Link.joinColumns kind) :
    Members.contains declared (link ++ column.ending) = true := by
  have hstays : ∀ lower upper : Members String Params, Members.contains lower (link ++ column.ending) = true →
      Members.contains (layered lower upper) (link ++ column.ending) = true := by
    intro lower upper hlower
    rw [contains_layered, hlower, Bool.true_or]
  unfold Entity.fields at h
  obtain ⟨implied, himplied, h⟩ := bind_eq_ok.1 h
  obtain ⟨withParts, hparts, h⟩ := bind_eq_ok.1 h
  cases h
  refine hstays _ _ (foldlM_invariant (fun acc => Members.contains acc (link ++ column.ending) = true)
    (fun acc field acc' _ hacc hstep => ?_) ?_ hparts)
  · obtain ⟨parts, -, hstep⟩ := bind_eq_ok.1 hstep
    cases hstep
    exact hstays _ _ hacc
  · -- the link itself implies it, and it stays through all links behind it
    obtain ⟨before, after, rfl⟩ := List.append_of_mem hlink
    unfold Entity.impliedFields at himplied
    rw [List.foldlM_append] at himplied
    obtain ⟨acc, -, himplied⟩ := bind_eq_ok.1 himplied
    rw [List.foldlM_cons] at himplied
    obtain ⟨next, hnext, himplied⟩ := bind_eq_ok.1 himplied
    refine foldlM_invariant (fun acc => Members.contains acc (link ++ column.ending) = true)
      (fun acc other acc' _ hacc hstep => ?_) ?_ himplied
    · obtain ⟨found, -, hstep⟩ := bind_eq_ok.1 hstep
      cases hstep
      exact hstays _ _ hacc
    · obtain ⟨found, hfound, hnext⟩ := bind_eq_ok.1 hnext
      cases hnext
      obtain ⟨otherKind, hotherKind, rfl⟩ := map_eq_ok.1 hfound
      cases hkind.symm.trans hotherKind
      obtain ⟨v, hv⟩ := Link.exists_column_of_fieldsOf c link hcolumn
      rw [contains_layered, Bool.or_eq_true]
      refine .inr ((Members.contains_iff_mem_keys _ _).2 ?_)
      exact List.mem_map_of_mem (Params.mem_ofObjects.2 ⟨v, hv, rfl⟩ : (link ++ column.ending, v.members) ∈ _)

/-! ## Columns among resolved fields -/

/-- The columns keep their kinds among the resolved fields. -/
theorem columned_resolveAll {declared resolved : Members String Params} (hdeclared : ∀ one ∈ declared, Columned kind link one.1 one.2)
    (h : (resolveAll c m (seeds d) declared).result = .ok resolved) : ∀ one ∈ resolved, Columned kind link one.1 one.2 := by
  refine forall_resolveAll (P := Columned kind link) Columned.overlay h (fun one hone => ?_) fun one hone _ t found hfound =>
    (hdeclared one hone).resolve hfound
  have hfixed : one.1 ∈ ["id", "name", "deleted"] := by
    simp only [seeds, List.mem_cons, List.not_mem_nil, or_false] at hone
    rcases hone with rfl | rfl | rfl <;> simp
  refine columned_of_apart ((by decide : ∀ name ∈ ["id", "name", "deleted"], '.' ∉ name.toList) _ hfixed) (fun column hcolumn => ?_) _
  exact Link.ne_column_of_fixed hcolumn (List.mem_append_left ["isFollowed", "followersIds", "followersNames"] hfixed)

/-- The processor of a resolved field that has its kind in the place of a column does not reach the columns. -/
theorem sparedBy_of_columned {one : String × Params} (h : Columned kind link one.1 one.2) (hentity : '.' ∉ entity.toList)
    {column : Link.JoinColumn} (hcolumn : column ∈ Link.joinColumns kind) :
    SparedBy entity (link ++ column.ending) one.1 (one.2.value "type") := by
  by_cases hname : one.1 = link ++ column.ending
  · refine .inl fun key hkey => ?_
    rw [Members.value_of_get? (h.column column hcolumn hname).type] at hkey
    cases hkey
    cases column.kind <;> decide
  · refine .inr ⟨fun suffix hsuffix => ?_, fun htype => ⟨hentity, fun hdot => ?_⟩⟩
    · rcases List.mem_cons.1 hsuffix with rfl | hsuffix
      · rwa [String.append_empty]
      · have hendings : ∀ suffix ∈ ["Converted", "Ids", "Names"], suffix ∈ Link.endings ++ ["Converted"] ∧
            ∀ ending ∈ ["Id", "Type"], suffix ≠ ending := by decide
        obtain ⟨hmade, hne⟩ := hendings suffix hsuffix
        exact Link.ne_column_of_ending hcolumn hmade (hne _ (Link.ending_of_mem_joinColumns hcolumn))
    · -- what has a dot in its name is of a kind of the storage, which has no processor
      obtain ⟨fieldKind, hkind⟩ := h.dotted hdot
      rw [Members.value_of_get? hkind.type, Value.str.injEq] at htype
      revert htype
      cases fieldKind <;> decide

theorem get?_streamFields_column {column : Link.JoinColumn} (hcolumn : column ∈ Link.joinColumns kind) :
    Members.get? streamFields (.text (link ++ column.ending)) = none := by
  refine Members.get?_eq_none_iff.2 fun entry he => ?_
  obtain ⟨name, hname, hentry⟩ : ∃ name ∈ ["isFollowed", "followersIds", "followersNames"], entry.1 = .text name := by
    simp only [streamFields, List.mem_cons, List.not_mem_nil, or_false] at he
    rcases he with rfl | rfl | rfl <;> exact ⟨_, by simp, rfl⟩
  rw [hentry, ← Bool.not_eq_true, Key.beq_text, Key.text.injEq]
  exact Link.ne_column_of_fixed hcolumn (List.mem_append_right ["id", "name", "deleted"] hname)

/-! ## The compiled entities -/

/-- A column of a link stands in the compiled entity with its kind. -/
theorem stands_column {c : Compiler} (hc : c.registry = {}) (hlinks : Entity.links m d = .ok links)
    (hlink : (link, params) ∈ links) (hkind : Link.kind? m (.str entity) (.str link) params = .ok (some kind))
    (hleaves : LeavesColumns c.config m entity d kind link) {schema : Members Key Value}
    (hcompile : (compile c m (.text entity) d).result = .ok schema) {column : Link.JoinColumn}
    (hcolumn : column ∈ Link.joinColumns kind) :
    Stands schema (attributePlace entity (link ++ column.ending) "type") (.str column.kind.word) := by
  obtain ⟨links', declared, resolved, corrected, related, searched, withIndexes, hlinks', hdeclared, hresolved, hcorrected,
    hrelated, hsearched, hindexed, hordered⟩ := compile_eq_ok hcompile
  cases hlinks.symm.trans hlinks'
  have hcolumned := columned_fields (distinct_links hlinks) hlink hkind hleaves hdeclared
  have hall := columned_resolveAll hcolumned hresolved
  -- the column is declared with its kind, so it is resolved
  have hcontains : Members.contains resolved (link ++ column.ending) = true := by
    refine contains_resolveAll hresolved (.inr ?_)
    obtain ⟨one, hone, hname⟩ := List.mem_map.1
      ((Members.contains_iff_mem_keys _ _).1 (contains_fields_column hlink hkind hdeclared hcolumn))
    have hofKind := (hcolumned one hone).column column hcolumn hname
    refine ⟨one.2, hname ▸ hone, hofKind.truthy, fun t ht => ?_⟩
    cases hofKind.typeOf.symm.trans ht
    exact Field.resolve_ne_none_of_ofKind hofKind (hleaves.kept column hcolumn)
  obtain ⟨found, hfound⟩ := Option.isSome_iff_exists.1 hcontains
  have hofKind := (hall _ (Members.mem_of_get? hfound)).column column hcolumn rfl
  -- from there on every stage leaves it alone
  have hstart : Stands [(.text entity, .object ((base c.config d).set "fields" (.object (Params.toObjects resolved))))]
      (attributePlace entity (link ++ column.ending) "type") (.str column.kind.word) := by
    refine stands_cons.2 ⟨_, Members.get?_singleton _ _, ?_⟩
    refine Value.at?_cons_eq_some.2 ⟨_, _, rfl, Members.get?_set_self _ _ _, ?_⟩
    refine Value.at?_cons_eq_some.2 ⟨_, .object found, rfl, by rw [Params.get?_toObjects, hfound]; rfl, ?_⟩
    exact Value.at?_cons_eq_some.2 ⟨_, _, rfl, hofKind.type, rfl⟩
  rw [hc] at hcorrected
  have hcorrect := hstart.correct (by decide) (fun one hone => sparedBy_of_columned (hall one hone) hleaves.entity hcolumn)
    (get?_streamFields_column hcolumn) hcorrected
  exact (hcorrect.relate_field hrelated).finish (.inl rfl) hsearched hindexed hordered

end

end Entity

/-- Two links that refer to each other and are not left out; the second one holds the columns. -/
structure Link.Inverse (m : Metadata) (entity target link back : String) (params params' : Params) (kind inverse : LinkKind) :
    Prop where
  kinds : Link.InverseKinds kind inverse
  hasKind : Link.kind? m (.str entity) (.str link) params = .ok (some kind)
  backHasKind : Link.kind? m (.str target) (.str back) params' = .ok (some inverse)
  targets : params.value "entity" = .str target
  backTargets : inverse = .belongsTo → params'.value "entity" = .str entity
  refers : params.value "foreign" = .str back
  named : back ≠ ""

namespace Entity

/-- Inverse links agree on the columns by which one holds the other's entity, under all templates of link types; and if their
entity leaves the columns their places, they are there. -/
theorem joinColumns_agree (c : Compiler) {m : Metadata}
    (htemplates : ∀ kind : LinkKind, Members.Distinct (m.linkType kind.word).relationDefs)
    {entity target link back : String} {params params' : Params} {kind inverse : LinkKind}
    (hinverse : Link.Inverse m entity target link back params params' kind inverse) {d d' : Definition}
    {links links' : Members String Params} (hlinks : Entity.links m d = .ok links) (hlink : (link, params) ∈ links)
    (hlinks' : Entity.links m d' = .ok links') (hback : (back, params') ∈ links') {schema schema' : Members Key Value}
    (hcompile : (compile c m (.text entity) d).result = .ok schema)
    (hcompile' : (compile c m (.text target) d').result = .ok schema') :
    (∀ column ∈ Link.joinColumns inverse,
      Stands schema (relationPlace entity link column.referred) (.str (back ++ column.ending)) ∧
        Stands schema' (relationPlace target back column.held) (.str (back ++ column.ending))) ∧
      (c.registry = {} → LeavesColumns c.config m target d' inverse back → ∀ column ∈ Link.joinColumns inverse,
        Stands schema' (attributePlace target (back ++ column.ending) "type") (.str column.kind.word)) := by
  refine ⟨fun column hcolumn => ⟨?_, ?_⟩, fun hc hleaves column hcolumn => ?_⟩
  · refine stands_compile_relation hcompile hlinks (distinct_links hlinks) hlink hinverse.hasKind
      (Link.ne_indexes_of_mem_joinColumns hcolumn).2 (fun _ => Value.noConfusion) fun found hfound => ?_
    exact ⟨Link.distinct_relation (htemplates kind) hfound,
      Link.get?_referred hinverse.kinds hinverse.refers hinverse.named hcolumn hfound⟩
  · refine stands_compile_relation hcompile' hlinks' (distinct_links hlinks') hback hinverse.backHasKind
      (Link.ne_indexes_of_mem_joinColumns hcolumn).1 (fun _ => Value.noConfusion) fun found hfound => ?_
    exact ⟨Link.distinct_relation (htemplates inverse) hfound, Link.get?_held hcolumn hfound⟩
  · exact stands_column hc hlinks' hback hinverse.backHasKind hleaves hcompile' hcolumn

/-! ## Notes and their parents -/

/-- An entity with notes, which refer to it as their parent. -/
def annotated : Definition :=
  ⟨[("links", .object [("notes", .object
    [("type", .str LinkKind.hasChildren.word), ("entity", .str "Note"), ("foreign", .str "parent")])])]⟩

/-- A note of any entity. -/
def note : Definition :=
  ⟨[("links", .object [("parent", .object [("type", .str LinkKind.belongsToParent.word), ("foreign", .str "notes")])])]⟩

theorem joinColumns_agree_notes :
    ∃ schema schema', (compile {} {} (.text "Account") annotated).result = .ok schema ∧
      (compile {} {} (.text "Note") note).result = .ok schema' ∧ ∀ column ∈ Link.joinColumns .belongsToParent,
        (Stands schema (relationPlace "Account" "notes" column.referred) (.str ("parent" ++ column.ending)) ∧
          Stands schema' (relationPlace "Note" "parent" column.held) (.str ("parent" ++ column.ending))) ∧
        Stands schema' (attributePlace "Note" ("parent" ++ column.ending) "type") (.str column.kind.word) := by
  have hgives : gives (compile {} {} (.text "Account") annotated).result (fun _ => true) = true := by decide +kernel
  have hgives' : gives (compile {} {} (.text "Note") note).result (fun _ => true) = true := by decide +kernel
  obtain ⟨schema, hschema, -⟩ := gives_iff.1 hgives
  obtain ⟨schema', hschema', -⟩ := gives_iff.1 hgives'
  have hinverse : Link.Inverse {} "Account" "Note" "notes" "parent"
      [("type", .str LinkKind.hasChildren.word), ("entity", .str "Note"), ("foreign", .str "parent")]
      [("type", .str LinkKind.belongsToParent.word), ("foreign", .str "notes")] .hasChildren .belongsToParent :=
    ⟨.hasChildren, rfl, rfl, rfl, fun h => (by cases h), rfl, by decide⟩
  have hleaves : LeavesColumns {} {} "Note" note .belongsToParent "parent" :=
    ⟨by decide, fun _ hfield => absurd hfield List.not_mem_nil, fun _ hfield => absurd hfield List.not_mem_nil,
      fun _ _ => ⟨rfl, rfl⟩⟩
  obtain ⟨hnames, hkinds⟩ := joinColumns_agree {} (m := {}) (fun _ => Members.distinct_nil) hinverse rfl List.mem_cons_self rfl
    List.mem_cons_self hschema hschema'
  exact ⟨schema, schema', hschema, hschema', fun column hcolumn => ⟨hnames column hcolumn, hkinds rfl hleaves column hcolumn⟩⟩

end Entity

end EntitySchema
