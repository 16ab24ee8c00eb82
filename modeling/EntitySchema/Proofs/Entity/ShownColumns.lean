import EntitySchema.Proofs.Entity.Frame
import EntitySchema.Proofs.Entity.Relations

/-!
# Fields that show columns of junctions

A link maps columns of its junction to fields that show them. Each link looks only at the fields that are there by then, those
that links before it have added among them, and leaves them alone: what it adds goes behind. So of several links that map a
column to one field the first one that is not left out gives the field its type.

* `Link.shownField?`, `Link.shownBy?`: the field that a link shows under a name, and the one that several links show.
* `Link.ShownBeside`: fields that show columns and are new beside those that are there.
* `Entity.HasFields`: an entity in a schema, with its fields.

Results:
* `Link.get?_attributeFields`: a link shows what it maps, save what is there already.
* `Link.ShownBeside.append`: what is added later is new beside what was added before.
* `HasFields.overlay_fragment`: new fields go behind those that are there.
* `relate_fields`: all links of an entity leave its fields as they are, in their order, and add the fields that they show.
-/
namespace EntitySchema

/-! ## One link -/

namespace Link

variable {params : Params} {fields shown : Members Key Value} {key : Key}

/-- The type that the additional columns of a link give to a column. -/
def typeOfColumn (params : Params) (column : Key) : Value :=
  ((Members.get? (params.value "additionalColumns").members column).bind fun defs => Members.get? defs.members "type").getD
    (.str FieldKind.varchar.word)

/-- Whether an entry of the map from columns to fields names a field. -/
def mapsTo (name : Key) (entry : Key × Value) : Bool :=
  entry.2.scalar?.any (· == name)

/-- A field that shows a column of a junction. -/
def shownColumn (params : Params) (column : Key) : Value :=
  .object [("type", typeOfColumn params column), ("notStorable", .bool true)]

/-- The field that a link shows under a name: of several columns that it maps to the name, the last one. -/
def shownField? (params : Params) (name : Key) : Option Value :=
  ((params.value "columnAttributeMap").members.reverse.find? (mapsTo name)).map fun entry => shownColumn params entry.1

theorem columnType_eq_ok {column : Key} {type : Value}
    (h : columnType (orElse (params.value "additionalColumns") (.object [])) column = .ok type) :
    type = typeOfColumn params column := by
  have hmembers : (orElse (params.value "additionalColumns") (.object [])).members =
      (params.value "additionalColumns").members := by
    unfold orElse
    split
    · rfl
    · rename_i hfalsy
      cases hv : params.value "additionalColumns" with
      | object m => cases m <;> simp_all [Value.truthy, Value.members]
      | _ => rfl
  unfold columnType at h
  obtain ⟨columns, hcolumns, h⟩ := bind_eq_ok.1 h
  rw [Value.openMembers_eq_ok] at hcolumns
  rw [hcolumns, Value.members_object] at hmembers
  rw [typeOfColumn, ← hmembers]
  split at h
  · rename_i hnone
    cases h
    rw [hnone]
    rfl
  · rename_i defs hdefs
    obtain ⟨attributes, hattributes, h⟩ := bind_eq_ok.1 h
    cases h
    rw [Value.openMembers_eq_ok] at hattributes
    rw [hdefs, hattributes]
    rfl

/-- What one entry of the map from columns to fields adds. -/
def showEntry (params : Params) (fields : Value) (acc : Members Key Value) (entry : Key × Value) :
    Except Misuse (Members Key Value) := do
  if ← fields.holds entry.2 then return acc
  else
    let type ← columnType (orElse (params.value "additionalColumns") (.object [])) entry.1
    return Members.set acc (← entry.2.key) (.object [("type", type), ("notStorable", .bool true)])

theorem attributeFields_eq (params : Params) (fields : Value) : attributeFields params fields =
    (params.value "columnAttributeMap").givenMembers >>= fun map => map.foldlM (showEntry params fields) [] :=
  rfl

theorem mapsTo_of_key {entry : Key × Value} {name : Key} (h : entry.2.key = .ok name) : mapsTo key entry = (name == key) := by
  unfold Value.key at h
  unfold mapsTo
  split at h
  · rename_i found hfound
    cases h
    rw [hfound]
    rfl
  · cases h

/-- Under a name that is free, an entry that maps a column to the name adds a field, and no other one does. -/
theorem get?_showEntry {acc next : Members Key Value} {entry : Key × Value}
    (h : showEntry params (.object fields) acc entry = .ok next) (hfree : Members.contains fields key = false) :
    Members.get? next key = if mapsTo key entry then some (shownColumn params entry.1) else Members.get? acc key := by
  obtain ⟨holds, hholds, h⟩ := bind_eq_ok.1 h
  obtain ⟨name, hname, hthere⟩ := map_eq_ok.1 (show entry.2.key.map (Members.contains fields) = .ok holds from hholds)
  rw [mapsTo_of_key hname]
  cases holds with
  | true =>
    cases h
    rw [if_neg]
    intro hsame
    rw [Members.contains, Members.get?_congr hsame, ← Members.contains, hfree] at hthere
    cases hthere
  | false =>
    obtain ⟨type, htype, h⟩ := bind_eq_ok.1 h
    obtain ⟨other, hother, h⟩ := bind_eq_ok.1 h
    cases hname.symm.trans hother
    cases h
    rw [Members.get?_set, columnType_eq_ok htype]
    rfl

/-- Under a name that is free, the last entry that maps a column to the name is found. -/
theorem get?_foldlM_showEntry {map acc : Members Key Value} (h : map.foldlM (showEntry params (.object fields)) acc = .ok shown)
    (hfree : Members.contains fields key = false) : Members.get? shown key =
      ((map.reverse.find? (mapsTo key)).map fun entry => shownColumn params entry.1).or (Members.get? acc key) := by
  induction map generalizing acc with
  | nil =>
    cases h
    rfl
  | cons entry rest ih =>
    rw [List.foldlM_cons] at h
    obtain ⟨next, hstep, h⟩ := bind_eq_ok.1 h
    rw [ih h, get?_showEntry hstep hfree, List.reverse_cons, List.find?_append, Option.map_or, Option.or_assoc,
      List.find?_singleton]
    split <;> rfl

theorem fieldsIn_object (own : Members Key Value) :
    fieldsIn (.object own) = .ok ((Members.get? own "fields").getD (.object [])) :=
  rfl

/-- A link shows the fields that it maps columns to, save those that are there already. -/
theorem get?_attributeFields (h : attributeFields params (.object fields) = .ok shown) (key : Key) :
    Members.get? shown key = if Members.contains fields key then none else shownField? params key := by
  split
  · rename_i hthere
    exact get?_attributeFields_none h hthere
  · rename_i hfree
    rw [Bool.not_eq_true] at hfree
    rw [attributeFields_eq] at h
    obtain ⟨map, hmap, h⟩ := bind_eq_ok.1 h
    rw [shownField?, ← Value.givenMembers_eq_ok hmap, get?_foldlM_showEntry h hfree, Members.get?_nil, Option.or_none]

/-! ## Links one after the other -/

/-- The field that links show under a name: that of the first of them that shows one and is not left out. -/
def shownBy? (m : Metadata) (links : Members String Params) (name : Key) : Option Value :=
  (links.filter fun link => !isLeftOut m link.2).findSome? fun link => shownField? link.2 name

theorem shownBy?_of_isLeftOut {m : Metadata} {link : String × Params} (h : isLeftOut m link.2 = true) (name : Key) :
    shownBy? m [link] name = none := by
  rw [shownBy?, List.filter_cons_of_neg (by simp [h])]
  rfl

theorem shownBy?_of_not_isLeftOut {m : Metadata} {link : String × Params} (h : isLeftOut m link.2 = false) (name : Key) :
    shownBy? m [link] name = shownField? link.2 name := by
  rw [shownBy?, List.filter_cons_of_pos (by simp [h]), List.filter_nil, List.findSome?_singleton]

theorem shownBy?_cons {m : Metadata} (link : String × Params) (rest : Members String Params) (name : Key) :
    shownBy? m (link :: rest) name = (shownBy? m [link] name).or (shownBy? m rest name) := by
  rw [shownBy?, ← List.singleton_append, List.filter_append, List.findSome?_append]
  rfl

/-- Fields that show columns of junctions and are new beside those that are there: under every free name the one that is given
for it, and no others. -/
structure ShownBeside (fields : Members Key Value) (shown? : Key → Option Value) (added : Members Key Value) : Prop where
  distinct : Members.Distinct added
  unstored : ∀ entry ∈ added, ∃ type, entry.2 = .object [("type", type), ("notStorable", .bool true)]
  get?_eq : ∀ key, Members.get? added key = if Members.contains fields key then none else shown? key

namespace ShownBeside

variable {shown? more? : Key → Option Value} {added more : Members Key Value}

theorem nil (h : ∀ key, shown? key = none) : ShownBeside fields shown? [] :=
  ⟨Members.distinct_nil, fun _ he => absurd he List.not_mem_nil, fun key => by rw [h, ite_self]; rfl⟩

theorem congr (h : ShownBeside fields shown? added) (hsame : ∀ key, more? key = shown? key) : ShownBeside fields more? added :=
  ⟨h.distinct, h.unstored, fun key => by rw [h.get?_eq, hsame]⟩

theorem new (h : ShownBeside fields shown? added) : ∀ entry ∈ added, Members.get? fields entry.1 = none :=
  Members.get?_eq_none_of_apart fun key hthere => by rw [h.get?_eq, if_pos hthere]

/-- What is added later is new beside what was added before, too. -/
theorem append (h : ShownBeside fields shown? added) (hmore : ShownBeside (fields ++ added) more? more) :
    ShownBeside fields (fun key => (shown? key).or (more? key)) (added ++ more) := by
  refine ⟨Members.distinct_append.2 ⟨h.distinct, hmore.distinct, Members.get?_eq_none_of_apart fun key hthere => ?_⟩,
    List.forall_mem_append.2 ⟨h.unstored, hmore.unstored⟩, fun key => ?_⟩
  · rw [hmore.get?_eq, Members.contains_append, hthere, Bool.or_true, if_pos rfl]
  · rw [Members.get?_append, hmore.get?_eq, Members.contains_append]
    cases hfields : Members.contains fields key with
    | true => rw [h.get?_eq, hfields]; rfl
    | false =>
      have hadded : Members.get? added key = shown? key := by rw [h.get?_eq, hfields]; rfl
      rw [Members.contains, hadded]
      cases shown? key <;> rfl

end ShownBeside

end Link

/-! ## All links -/

namespace Entity

variable {m : Metadata} {entity : Key} {links : Members String Params} {fields schema schema' : Members Key Value}

/-- An entity in a schema, with its fields. -/
def HasFields (entity : Key) (fields schema : Members Key Value) : Prop :=
  ∃ own : Members Key Value, Members.get? schema entity = some (.object own) ∧ Link.fieldsIn (.object own) = .ok (.object fields)

/-- What a link lays over its entity puts new fields behind those that are there. -/
theorem HasFields.overlay_fragment (h : HasFields entity fields schema) {shown : Members Key Value}
    (hd : Members.Distinct shown) (hnew : ∀ entry ∈ shown, Members.get? fields entry.1 = none) (link : String)
    (found : Members Key Value) :
    HasFields entity (fields ++ shown) (schema.overlay (Link.fragment entity link found shown)) := by
  obtain ⟨own, hown, hfields⟩ := h
  rw [Link.fieldsIn_object, Except.ok.injEq] at hfields
  rw [Link.fragment, Members.overlay_singleton, Members.mergedAt_of_get? hown, Value.overlay_object]
  refine ⟨_, Members.get?_set_self _ _ _, ?_⟩
  rw [Link.fieldsIn_object]
  cases shown with
  | nil =>
    rw [List.isEmpty_nil, if_pos rfl, List.append_nil, Members.get?_merge_of_none (by simp [Members.get?_cons]), hfields]
  | cons one more =>
    rw [Members.get?_merge_of_some (Link.distinct_fragment link found (one :: more)) (v := .object (one :: more))
      (by simp [Members.get?_cons]), Option.getD_some]
    -- an entity that had no fields at all has the new ones alone
    cases hold : Members.get? own "fields" with
    | none =>
      rw [hold] at hfields
      cases hfields
      rw [Members.mergedAt_of_get?_none hold, List.nil_append]
    | some old =>
      rw [hold, Option.getD_some] at hfields
      rw [Members.mergedAt_of_get? hold, hfields, Value.overlay_object, Members.merge_eq_append hd hnew]

/-- One link puts the fields that it shows behind those that are there, or none if it is left out. -/
theorem relate_one_fields {link : String × Params} (h : HasFields entity fields schema)
    (hrelate : (relate m entity [link] schema).result = .ok schema') :
    ∃ added, HasFields entity (fields ++ added) schema' ∧ Link.ShownBeside fields (Link.shownBy? m [link]) added := by
  obtain ⟨compiled, laid, hitem, hlaid, rfl⟩ := relate_one_eq_ok hrelate
  rcases Link.resolve_cases entity hlaid with ⟨hkind, rfl⟩ | ⟨kind, found, given, shown, hkind, -, hgiven, hshown, rfl⟩
  · rw [Members.overlay, Members.merge_nil]
    exact ⟨[], by rwa [List.append_nil], .nil fun key => Link.shownBy?_of_isLeftOut (Link.isLeftOut_eq_isNone hkind) key⟩
  · have hsame : given = .object fields := by
      obtain ⟨own, hown, hfields⟩ := h
      rw [Value.item_object hown] at hitem
      cases hitem
      exact Except.ok.inj (hgiven.symm.trans hfields)
    rw [hsame] at hshown
    have hbeside : Link.ShownBeside fields (Link.shownBy? m [link]) shown := by
      obtain ⟨hd, hentries⟩ := Link.attributeFields_eq_ok hshown
      refine ⟨hd, hentries, fun key => ?_⟩
      rw [Link.get?_attributeFields hshown, Link.shownBy?_of_not_isLeftOut (Link.isLeftOut_eq_isNone hkind)]
    exact ⟨shown, h.overlay_fragment hbeside.distinct hbeside.new link.1 found, hbeside⟩

/-- The links of an entity leave its fields as they are, in their order, and put the fields that they show behind them. -/
theorem relate_fields (h : HasFields entity fields schema) (hrelate : (relate m entity links schema).result = .ok schema') :
    ∃ added, HasFields entity (fields ++ added) schema' ∧ Link.ShownBeside fields (Link.shownBy? m links) added := by
  induction links generalizing fields schema with
  | nil =>
    cases hrelate
    exact ⟨[], by rwa [List.append_nil], .nil fun _ => rfl⟩
  | cons link rest ih =>
    rw [relate_cons] at hrelate
    obtain ⟨s, hone, hrelate⟩ := bind_eq_ok.1 hrelate
    obtain ⟨shown, hs, hshown⟩ := relate_one_fields h hone
    obtain ⟨more, hschema, hmore⟩ := ih hs hrelate
    rw [List.append_assoc] at hschema
    exact ⟨shown ++ more, hschema, (hshown.append hmore).congr fun key => Link.shownBy?_cons link rest key⟩

/-- A choir before its links. -/
def choirFields : Members Key Value :=
  [("name", .object [("type", .str "varchar")]), ("rank", .object [("type", .str "int")])]

/-- A link that shows the voice of its targets, and whatever else. -/
def voiceLink (type : String) (more : Members Key Value) : Params :=
  [("type", .str LinkKind.manyMany.word), ("entity", .str "User"),
    ("additionalColumns", .object [("voice", .object [("type", .str type)])]),
    ("columnAttributeMap", .object (("voice", .str "memberVoice") :: more))]

/-- Three links that show a voice. The first one is left out, the second one also maps a column to a field that is there. -/
def choirLinks : Members String Params :=
  [("alumni", ("skipOrmDefs", .bool true) :: voiceLink "text" []),
    ("members", voiceLink "enum" [("rank", .str "rank")]),
    ("guests", voiceLink "int" [("since", .str "guestSince")])]

theorem relate_fields_choir :
    ∃ schema added,
      (relate {} (.text "Choir") choirLinks [("Choir", .object [("fields", .object choirFields)])]).result = .ok schema ∧
      HasFields (.text "Choir") (choirFields ++ added) schema ∧
      Members.get? added "memberVoice" = some (.object [("type", .str "enum"), ("notStorable", .bool true)]) ∧
      Members.get? added "guestSince" = some (.object [("type", .str "varchar"), ("notStorable", .bool true)]) ∧
      Members.get? added "rank" = none := by
  have hgives : gives (relate {} (.text "Choir") choirLinks [("Choir", .object [("fields", .object choirFields)])]).result
      (fun _ => true) = true := by decide +kernel
  obtain ⟨schema, hschema, -⟩ := gives_iff.1 hgives
  obtain ⟨added, hfields, hshown⟩ := relate_fields ⟨_, rfl, rfl⟩ hschema
  refine ⟨schema, added, hschema, hfields, ?_, ?_, ?_⟩
  all_goals exact (hshown.get?_eq _).trans rfl

end Entity

end EntitySchema
