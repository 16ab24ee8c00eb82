import EntitySchema.Entity.Fields
import EntitySchema.Proofs.Field.Law
import EntitySchema.Proofs.Field.Resolve
import EntitySchema.Proofs.Params
import EntitySchema.Proofs.Record.Fits
import EntitySchema.Proofs.Value.Access

/-!
# Fields of an entity under a law

The declarations of an entity are resolved over the fields that every entity has, and then corrected field by field. A law of
fields that holds of what declared fields give themselves as defaults holds of all of them.

* `Processor.Makes`: what the processor for a type takes away and adds.
* `Lawful`: a schema of one entity, with fields under a law.

Results:
* `resolveAll_invariant`: what adding a resolved field keeps holds of all of them.
* `resolveAll_paramsWith`: resolved fields are lawful.
* `Lawful.overlay`, `Lawful.unset`: what keeps a schema lawful.
* `unset_field_own`: what is taken away at the path of a field.
* `process_cases`, `correct_invariant`: what a processor does, and what all corrections keep.
* `Lawful.correct`: all corrections keep a schema lawful.
-/
namespace EntitySchema

/-- The default that a declared field gives to itself among its default attributes. -/
def Definition.ownDefault? (d : Definition) (field : String) : Option Value :=
  Members.get? ((d.field field).value "defaultAttributes").members field

namespace Processor

/-- What the processors of the compiler put behind the name of a field to name the fields that they add. -/
def suffixes : List String := ["", "Converted", "Ids", "Names"]

/-- The processor for a type takes a field away only if it is the one for many links, and the fields that it adds are not stored:
their names begin with that of its field. -/
structure Makes (type : Key) (field : String) (paths : List String) (added : Members Key Value) : Prop where
  many : ∀ text ∈ paths, type = .text "linkMultiple"
  fields : ∀ entry ∈ added, ∃ suffix ∈ suffixes, ∃ kind more, entry = (.text (field ++ suffix), unstored kind more)

end Processor

namespace Entity

variable {c : Config} {P : Key → Members Key Value → Prop}

/-! ## Resolved fields -/

section
variable {fields : Members String Params} {name : String} {found : Params}

theorem distinct_addField (hd : Members.Distinct fields) : Members.Distinct (addField fields name found) := by
  unfold addField
  split
  · split <;> exact Members.distinct_set _ _ hd
  · exact Members.distinct_set _ _ hd

theorem contains_addField {other : String} (h : Members.contains fields other = true ∨ other = name) :
    Members.contains (addField fields name found) other = true := by
  have hset : ∀ params : Params, Members.contains (Members.set fields name params) other = true := fun params => by
    rw [Members.contains_set, Bool.or_eq_true, beq_iff_eq]
    exact h.symm.imp_left Eq.symm
  unfold addField
  split
  · split <;> exact hset _
  · exact hset _

/-- What holds of the fields that are there, of an added field and of it over the one of its name, holds of all. -/
theorem forall_addField {P : String → Params → Prop} (hfields : ∀ one ∈ fields, P one.1 one.2) (hfound : P name found)
    (hoverlay : ∀ old, P name old → P name (old.overlay found)) : ∀ one ∈ addField fields name found, P one.1 one.2 := by
  have hset : ∀ {params : Params}, P name params → ∀ one ∈ Members.set fields name params, P one.1 one.2 := by
    intro params hP one hone
    rcases Members.mem_set hone with hone | ⟨hname, hparams⟩
    · exact hfields one hone
    · rw [eq_of_beq hname, hparams]
      exact hP
  unfold addField
  split
  · rename_i old hold
    split
    · exact hset hfound
    · exact hset (hoverlay old (hfields _ (Members.mem_of_get? hold)))
  · exact hset hfound

end

/-- What holds of the fields that are there and is kept when a resolved one is added holds in the end. -/
theorem resolveAll_invariant {m : Metadata} (I : Members String Params → Prop) {fields resolved : Members String Params}
    {declared : List (String × Params)} (h : (resolveAll c m fields declared).result = .ok resolved)
    (hstep : ∀ one ∈ declared, (one.2.value "type").truthy = true → ∀ t found,
      (Field.resolve c one.1 one.2 t).result = .ok (some found) → ∀ fields, I fields → I (addField fields one.1 found))
    (hfields : I fields) : I resolved := by
  induction declared generalizing fields with
  | nil => cases h; exact hfields
  | cons head rest ih =>
    obtain ⟨name, params⟩ := head
    obtain ⟨hhead, hrest⟩ := List.forall_mem_cons.1 hstep
    rw [resolveAll] at h
    split at h
    · rename_i htype
      obtain ⟨t, -, h⟩ := Run.result_bind_eq_ok.1 h
      obtain ⟨found, hfound, h⟩ := Run.result_bind_eq_ok.1 h
      cases found with
      | none => exact ih h hrest hfields
      | some found => exact ih h hrest (hhead htype t found hfound fields hfields)
    · exact ih h hrest hfields

theorem distinct_resolveAll {m : Metadata} {d : Definition} {declared : List (String × Params)} {resolved : Members String Params}
    (h : (resolveAll c m (seeds d) declared).result = .ok resolved) : Members.Distinct resolved :=
  resolveAll_invariant Members.Distinct h (fun _ _ _ _ _ _ _ hfields => distinct_addField hfields)
    (by simp [seeds, Members.Distinct, Members.keys])

/-- Named attributes under a law. -/
def ParamsWith (P : Key → Members Key Value → Prop) (fields : Members String Params) : Prop :=
  Members.Distinct fields ∧ ∀ entry ∈ fields, Members.Distinct entry.2 ∧ P (.text entry.1) entry.2

theorem ParamsWith.addField {fields : Members String Params} {name : String} {params : Params} (hlaw : Field.FieldLaw c P)
    (h : ParamsWith P fields) (hd : Members.Distinct params) (hP : P (.text name) params) :
    ParamsWith P (addField fields name params) := by
  refine ⟨distinct_addField h.1, ?_⟩
  refine forall_addField (P := fun name params => Members.Distinct params ∧ P (.text name) params) h.2 ⟨hd, hP⟩ ?_
  intro old ⟨hdold, hPold⟩
  exact ⟨Members.distinct_merge _ hdold, hlaw.merge _ hd hPold hP⟩

theorem paramsWith_seeds (hlaw : Field.FieldLaw c P) (d : Definition) : ParamsWith P (seeds d) := by
  have put : ∀ {name : String} {params : Params}, Field.Plain params → Members.Distinct params ∧ P (.text name) params :=
    fun h => ⟨h.distinct, hlaw.plain _ h⟩
  refine ⟨by simp [Members.Distinct, Members.keys, seeds], fun entry he => ?_⟩
  simp only [seeds, List.mem_cons, List.not_mem_nil, or_false] at he
  rcases he with rfl | rfl | rfl
  · exact put ⟨by simp [Members.Distinct, Members.keys]; decide, by simp [Members.get?_cons], by simp [Members.get?_cons]⟩
  · exact put ⟨by simp [Members.Distinct, Members.keys]; decide, by simp [Members.get?_cons], by simp [Members.get?_cons]⟩
  · exact put ⟨by simp [Members.Distinct, Members.keys]; decide, by simp [Members.get?_cons], by simp [Members.get?_cons]⟩

/-- Resolved fields are lawful if the fields are that they are added to. -/
theorem resolveAll_paramsWith {m : Metadata} (hlaw : Field.FieldLaw c P) {fields resolved : Members String Params}
    {declared : List (String × Params)} (h : (resolveAll c m fields declared).result = .ok resolved)
    (hfields : ParamsWith P fields) : ParamsWith P resolved := by
  refine resolveAll_invariant (ParamsWith P) h (fun one _ _ t found hfound fields hfields => ?_) hfields
  have hcompiled := Field.compiled_of_resolve hfound
  exact hfields.addField hlaw (Field.distinct_compiled hcompiled) (hlaw.resolved _ hcompiled)

theorem fieldsWith_toObjects (hlaw : Field.FieldLaw c P) {fields : Members String Params} (h : ParamsWith P fields) :
    Field.FieldsWith P (Params.toObjects fields) := by
  refine Field.FieldsWith.of_mem hlaw.mergeLaw (Params.distinct_toObjects h.1) fun entry he => ?_
  obtain ⟨field, hfield, rfl⟩ := Params.mem_toObjects.1 he
  exact ⟨field.2, rfl, h.2 field hfield⟩

/-! ## Schemas of one entity -/

/-- A schema that holds one entity, whose fields are lawful. -/
def Lawful (entity : Key) (P : Key → Members Key Value → Prop) (schema : Members Key Value) : Prop :=
  ∃ own fields : Members Key Value, schema = [(entity, .object own)] ∧ Members.Distinct own ∧
    Members.get? own "fields" = some (.object fields) ∧ Field.FieldsWith P fields

section
variable {entity : Key} {schema : Members Key Value}

/-- A fragment over a lawful schema of its entity, with lawful fields if it has any. -/
theorem Lawful.overlay (hlaw : Field.FieldLaw c P) (h : Lawful entity P schema) {more : Members Key Value}
    (hd : Members.Distinct more)
    (hmore : ∀ v, Members.get? more "fields" = some v → ∃ fields, v = .object fields ∧ Field.FieldsWith P fields) :
    Lawful entity P (schema.overlay [(entity, .object more)]) := by
  obtain ⟨own, fields, rfl, hdown, hfields, hP⟩ := h
  have hget : Members.get? [(entity, Value.object own)] entity = some (.object own) := by simp [Members.get?_cons]
  have hschema : Members.overlay [(entity, Value.object own)] [(entity, .object more)] =
      [(entity, .object (own.overlay more))] := by
    rw [Members.overlay_singleton, Members.mergedAt_of_get? hget, Value.overlay_object, Members.set, if_pos BEq.rfl]
    rfl
  have hmerged := Members.get?_overlay own hd "fields"
  cases hupper : Members.get? more "fields" with
  | none =>
    rw [hupper, hfields] at hmerged
    exact ⟨own.overlay more, fields, hschema, Members.distinct_merge _ hdown, hmerged, hP⟩
  | some v =>
    obtain ⟨x, rfl, hx⟩ := hmore v hupper
    simp only [hupper, Members.mergedAt_of_get? hfields, Value.overlay_object] at hmerged
    exact ⟨own.overlay more, fields.overlay x, hschema, Members.distinct_merge _ hdown, hmerged, hP.overlay hlaw.mergeLaw hx⟩

/-- Fields over those of a lawful schema. -/
theorem Lawful.overlay_fields (hlaw : Field.FieldLaw c P) (h : Lawful entity P schema) {fields : Members Key Value}
    (hfields : Field.FieldsWith P fields) : Lawful entity P (schema.overlay (fieldsFragment entity fields)) := by
  refine h.overlay hlaw (Members.distinct_singleton _ _) fun v hv => ?_
  rw [Members.get?_cons, if_pos (by simp)] at hv
  cases hv
  exact ⟨fields, rfl, hfields⟩

/-- A removal that goes below the members of an entity. -/
theorem Lawful.unset (hlaw : Field.FieldLaw c P) (h : Lawful entity P schema) {path : Path} (hlength : 2 < path.length) :
    Lawful entity P (schema.unset path) := by
  obtain ⟨own, fields, rfl, hdown, hfields, hP⟩ := h
  match path, hlength with
  | first :: second :: third :: rest, _ =>
    rw [Members.unset_cons_cons, Members.get?_cons]
    by_cases hfirst : (entity == first) = true
    · rw [if_pos hfirst]
      simp only
      rw [Members.unset_cons_cons, Members.set, if_pos hfirst]
      -- below the entity the removal goes on in its fields, in another member or nowhere
      cases hsecond : Members.get? own second with
      | none => exact ⟨own, fields, rfl, hdown, hfields, hP⟩
      | some v =>
        cases v with
        | object below =>
          simp only
          by_cases hkey : (second == (.text "fields" : Key)) = true
          · have hbelow : below = fields := by
              rw [Members.get?_congr hkey, hfields] at hsecond
              cases hsecond; rfl
            subst hbelow
            refine ⟨_, _, rfl, Members.distinct_set _ _ hdown, ?_, hP.unset hlaw (third :: rest)⟩
            rw [Members.get?_set, if_pos hkey]
          · refine ⟨_, fields, rfl, Members.distinct_set _ _ hdown, ?_, hP⟩
            rw [Members.get?_set, if_neg hkey, hfields]
        | _ => exact ⟨own, fields, rfl, hdown, hfields, hP⟩
    · rw [if_neg hfirst]
      exact ⟨own, fields, rfl, hdown, hfields, hP⟩

/-- What is taken away at the path of a field is taken from the fields of the entity, or from no entity that is there. -/
theorem unset_field_own (entity : Key) (own : Members Key Value) (field : String) :
    Members.unset [(entity, .object own)] (Path.ofDotted (entity.display ++ ".fields." ++ field)) = [(entity, .object own)] ∨
      Members.unset [(entity, .object own)] (Path.ofDotted (entity.display ++ ".fields." ++ field)) =
        [(entity, .object (own.unset (.text "fields" :: Path.ofDotted field)))] := by
  have helsewhere : ∀ {first next : Key} {rest : Path}, (entity == first) = false →
      Members.unset [(entity, .object own)] (first :: next :: rest) = [(entity, .object own)] := by
    intro first next rest hfirst
    rw [Members.unset_cons_cons, Members.get?_cons, hfirst]
    rfl
  rcases Path.ofDotted_field entity.display field with hpath | ⟨first, next, rest, hpath, hfirst⟩
  · rw [hpath]
    by_cases hentity : (entity == .text entity.display) = true
    · right
      rw [Members.unset_cons_cons, Members.get?_cons, if_pos hentity]
      simp only
      rw [Members.set, if_pos hentity]
    · exact .inl (helsewhere (Bool.eq_false_iff.2 hentity))
  · rw [hpath]
    refine .inl (helsewhere ?_)
    rw [← Bool.not_eq_true, Key.beq_text]
    intro hentity
    subst hentity
    exact hfirst rfl

theorem unset_fields {own fields : Members Key Value} (hfields : Members.get? own "fields" = some (.object fields))
    (field : String) : own.unset (.text "fields" :: Path.ofDotted field) =
      own.set "fields" (.object (fields.unset (Path.ofDotted field))) := by
  cases hpath : Path.ofDotted field with
  | nil => exact absurd hpath (Path.ofDotted_ne_nil field)
  | cons next rest => rw [Members.unset_cons_cons, hfields]

theorem Lawful.set (h : Lawful entity P schema) {key : Key} (hkey : key ≠ .text "fields") {compiled : Members Key Value} {v : Value}
    (hcompiled : Members.get? schema entity = some (.object compiled)) :
    Lawful entity P (Members.set schema entity (.object (compiled.set key v))) := by
  obtain ⟨own, fields, rfl, hdown, hfields, hP⟩ := h
  rw [Members.get?_cons, if_pos BEq.rfl] at hcompiled
  cases hcompiled
  rw [Members.set, if_pos BEq.rfl]
  refine ⟨_, fields, rfl, Members.distinct_set _ _ hdown, ?_, hP⟩
  rw [Members.get?_set, if_neg (by simpa using hkey)]
  exact hfields

end

/-! ## Corrections -/

/-- Fields that the compiler itself adds. -/
theorem fieldsWith_plain (hlaw : Field.FieldLaw c P) {fields : Members Key Value}
    (h : Field.FieldsWith (fun _ => Field.Plain) fields) : Field.FieldsWith P fields := by
  refine ⟨h.distinct, fun f v hv => ?_⟩
  obtain ⟨m, rfl, hd, hplain⟩ := h.each f v hv
  exact ⟨m, rfl, hd, hlaw.plain f hplain⟩

theorem plain_of_forall {fields : Members Key Value} (hd : Members.Distinct fields)
    (h : ∀ entry ∈ fields, ∃ m, entry.2 = .object m ∧ Field.Plain m) : Field.FieldsWith (fun _ => Field.Plain) fields := by
  refine ⟨hd, fun f v hv => ?_⟩
  obtain ⟨k, -, hm⟩ := Members.exists_of_get? hv
  obtain ⟨m, hv, hplain⟩ := h _ hm
  exact ⟨m, hv, hplain.distinct, hplain⟩

/-- What a processor of the compiler contributes: plain fields for the entity, after taking away a field of its. -/
structure Additions (p : Processor) (field : String) (entity : Key) (paths : List String) (added : Members Key Value) :
    Prop where
  contribute : ∀ schema, p.contribute field entity schema =
    .ok { fragment := Processor.fieldsOf entity added, unset := .ofTexts paths }
  place : ∀ text ∈ paths, text = entity.display ++ ".fields." ++ field
  named : Members.Named added
  plain : Field.FieldsWith (fun _ => Field.Plain) added

/-- The lists of the keys and names of many links. -/
def listFields (field : String) : Members Key Value :=
  [(.text (field ++ "Ids"), Processor.unstored .jsonArray []), (.text (field ++ "Names"), Processor.unstored .jsonObject [])]

theorem distinct_listFields (field : String) : (listFields field).Distinct := by
  refine Members.distinct_pair ?_ _ _
  rw [← Bool.not_eq_true, Key.text_beq, Key.text.injEq, String.append_right_inj]
  decide

theorem length_place (entity : Key) (field : String) : 2 < (Path.ofDotted (entity.display ++ ".fields." ++ field)).length := by
  have hdots : (".fields." : String).toList.count '.' = 2 := by decide
  rw [Path.length_ofDotted, String.toList_append, String.toList_append, List.count_append, List.count_append, hdots]
  omega

theorem additions_of_builtin {key : Key} {p : Processor} (h : Members.get? Processor.builtins key = some p) (field : String)
    (entity : Key) : ∃ paths added, Additions p field entity paths added ∧ Processor.Makes key field paths added := by
  simp only [Processor.builtins, Members.get?_cons] at h
  split at h
  · cases h
    refine ⟨[], _, ⟨fun _ => rfl, by simp, by simp [Members.Named],
      plain_of_forall (Members.distinct_singleton _ _) fun entry he => ?_⟩, ⟨by simp, fun entry he => ?_⟩⟩
    · rw [List.mem_singleton] at he
      subst he
      exact ⟨_, rfl, by simp [Members.Distinct, Members.keys, Processor.fullName]; decide,
        by simp [Members.get?_cons, Processor.fullName], by simp [Members.get?_cons, Processor.fullName]⟩
    · rw [List.mem_singleton] at he
      exact ⟨"", by simp [Processor.suffixes], _, _, by rw [he, String.append_empty]⟩
  · split at h
    · cases h
      refine ⟨[], _, ⟨fun _ => rfl, by simp, by simp [Members.Named],
        plain_of_forall (Members.distinct_singleton _ _) fun entry he => ?_⟩, ⟨by simp, fun entry he => ?_⟩⟩
      · rw [List.mem_singleton] at he
        subst he
        exact ⟨_, rfl, by simp [Members.Distinct, Members.keys]; decide, by simp [Members.get?_cons], by
          simp [Members.get?_cons]⟩
      · rw [List.mem_singleton] at he
        exact ⟨"Converted", by simp [Processor.suffixes], _, _, he⟩
    · split at h
      · rename_i hkey
        cases h
        refine ⟨[entity.display ++ ".fields." ++ field], _, ⟨fun _ => rfl, by simp, by simp [Members.Named],
          plain_of_forall ?_ fun entry he => ?_⟩, ⟨fun _ _ => Key.text_beq.1 hkey, fun entry he => ?_⟩⟩
        · exact distinct_listFields field
        · simp only [List.mem_cons, List.not_mem_nil, or_false] at he
          rcases he with rfl | rfl <;>
            exact ⟨_, rfl, by simp [Members.Distinct, Members.keys]; decide, by simp [Members.get?_cons], by
              simp [Members.get?_cons]⟩
        · simp only [List.mem_cons, List.not_mem_nil, or_false] at he
          rcases he with rfl | rfl
          · exact ⟨"Ids", by simp [Processor.suffixes], _, _, rfl⟩
          · exact ⟨"Names", by simp [Processor.suffixes], _, _, rfl⟩
      · cases h

/-- A contribution of plain text paths and a fragment, applied to a schema. -/
theorem apply_contribution (entity : Key) (paths : List String) (added schema : Members Key Value) :
    Contribution.apply { fragment := Processor.fieldsOf entity added, unset := .ofTexts paths } schema =
      .ok ((paths.foldl (fun acc text => Members.unset acc (Path.ofDotted text)) schema).overlay
        (fieldsFragment entity added)) := by
  have hlisted : WrittenPath.listed (.ofTexts paths) = .ok (paths.map .dotted) := by
    show (List.map Value.str paths).mapM WrittenPath.ofValue = _
    rw [List.mapM_map]
    exact mapM_eq_map fun _ _ => rfl
  have hunset : Members.unsetListed schema (paths.map .dotted) =
      .ok (paths.foldl (fun acc text => Members.unset acc (Path.ofDotted text)) schema) := by
    unfold Members.unsetListed
    rw [List.foldlM_map]
    exact foldlM_eq_foldl fun _ _ _ => rfl
  unfold Contribution.apply
  by_cases htruthy : (Value.ofTexts paths).truthy = true
  · simp only [htruthy, if_true, hlisted]
    show (do let cleared ← Members.unsetListed schema (paths.map .dotted); _) = _
    rw [hunset]
    rfl
  · have hnil : paths = [] := by
      cases paths with
      | nil => rfl
      | cons => simp [Value.ofTexts, Value.truthy] at htruthy
    subst hnil
    rfl

section
variable {entity : Key} {schema schema' : Members Key Value} {d : Definition} {fields : Members String Params}

/-- What a processor of the compiler does to a schema: it takes a field away or none, and adds others. -/
theorem process_cases {field : String} {declared : Value} (h : process {} entity field declared schema = .ok schema') :
    schema' = schema ∨ ∃ type p paths added, declared.key = .ok type ∧ Members.get? Processor.builtins type = some p ∧
      Additions p field entity paths added ∧ Processor.Makes type field paths added ∧
        schema' = (paths.foldl (fun acc text => Members.unset acc (Path.ofDotted text)) schema).overlay
          (fieldsFragment entity added) := by
  unfold Entity.process at h
  obtain ⟨found, hfound, h⟩ := bind_eq_ok.1 h
  obtain ⟨type, htype, rfl⟩ := map_eq_ok.1 hfound
  split at h
  · rename_i p hp
    have hbuiltin : Members.get? Processor.builtins type = some p := by simpa [Registry.lookup] using hp
    obtain ⟨paths, added, hadded, hmakes⟩ := additions_of_builtin hbuiltin field entity
    rw [hadded.contribute, ok_bind, apply_contribution] at h
    cases h
    exact .inr ⟨type, p, paths, added, htype, hbuiltin, hadded, hmakes, rfl⟩
  · cases h
    exact .inl rfl

/-- What the processors of all fields keep, and the default attributes and the fields of a followed entity, the corrections keep. -/
theorem correct_invariant (I : Members Key Value → Prop)
    (hprocess : ∀ field ∈ fields, ∀ s s', process {} entity field.1 (field.2.value "type") s = .ok s' → I s → I s')
    (hdefault : ∀ field s, I s → I (withDefaultAttribute d entity field s))
    (hstream : ∀ s, I s → I (s.overlay (fieldsFragment entity streamFields))) (h : I schema)
    (hcorrect : correct {} d entity fields schema = .ok schema') : I schema' := by
  unfold Entity.correct at hcorrect
  obtain ⟨corrected, hfold, hcorrect⟩ := bind_eq_ok.1 hcorrect
  have hcorrected : I corrected := by
    refine foldlM_invariant I (fun s field s' hfield hs hstep => ?_) h hfold
    unfold Entity.correctField at hstep
    simp only at hstep
    split at hstep
    · obtain ⟨processed, hprocessed, rfl⟩ := map_eq_ok.1 hstep
      exact hdefault field.1 processed (hprocess field hfield s processed hprocessed hs)
    · cases hstep
      exact hs
  split at hcorrect
  · cases hcorrect
    exact hstream corrected hcorrected
  · cases hcorrect
    exact hcorrected

/-- The processors of the compiler keep a schema lawful. -/
theorem Lawful.process (hlaw : Field.FieldLaw c P) (h : Lawful entity P schema) {field : String} {declared : Value}
    (hprocess : process {} entity field declared schema = .ok schema') : Lawful entity P schema' := by
  obtain rfl | ⟨_, _, paths, added, -, -, hadded, -, rfl⟩ := process_cases hprocess
  · exact h
  · refine Lawful.overlay_fields hlaw ?_ (fieldsWith_plain hlaw hadded.plain)
    exact List.foldlRecOn paths _ h fun acc hacc text htext => by
      rw [hadded.place text htext]
      exact hacc.unset hlaw (length_place entity field)

theorem Lawful.withDefaultAttribute (hlaw : Field.FieldLaw c P)
    (hown : ∀ field v, d.ownDefault? field = some v → P (.text field) [("default", v)]) (h : Lawful entity P schema)
    (field : String) : Lawful entity P (withDefaultAttribute d entity field schema) := by
  unfold Entity.withDefaultAttribute
  split
  · rename_i v hv
    refine h.overlay_fields hlaw (Field.FieldsWith.of_mem hlaw.mergeLaw (Members.distinct_singleton _ _) fun entry he => ?_)
    rw [List.mem_singleton] at he
    subst he
    exact ⟨_, rfl, Members.distinct_singleton _ _, hown field v hv⟩
  · exact h

theorem plain_streamFields : Field.FieldsWith (fun _ => Field.Plain) streamFields := by
  refine plain_of_forall (by simp [streamFields, Members.Distinct, Members.keys]; decide) fun entry he => ?_
  simp only [streamFields, List.mem_cons, List.not_mem_nil, or_false] at he
  rcases he with rfl | rfl | rfl <;>
    exact ⟨_, rfl, by simp [Members.Distinct, Members.keys]; decide, by simp [Members.get?_cons], by simp [Members.get?_cons]⟩

/-- The corrections of all fields keep a schema lawful. -/
theorem Lawful.correct (hlaw : Field.FieldLaw c P)
    (hown : ∀ field v, d.ownDefault? field = some v → P (.text field) [("default", v)]) (h : Lawful entity P schema)
    (hcorrect : correct {} d entity fields schema = .ok schema') : Lawful entity P schema' :=
  correct_invariant (Lawful entity P) (fun _ _ _ _ hprocess hs => hs.process hlaw hprocess)
    (fun field _ hs => hs.withDefaultAttribute hlaw hown field)
    (fun _ hs => hs.overlay_fields hlaw (fieldsWith_plain hlaw plain_streamFields)) h hcorrect

end

end Entity

end EntitySchema
