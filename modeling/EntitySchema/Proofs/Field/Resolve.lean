import EntitySchema.Field.Resolve
import EntitySchema.Proofs.Members
import EntitySchema.Proofs.Run

/-!
# Attributes of resolved fields

Declared names become attributes in the order of a table, and of two names of one attribute the later one decides. A resolved
field has the attributes that its declaration becomes, and besides only a mark and a length may be set.

* `declaredNames`: the names that become an attribute.
* `said`: what a declaration says of an attribute.

Results:
* `get?_attributes`: an attribute is what the declaration says of it.
* `said_len`: the short name of the length counts before the long one.
* `get?_compiled`: the attributes of a resolved field.
* `resolve_eq_none_iff`, `result_resolve`: when a field is left out, and what it is compiled from otherwise.
* `startsWith_of_compiled_default`: a text default of a resolved field is not computed.
-/
namespace EntitySchema.Field

variable {c : Config} {params : Params} {t : FieldType} {target : String}

/-! ## Names of an attribute -/

/-- The declared names that become an attribute, in their order. -/
def declaredNames (target : String) : List String :=
  (compiledNames.filter fun name => name.2 = target).map Prod.fst

theorem mem_declaredNames {declared : String} :
    declared ∈ declaredNames target ↔ ∃ name ∈ compiledNames, name.1 = declared ∧ name.2 = target := by
  simp [declaredNames, and_comm]

/-- Only the length has more than one name. -/
theorem declaredNames_eq_singleton {declared : String} (h : declared ∈ declaredNames target) (hlen : target ≠ "len") :
    declaredNames target = [declared] := by
  have hsingle : ∀ name ∈ compiledNames, name.2 ≠ "len" → declaredNames name.2 = [name.1] := by decide
  obtain ⟨name, hname, rfl, rfl⟩ := mem_declaredNames.1 h
  exact hsingle name hname hlen

/-- What a declaration says of an attribute: the last of its names that has a value for it decides. -/
def said (c : Config) (params : Params) (target : String) : Option Value :=
  (declaredNames target).reverse.findSome? fun declared : String => (Members.get? params declared).bind (attribute? c declared)

/-- What stands under an attribute after names were renamed is the value of the last of its names that has one. -/
theorem get?_foldl_rename (c : Config) (params : Params) (names : List (String × String)) (acc : Params) (target : String) :
    Members.get? (names.foldl (fun acc name =>
        match (Members.get? params name.1).bind (attribute? c name.1) with
        | some v => Members.set acc name.2 v
        | none => acc) acc) target =
      (((names.filter fun name => name.2 = target).map Prod.fst).reverse.findSome? fun declared : String =>
        (Members.get? params declared).bind (attribute? c declared)).or (Members.get? acc target) := by
  induction names generalizing acc with
  | nil => rfl
  | cons name rest ih =>
    rw [List.foldl_cons, ih]
    by_cases hname : name.2 = target
    · rw [List.filter_cons_of_pos (by simpa using hname), List.map_cons, List.reverse_cons, List.findSome?_append, Option.or_assoc]
      congr 1
      cases hv : (Members.get? params name.1).bind (attribute? c name.1) with
      | none => simp [hv]
      | some v => simp [hv, hname, Members.get?_set_self]
    · rw [List.filter_cons_of_neg (by simpa using hname)]
      congr 1
      cases (Members.get? params name.1).bind (attribute? c name.1) with
      | none => rfl
      | some v => exact (Members.get?_set _ _ _ _).trans (if_neg (by simpa using hname))

/-- An attribute of a declaration is what the declaration says of it. -/
theorem get?_attributes (h : target ≠ "fieldType") : Members.get? (attributes c params) target = said c params target := by
  have hrenamed := get?_foldl_rename c params compiledNames [] target
  rw [Members.get?_nil, Option.or_none] at hrenamed
  unfold attributes
  simp only
  split
  · rw [Members.get?_set, if_neg (by simpa using Ne.symm h)]
    exact hrenamed
  · exact hrenamed

theorem said_eq_singleton {declared : String} (h : declared ∈ declaredNames target) (hlen : target ≠ "len") :
    said c params target = (Members.get? params declared).bind (attribute? c declared) := by
  rw [said, declaredNames_eq_singleton h hlen]
  simp

/-- Declarations with the same values under the names of an attribute say the same of it. -/
theorem said_congr {params' : Params}
    (h : ∀ declared ∈ declaredNames target, Members.get? params declared = Members.get? params' declared) :
    said c params target = said c params' target := by
  unfold said
  rw [← List.head?_filterMap, ← List.head?_filterMap]
  exact congrArg List.head? (List.filterMap_congr fun declared hmem => by rw [h declared (List.mem_reverse.1 hmem)])

theorem said_eq_none (h : declaredNames target = []) : said c params target = none := by
  rw [said, h]
  rfl

theorem said_type : said c params "type" = Members.get? params "type" := by
  have htype : "type" ∈ declaredNames "type" := by decide
  rw [said_eq_singleton htype (by decide)]
  cases Members.get? params "type" <;> rfl

theorem declaredNames_len : declaredNames "len" = ["maxLength", "len"] := by decide

/-- The short name of the length counts before the long one. -/
theorem said_len : said c params "len" = (Members.get? params "len").or (Members.get? params "maxLength") := by
  have hfixed : ∀ declared : String, declared ≠ "default" → attribute? c declared = some := fun declared hne => by
    funext v
    exact if_neg hne
  rw [said, declaredNames_len]
  cases hshort : Members.get? params "len" <;> simp [hshort, hfixed]

/-- The names under which a field is marked become the marks only. -/
theorem not_mark_of_mem_declaredNames {declared : String} (h : declared ∈ declaredNames target)
    (hplain : target ∉ ["notStorable", "notNull"]) : declared ∉ ["notStorable", "notNull"] := by
  have hmarks : ∀ name ∈ compiledNames, name.1 ∈ ["notStorable", "notNull"] → name.2 ∈ ["notStorable", "notNull"] := by decide
  obtain ⟨name, hname, rfl, rfl⟩ := mem_declaredNames.1 h
  exact fun hmark => hplain (hmarks name hname hmark)

/-! ## Attributes -/

theorem foldl_rename_invariant (c : Config) (params : Params) (Q : Params → Prop) (h0 : Q [])
    (hset : ∀ acc name v, name ∈ compiledNames → (params.get? (.text name.1)).bind (attribute? c name.1) = some v → Q acc →
      Q (Members.set acc name.2 v)) :
    Q (compiledNames.foldl (fun acc name =>
      match (Members.get? params name.1).bind (attribute? c name.1) with
      | some v => Members.set acc name.2 v
      | none => acc) []) := by
  refine List.foldlRecOn compiledNames _ h0 fun acc hacc name hname => ?_
  split
  · rename_i v hv
    exact hset acc name v hname hv hacc
  · exact hacc

theorem distinct_attributes : Members.Distinct (attributes c params) := by
  have hrenamed := foldl_rename_invariant c params Members.Distinct Members.distinct_nil
    fun _ _ _ _ _ hacc => Members.distinct_set _ _ hacc
  unfold attributes
  simp only
  split
  · exact Members.distinct_set _ _ hrenamed
  · exact hrenamed

theorem get?_withoutIdleNotNull {key : Key} (h : key ≠ .text "notNull") :
    Members.get? (withoutIdleNotNull params) key = Members.get? params key := by
  unfold withoutIdleNotNull
  split
  · rw [Members.get?_erase, if_neg (by simpa using h)]
  · rfl

theorem said_withoutIdleNotNull (hplain : target ∉ ["notStorable", "notNull"]) :
    said c (withoutIdleNotNull params) target = said c params target := by
  refine said_congr fun declared hdeclared => get?_withoutIdleNotNull fun heq => ?_
  exact not_mark_of_mem_declaredNames hdeclared hplain (by rw [Key.text.inj heq]; decide)

theorem get?_withTypeDefs {key : Key} (h : key ≠ .text "notStorable") :
    Members.get? (withTypeDefs t params) key = Members.get? (t.fieldDefs.overlay params) key := by
  unfold withTypeDefs
  simp only
  split
  · rw [Members.get?_set, if_neg (by simpa using h)]
  · rfl

theorem withDefaultLength_eq_ok {defs m : Params} (h : withDefaultLength c defs = .ok m) :
    m = defs ∨ ∃ n, m = defs.set "len" (.int n) := by
  unfold withDefaultLength at h
  simp only at h
  split at h
  · obtain ⟨word, -, rfl⟩ := map_eq_ok.1 h
    split
    · exact .inr ⟨_, rfl⟩
    · exact .inl rfl
  · cases h; exact .inl rfl

/-- A resolved field is its attributes, perhaps with a mark and with a length. -/
theorem compiled_eq_ok {m : Params} (h : compiled c params = .ok m) :
    ∃ defs, (defs = attributes c (withoutIdleNotNull params) ∨
        defs = (attributes c (withoutIdleNotNull params)).set "notStorable" (.bool true)) ∧
      (m = defs ∨ ∃ n, m = defs.set "len" (.int n)) := by
  unfold compiled at h
  simp only at h
  split at h
  · exact ⟨_, .inr rfl, withDefaultLength_eq_ok h⟩
  · exact ⟨_, .inl rfl, withDefaultLength_eq_ok h⟩

theorem get?_compiled {m : Params} (h : compiled c params = .ok m) {key : Key} (hmark : key ≠ .text "notStorable")
    (hlen : key ≠ .text "len") :
    Members.get? m key = Members.get? (attributes c (withoutIdleNotNull params)) key := by
  obtain ⟨defs, hdefs, hm⟩ := compiled_eq_ok h
  have hsame : Members.get? defs key = Members.get? (attributes c (withoutIdleNotNull params)) key := by
    rcases hdefs with rfl | rfl
    · rfl
    · rw [Members.get?_set, if_neg (by simpa using hmark)]
  rcases hm with rfl | ⟨n, rfl⟩
  · exact hsame
  · rw [Members.get?_set, if_neg (by simpa using hlen), hsame]

theorem distinct_compiled {m : Params} (h : compiled c params = .ok m) : Members.Distinct m := by
  obtain ⟨defs, hdefs, hm⟩ := compiled_eq_ok h
  have hd : Members.Distinct defs := by
    rcases hdefs with rfl | rfl
    · exact distinct_attributes
    · exact Members.distinct_set _ _ distinct_attributes
  rcases hm with rfl | ⟨n, rfl⟩
  · exact hd
  · exact Members.distinct_set _ _ hd

/-! ## Resolved fields -/

/-- A field is left out for its type, or for a mark in the parameters. -/
theorem resolve_eq_none_iff {name : String} : (resolve c name params t).result = .ok none ↔
    t.isSkipped = true ∨ ((withTypeDefs t params).value "skipOrmDefs").truthy = true := by
  rw [← Bool.or_eq_true]
  unfold resolve
  simp only
  split
  · rename_i hskip
    exact iff_of_true rfl hskip
  · rename_i hkept
    refine iff_of_false (fun hnone => ?_) hkept
    obtain ⟨m, -, h⟩ := Run.result_bind_eq_ok.1 hnone
    cases h

/-- A field that is not left out is compiled from the declared parameters over those of the type. -/
theorem result_resolve {name : String} (h : (resolve c name params t).result ≠ .ok none) :
    (resolve c name params t).result = (liftM (compiled c (withTypeDefs t params)) : Except Error Params).map some := by
  have hkept : ¬(t.isSkipped || ((withTypeDefs t params).value "skipOrmDefs").truthy) = true := by
    rw [Bool.or_eq_true]
    exact fun hskip => h (resolve_eq_none_iff.2 hskip)
  unfold resolve
  simp only
  rw [if_neg hkept, Run.result_bind]
  cases compiled c (withTypeDefs t params) <;> rfl

/-- A field that is resolved and not left out is compiled from its declaration over that of its type. -/
theorem compiled_of_resolve {name : String} {t : FieldType} {m : Params}
    (h : (resolve c name params t).result = .ok (some m)) : compiled c (withTypeDefs t params) = .ok m := by
  have hkept : (resolve c name params t).result ≠ .ok none := by
    rw [h]
    exact fun hnone => nomatch hnone
  rw [result_resolve hkept] at h
  obtain ⟨m', hm', hsame⟩ := map_eq_ok.1 h
  cases hsame
  exact lift_eq_ok.1 hm'

/-- No declared name becomes a mark that is not written in camel case. -/
theorem get?_compiled_not_storable {m : Params} (h : compiled c params = .ok m) :
    Members.get? m "not_storable" = none := by
  rw [get?_compiled h (by simp) (by simp), get?_attributes (by decide), said_eq_none (by decide)]

/-- A text default of a resolved field is not computed. -/
theorem startsWith_of_compiled_default {m : Params} (h : compiled c params = .ok m) {text : String}
    (hdefault : Members.get? m "default" = some (.str text)) :
    FieldDefault.startsWith text c.computedDefaultStart = false := by
  have hname : "default" ∈ declaredNames "default" := by decide
  rw [get?_compiled h (by simp) (by simp), get?_attributes (by decide), said_eq_singleton hname (by decide)] at hdefault
  obtain ⟨v, -, hv⟩ := Option.bind_eq_some_iff.1 hdefault
  rw [attribute?, if_pos rfl] at hv
  unfold FieldDefault.ofValue at hv
  cases v with
  | str s =>
    simp only at hv
    split at hv
    · rename_i heq
      split at heq
      · cases heq
      · rename_i hnot
        cases heq
        cases hv
        simpa using hnot
    · cases hv
  | _ => cases hv

end EntitySchema.Field
