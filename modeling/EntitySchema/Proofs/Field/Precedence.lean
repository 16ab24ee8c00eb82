import EntitySchema.Proofs.Field.Total
import EntitySchema.Proofs.Tree.Assoc

/-!
# Declarations over the parameters of their types

Parameters of a type lie beneath the declared ones name by name, and names become attributes afterwards. All attributes but one
have one declared name, so what is declared stands. The length has two: a declaration that gives it under the long name only is
overruled by a type that gives it under the short one.

* `Says`: declarations that say something of an attribute.
* `Overruled`: a declared length that is replaced by one of the type.
* `KeepsDeclared`: the parameters of the type make no difference to an attribute.

Results:
* `given_resolve`: what a resolved field has under an attribute of which something is said.
* `said_withTypeDefs`: what declared parameters over those of the type say of an attribute.
* `keepsDeclared_iff`: when the parameters of the type make no difference.
-/
namespace EntitySchema

namespace FieldType

/-- A type that lays no parameters beneath its fields. -/
def withoutDefs (t : FieldType) : FieldType :=
  ⟨Members.erase t.body "fieldDefs"⟩

@[simp] theorem fieldDefs_withoutDefs (t : FieldType) : t.withoutDefs.fieldDefs = [] := by
  rw [fieldDefs, withoutDefs, Members.value, Members.get?_erase, if_pos BEq.rfl]
  rfl

@[simp] theorem isSkipped_withoutDefs (t : FieldType) : t.withoutDefs.isSkipped = t.isSkipped := by
  rw [isSkipped, withoutDefs, Members.value, Members.get?_erase, if_neg (by simp)]
  rfl

end FieldType

namespace Field

variable {c : Config} {params : Params} {t : FieldType} {target : String}

/-! ## Parameters beneath a declaration -/

/-- A declaration says something of an attribute: one of its names is declared, and none with an object, into which the object of
a type would be merged. -/
structure Says (params : Params) (target : String) : Prop where
  named : ∃ declared ∈ declaredNames target, params.contains declared = true
  plain : ∀ declared ∈ declaredNames target, (params.value declared).kind ≠ .object

theorem Says.not_object (h : Says params target) {declared : String} (hdeclared : declared ∈ declaredNames target) {v : Value}
    (hv : Members.get? params declared = some v) : ∀ m, v ≠ .object m := by
  intro m heq
  refine h.plain declared hdeclared ?_
  rw [Members.value_of_get? hv, heq, Value.kind_object]

/-- A length declared under its long name only, while the parameters of the type have another one under the short name. -/
def Overruled (params defs : Params) : Prop :=
  Members.get? params "len" = none ∧ ∃ v, Members.get? defs "len" = some v ∧ Members.get? params "maxLength" ≠ some v

/-- What is declared stands, unless it is an object. -/
theorem get?_withTypeDefs_of_declared (hd : params.Distinct) {key : Key} (hkey : key ≠ .text "notStorable") {v : Value}
    (hv : Members.get? params key = some v) (hplain : ∀ m, v ≠ .object m) :
    Members.get? (withTypeDefs t params) key = some v := by
  rw [get?_withTypeDefs hkey, Members.get?_overlay_of_not_object _ hd hv hplain]

theorem get?_withTypeDefs_of_none {key : Key} (hkey : key ≠ .text "notStorable") (h : Members.get? params key = none) :
    Members.get? (withTypeDefs t params) key = Members.get? t.fieldDefs key := by
  rw [get?_withTypeDefs hkey, Members.overlay, Members.get?_merge_of_none h]

/-- Of an attribute with one name the type says nothing that the declaration does not say. -/
theorem said_withTypeDefs (hd : params.Distinct) (hsaid : Says params target) (hplain : target ∉ ["notStorable", "notNull"])
    (hlen : target ≠ "len") : said c (withTypeDefs t params) target = said c params target := by
  obtain ⟨declared, hdeclared, hthere⟩ := hsaid.named
  obtain ⟨v, hv⟩ := Option.isSome_iff_exists.1 hthere
  have hmark : Key.text declared ≠ .text "notStorable" := fun heq =>
    not_mark_of_mem_declaredNames hdeclared hplain (by rw [Key.text.inj heq]; decide)
  rw [said_eq_singleton hdeclared hlen, said_eq_singleton hdeclared hlen,
    get?_withTypeDefs_of_declared hd hmark hv (hsaid.not_object hdeclared hv), hv]

/-- Of the length the short name of the type comes between the two names of the declaration. -/
theorem said_len_withTypeDefs (hd : params.Distinct) (hsaid : Says params "len") :
    said c (withTypeDefs t params) "len" =
      (Members.get? params "len").or ((Members.get? t.fieldDefs "len").or (Members.get? params "maxLength")) := by
  rw [said_len]
  cases hshort : Members.get? params "len" with
  | some v => rw [get?_withTypeDefs_of_declared hd (by simp) hshort (hsaid.not_object (by decide) hshort)]; rfl
  | none =>
    have hlong : (Members.get? params "maxLength").isSome = true := by
      obtain ⟨declared, hdeclared, hthere⟩ := hsaid.named
      rw [declaredNames_len] at hdeclared
      rcases List.mem_pair.1 hdeclared with rfl | rfl
      · exact hthere
      · rw [Members.contains, hshort] at hthere
        cases hthere
    obtain ⟨v, hv⟩ := Option.isSome_iff_exists.1 hlong
    rw [get?_withTypeDefs_of_none (by simp) hshort,
      get?_withTypeDefs_of_declared hd (by simp) hv (hsaid.not_object (by decide) hv), hv]
    rfl

theorem exists_said_len (hd : params.Distinct) (hsaid : Says params "len") : ∃ v, said c (withTypeDefs t params) "len" = some v := by
  rw [said_len_withTypeDefs hd hsaid]
  obtain ⟨declared, hdeclared, hthere⟩ := hsaid.named
  rw [declaredNames_len] at hdeclared
  obtain ⟨v, hv⟩ := Option.isSome_iff_exists.1 hthere
  rcases List.mem_pair.1 hdeclared with rfl | rfl
  · rw [hv]
    cases Members.get? params "len" <;> cases Members.get? t.fieldDefs "len" <;> simp
  · simp [hv]

/-- The type changes what is said of an attribute only by overruling a declared length. -/
theorem said_withTypeDefs_eq_iff (hd : params.Distinct) (hsaid : Says params target)
    (hplain : target ∉ ["notStorable", "notNull"]) :
    said c (withTypeDefs t params) target = said c (withTypeDefs t.withoutDefs params) target ↔
      ¬(target = "len" ∧ Overruled params t.fieldDefs) := by
  by_cases hlen : target = "len"
  · subst hlen
    rw [said_len_withTypeDefs hd hsaid, said_len_withTypeDefs hd hsaid, FieldType.fieldDefs_withoutDefs, Members.get?_nil]
    unfold Overruled
    cases Members.get? params "len" with
    | some v => simp
    | none =>
      cases Members.get? t.fieldDefs "len" with
      | none => simp
      | some n => simp [eq_comm]
  · rw [said_withTypeDefs hd hsaid hplain hlen, said_withTypeDefs hd hsaid hplain hlen]
    simp [hlen]

/-! ## What the type makes of a declaration -/

variable {name : String}

/-- A field that is not left out is left out even less without the parameters of its type. -/
theorem kept_withoutDefs (hd : params.Distinct) (h : (resolve c name params t).result ≠ .ok none) :
    (resolve c name params t.withoutDefs).result ≠ .ok none := by
  refine fun hnone => h (resolve_eq_none_iff.2 ?_)
  refine (resolve_eq_none_iff.1 hnone).imp (fun hskip => by rwa [FieldType.isSkipped_withoutDefs] at hskip) fun hmark => ?_
  rw [Members.value, get?_withTypeDefs (by simp), FieldType.fieldDefs_withoutDefs, Members.overlay_nil_left hd] at hmark
  rw [Members.value, get?_withTypeDefs (by simp)]
  exact Members.truthy_overlay _ hd hmark

/-- What a field has under an attribute, if it is resolved and not left out. -/
def given (field : Run (Option Params)) (target : String) : Except Error (Option (Option Value)) :=
  field.result.map (Option.map fun attributes => Members.get? attributes (.text target))

/-- Under an attribute of which something is said, a resolved field has what is said. -/
theorem given_resolve (hd : params.Distinct) (h : (resolve c name params t).result ≠ .ok none) (hsaid : Says params target)
    (hplain : target ∉ ["notStorable", "notNull"]) (hread : Readable (withTypeDefs t params)) :
    given (resolve c name params t) target = .ok (some (said c (withTypeDefs t params) target)) := by
  have hattribute : target ∉ ["notStorable", "notNull", "fieldType"] := by
    have hnone : declaredNames "fieldType" = [] := by decide
    obtain ⟨declared, hdeclared, -⟩ := hsaid.named
    have hne : target ≠ "fieldType" := fun heq => by
      rw [heq, hnone] at hdeclared
      cases hdeclared
    simp_all
  obtain ⟨m, hm, hget⟩ := compiled_of_readable (c := c) hread
  have hlen : target = "len" → said c (withTypeDefs t params) "len" ≠ none := fun heq hnone => by
    obtain ⟨v, hv⟩ := exists_said_len (c := c) (t := t) hd (heq ▸ hsaid)
    rw [hv] at hnone
    cases hnone
  rw [given, result_resolve h, hm, ← hget target hattribute hlen]
  rfl

theorem given_resolve_of_not_readable (h : (resolve c name params t).result ≠ .ok none)
    (hread : ¬Readable (withTypeDefs t params)) : given (resolve c name params t) target = .error (.misused .badOperand) := by
  rw [given, result_resolve h, compiled_of_not_readable hread]
  rfl

/-- A declaration whose length is said can be read whatever the type is. -/
theorem readable_of_says_len (hd : params.Distinct) (hsaid : Says params "len") : Readable (withTypeDefs t params) := by
  intro _ hlong hshort
  obtain ⟨v, hv⟩ := exists_said_len (c := {}) (t := t) hd hsaid
  rw [said_len] at hv
  simp_all [Members.contains]

/-- The parameters of the type make no difference to an attribute: with them and without them the field has the same under it, or
lacks it. -/
def KeepsDeclared (c : Config) (name : String) (params : Params) (t : FieldType) (target : String) : Prop :=
  given (resolve c name params t) target = given (resolve c name params t.withoutDefs) target

/-- To an attribute of which a declaration says something the parameters of its type make no difference exactly if they do not
overrule a declared length, and do not make readable or unreadable what was not so before. -/
theorem keepsDeclared_iff (hd : params.Distinct) (hkept : (resolve c name params t).result ≠ .ok none)
    (hsaid : Says params target) (hplain : target ∉ ["notStorable", "notNull"]) :
    KeepsDeclared c name params t target ↔
      ¬(target = "len" ∧ Overruled params t.fieldDefs) ∧
        (Readable (withTypeDefs t params) ↔ Readable (withTypeDefs t.withoutDefs params)) := by
  have hkept' := kept_withoutDefs hd hkept
  have hnot : ¬Readable (withTypeDefs t params) → ¬(target = "len" ∧ Overruled params t.fieldDefs) := fun hread hlen =>
    hread (readable_of_says_len hd (hlen.1 ▸ hsaid))
  unfold KeepsDeclared
  by_cases hwith : Readable (withTypeDefs t params) <;> by_cases hwithout : Readable (withTypeDefs t.withoutDefs params)
  · rw [given_resolve hd hkept hsaid hplain hwith, given_resolve hd hkept' hsaid hplain hwithout]
    simp [said_withTypeDefs_eq_iff hd hsaid hplain, hwith, hwithout]
  · rw [given_resolve hd hkept hsaid hplain hwith, given_resolve_of_not_readable hkept' hwithout]
    simp [hwith, hwithout]
  · rw [given_resolve_of_not_readable hkept hwith, given_resolve hd hkept' hsaid hplain hwithout]
    simp [hwith, hwithout]
  · rw [given_resolve_of_not_readable hkept hwith, given_resolve_of_not_readable hkept' hwithout]
    simpa [hwith, hwithout] using hnot hwith

/-- A type of codes that gives its fields both names of the length, a default and a mark. -/
def codeType : FieldType :=
  ⟨[("fieldDefs", .object [("maxLength", .int 40), ("len", .int 50), ("default", .str "none"), ("unique", .bool true)])]⟩

/-- A declared code with a short name of its length and with a computed default. -/
def shortCode : Params :=
  [("type", .str "code"), ("len", .int 100), ("default", .str "javascript:next()")]

theorem keepsDeclared_iff_shortCode : KeepsDeclared {} "code" shortCode codeType "len" ∧
    given (resolve {} "code" shortCode codeType) "len" = .ok (some (some (.int 100))) := by
  have hkept : (resolve {} "code" shortCode codeType).result ≠ .ok none := by
    rw [ne_eq, resolve_eq_none_iff]
    decide
  have hsaid : Says shortCode "len" := ⟨by decide, by decide⟩
  have hread : ∀ t, Readable (withTypeDefs t shortCode) := fun t => readable_of_says_len (by decide) hsaid
  exact ⟨(keepsDeclared_iff (by decide) hkept hsaid (by decide)).2
    ⟨fun h => absurd h.2.1 (fun h => nomatch h), iff_of_true (hread _) (hread _)⟩, rfl⟩

/-- A declared code with the long name of its length. -/
def longCode : Params :=
  [("type", .str "code"), ("maxLength", .int 100)]

/-- A declared length is lost if it has the long name and the type gives another one under the short name. -/
theorem exists_overruled_length : Members.Distinct longCode ∧ (resolve {} "code" longCode codeType).result ≠ .ok none ∧
    Says longCode "len" ∧ given (resolve {} "code" longCode codeType.withoutDefs) "len" = .ok (some (some (.int 100))) ∧
    given (resolve {} "code" longCode codeType) "len" = .ok (some (some (.int 50))) ∧
    ¬KeepsDeclared {} "code" longCode codeType "len" := by
  have hkept : (resolve {} "code" longCode codeType).result ≠ .ok none := by
    rw [ne_eq, resolve_eq_none_iff]
    decide
  have hwithout : given (resolve {} "code" longCode codeType.withoutDefs) "len" = .ok (some (some (.int 100))) := rfl
  have hwith : given (resolve {} "code" longCode codeType) "len" = .ok (some (some (.int 50))) := rfl
  refine ⟨by decide, hkept, ⟨by decide, by decide⟩, hwithout, hwith, fun hkeeps => ?_⟩
  rw [KeepsDeclared, hwith, hwithout] at hkeeps
  cases hkeeps

end Field

end EntitySchema
