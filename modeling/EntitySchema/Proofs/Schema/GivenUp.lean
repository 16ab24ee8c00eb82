import EntitySchema.Proofs.Schema.Entities

/-!
# Entities that are given up

Entities are compiled in their order. One whose error concerns it alone is given up with a message, and the others are compiled
as if it was not there; the first other error stops the compilation. If all names differ, what each of the others was compiled
to stands in the tree.

* `compiles`: an entity that is not given up.
* `Passes`: an entity that does not stop the compilation.

Results:
* `compileEntities_isOk_iff`, `exists_of_compileEntities_eq_error`: when and why the compilation stops.
* `compileEntities_filter`: the others are compiled as if those that are given up were not there.
* `mem_diagnostics_compileEntities`: each of those leaves a message.
* `compileEntities_eq_append`, `compileEntities_eq_ok`: the tree of entities with different names.
* `exists_entry_of_get?`, `exists_isEntryOf`: what stands in that tree, and which entities do.
-/
namespace EntitySchema.Schema

variable {c : Compiler} {m : Metadata} {tree : Members Key Value} {entities rest : List (Key × Declared)}
  {entry : Key × Declared} {one : Compiled} {e : Error}

/-! ## One after the other -/

/-- Whether an entity is compiled. -/
def compiles (c : Compiler) (m : Metadata) (entry : Key × Declared) : Bool :=
  gives (compileEntity c m entry.1 entry.2).result fun _ => true

/-- The compilation goes on after an entity: it is compiled or given up. -/
def Passes (c : Compiler) (m : Metadata) (entry : Key × Declared) : Prop :=
  ∀ e, (compileEntity c m entry.1 entry.2).result = .error e → e.skips = true

theorem passes_of_ok (h : (compileEntity c m entry.1 entry.2).result = .ok one) : Passes c m entry := by
  intro e he
  rw [h] at he
  cases he

theorem passes_of_skips (h : (compileEntity c m entry.1 entry.2).result = .error e) (he : e.skips = true) :
    Passes c m entry := by
  intro e' he'
  rw [h] at he'
  cases he'
  exact he

theorem compileEntities_of_ok (h : (compileEntity c m entry.1 entry.2).result = .ok one) :
    (compileEntities c m tree (entry :: rest)).result = (compileEntities c m (addEntity tree entry.1 one) rest).result := by
  obtain ⟨entity, declared⟩ := entry
  rw [compileEntities, Run.bind_of_ok (Run.orGiveUp_eq_ok_some.2 h)]

theorem compileEntities_of_skips (h : (compileEntity c m entry.1 entry.2).result = .error e) (he : e.skips = true) :
    (compileEntities c m tree (entry :: rest)).result = (compileEntities c m tree rest).result := by
  obtain ⟨entity, declared⟩ := entry
  rw [compileEntities, Run.bind_of_ok (Run.orGiveUp_eq_ok_none.2 ⟨e, h, he⟩)]

theorem compileEntities_of_stops (h : (compileEntity c m entry.1 entry.2).result = .error e) (he : e.skips = false) :
    (compileEntities c m tree (entry :: rest)).result = .error e := by
  obtain ⟨entity, declared⟩ := entry
  rw [compileEntities, Run.result_bind, Run.orGiveUp_eq_error h he]
  rfl

/-- The entities are compiled exactly if none of them stops the compilation. -/
theorem compileEntities_isOk_iff :
    (∃ compiled, (compileEntities c m tree entities).result = .ok compiled) ↔ ∀ entry ∈ entities, Passes c m entry := by
  induction entities generalizing tree with
  | nil => exact ⟨fun _ _ he => absurd he List.not_mem_nil, fun _ => ⟨tree, rfl⟩⟩
  | cons entry rest ih =>
    rw [List.forall_mem_cons]
    cases hone : (compileEntity c m entry.1 entry.2).result with
    | ok one =>
      rw [compileEntities_of_ok hone, ih]
      exact ⟨fun h => ⟨passes_of_ok hone, h⟩, And.right⟩
    | error e =>
      cases he : e.skips with
      | true =>
        rw [compileEntities_of_skips hone he, ih]
        exact ⟨fun h => ⟨passes_of_skips hone he, h⟩, And.right⟩
      | false =>
        rw [compileEntities_of_stops hone he]
        refine ⟨fun ⟨_, h⟩ => (nomatch h), fun h => ?_⟩
        rw [h.1 e hone] at he
        cases he

/-- The compilation stops with the error of the first entity that does not pass. -/
theorem exists_of_compileEntities_eq_error (h : (compileEntities c m tree entities).result = .error e) :
    ∃ before entry after, entities = before ++ entry :: after ∧ (∀ b ∈ before, Passes c m b) ∧
      (compileEntity c m entry.1 entry.2).result = .error e ∧ e.skips = false := by
  induction entities generalizing tree with
  | nil => cases h
  | cons first rest ih =>
    cases hone : (compileEntity c m first.1 first.2).result with
    | ok one =>
      rw [compileEntities_of_ok hone] at h
      obtain ⟨before, entry, after, rfl, hbefore, hentry⟩ := ih h
      exact ⟨first :: before, entry, after, rfl, List.forall_mem_cons.2 ⟨passes_of_ok hone, hbefore⟩, hentry⟩
    | error e' =>
      cases he : e'.skips with
      | true =>
        rw [compileEntities_of_skips hone he] at h
        obtain ⟨before, entry, after, rfl, hbefore, hentry⟩ := ih h
        exact ⟨first :: before, entry, after, rfl, List.forall_mem_cons.2 ⟨passes_of_skips hone he, hbefore⟩, hentry⟩
      | false =>
        rw [compileEntities_of_stops hone he] at h
        cases h
        exact ⟨[], first, rest, rfl, fun _ hb => absurd hb List.not_mem_nil, hone, he⟩

/-- Entities that are given up have no part in what the others are compiled to. -/
theorem compileEntities_filter (h : ∀ entry ∈ entities, Passes c m entry) :
    (compileEntities c m tree (entities.filter (compiles c m))).result = (compileEntities c m tree entities).result := by
  induction entities generalizing tree with
  | nil => rfl
  | cons entry rest ih =>
    obtain ⟨hentry, hrest⟩ := List.forall_mem_cons.1 h
    cases hone : (compileEntity c m entry.1 entry.2).result with
    | ok one =>
      rw [List.filter_cons_of_pos (by rw [compiles, hone]; rfl), compileEntities_of_ok hone, compileEntities_of_ok hone]
      exact ih hrest
    | error e =>
      rw [List.filter_cons_of_neg (by rw [compiles, hone]; exact Bool.false_ne_true),
        compileEntities_of_skips hone (hentry e hone)]
      exact ih hrest

/-- Every entity that is given up leaves a message. -/
theorem mem_diagnostics_compileEntities (h : ∀ entry ∈ entities, Passes c m entry) (hentry : entry ∈ entities)
    (he : (compileEntity c m entry.1 entry.2).result = .error e) :
    e.message ∈ (compileEntities c m tree entities).diagnostics := by
  induction entities generalizing tree with
  | nil => cases hentry
  | cons first rest ih =>
    obtain ⟨hfirst, hrest⟩ := List.forall_mem_cons.1 h
    obtain ⟨entity, declared⟩ := first
    rw [compileEntities]
    rcases List.mem_cons.1 hentry with rfl | hentry
    · exact Run.mem_diagnostics_bind_left (Run.mem_diagnostics_orGiveUp he (hfirst e he))
    · cases hone : (compileEntity c m entity declared).result with
      | ok one => exact Run.mem_diagnostics_bind_right (Run.orGiveUp_eq_ok_some.2 hone) (ih hrest hentry)
      | error e' =>
        exact Run.mem_diagnostics_bind_right (Run.orGiveUp_eq_ok_none.2 ⟨e', hone, hfirst e' hone⟩) (ih hrest hentry)

/-! ## Entities with different names -/

/-- What an entity was compiled to, perhaps with the mark that its tables are left as they are. -/
def IsEntryOf (entity : Key) (one : Compiled) (v : Value) : Prop :=
  ∃ own own' : Members Key Value, one.tree = [(entity, .object own)] ∧ v = .object own' ∧
    ∀ key ≠ Key.text "skipRebuild", Members.get? own' key = Members.get? own key

/-- The members of an entity, marked if its tables are left as they are. -/
def withMark (skips : Bool) (own : Members Key Value) : Members Key Value :=
  if skips then Members.overlay [("skipRebuild", .bool true)] own else own

/-- The mark of an entity is its own, if it has one. -/
theorem get?_withMark_self {own : Members Key Value} (hd : Members.Distinct own) (skips : Bool) :
    Members.get? (withMark skips own) "skipRebuild" = Members.get? own "skipRebuild" ∨
      Members.get? (withMark skips own) "skipRebuild" = some (.bool true) := by
  cases skips with
  | false => exact .inl rfl
  | true =>
    have hmark : Members.get? [(Key.text "skipRebuild", Value.bool true)] "skipRebuild" = some (.bool true) := rfl
    have hget := Members.get?_overlay [("skipRebuild", .bool true)] hd "skipRebuild"
    cases hown : Members.get? own "skipRebuild" with
    | none => rw [hown, hmark] at hget; exact .inr hget
    | some v =>
      rw [hown] at hget
      simp only [Members.mergedAt_of_get? hmark] at hget
      rw [Value.overlay_override_of_not_object fun _ _ h => Value.noConfusion h.1] at hget
      exact .inl hget

/-- The mark leaves everything else of an entity alone. -/
theorem get?_withMark_of_ne {own : Members Key Value} (hd : Members.Distinct own) (skips : Bool) {key : Key}
    (hkey : key ≠ .text "skipRebuild") : Members.get? (withMark skips own) key = Members.get? own key := by
  cases skips with
  | false => rfl
  | true =>
    have hother : Members.get? [(Key.text "skipRebuild", Value.bool true)] key = none := by
      rw [Members.get?_cons, if_neg (by simp [hkey])]
      rfl
    rw [withMark, if_pos rfl, Members.get?_overlay _ hd]
    cases Members.get? own key with
    | none => exact hother
    | some w => simp only [Members.mergedAt_of_get?_none hother]

/-- An entity whose name is new comes last in the tree. -/
theorem addEntity_eq_append {entity : Key} {own : Members Key Value} (hone : one.tree = [(entity, .object own)])
    (hnew : Members.get? tree entity = none) :
    addEntity tree entity one = tree ++ [(entity, .object (withMark one.skipsRebuild own))] := by
  rw [addEntity_eq hone]
  cases one.skipsRebuild with
  | false =>
    rw [marked, if_neg Bool.false_ne_true, Members.overlay_singleton, Members.mergedAt_of_get?_none hnew,
      Members.set_of_get?_none _ hnew]
    rfl
  | true =>
    -- the mark is put first, and the entity is laid over it
    have hmark : Members.get? (tree ++ [(entity, .object [("skipRebuild", .bool true)])]) entity =
        some (.object [("skipRebuild", .bool true)]) := by
      rw [Members.get?_append, hnew, Option.none_or, Members.get?_cons, if_pos BEq.rfl]
    rw [marked, if_pos rfl, Members.overlay_singleton tree, Members.mergedAt_of_get?_none hnew,
      Members.set_of_get?_none _ hnew, Members.overlay_singleton, Members.mergedAt_of_get? hmark, Value.overlay_object,
      Members.set_append_of_get?_none _ _ hnew, Members.set, if_pos BEq.rfl]
    rfl

theorem own_of_compileEntity (hc : c.registry = {}) {entity : Key} {declared : Declared}
    (h : (compileEntity c m entity declared).result = .ok one) :
    ∃ own fields : Members Key Value, one.tree = [(entity, .object own)] ∧ Members.Distinct own ∧
      Members.get? own "fields" = some (.object fields) := by
  obtain ⟨d, -, hcompile⟩ := compileEntity_eq_ok h
  obtain ⟨own, fields, hown, hd, hfields, -⟩ :=
    Entity.lawful_compile (Field.fieldLaw_true c.config) hc (fun _ _ _ => trivial) hcompile
  exact ⟨own, fields, hown, hd, hfields⟩

/-- In the tree of entities with different names stands what each was compiled to, in their order. -/
theorem compileEntities_eq_append (hc : c.registry = {}) (hd : Members.Distinct entities)
    (hnew : ∀ entry ∈ entities, Members.get? tree entry.1 = none) {compiled : Members Key Value}
    (h : (compileEntities c m tree entities).result = .ok compiled) :
    ∃ added, compiled = tree ++ added ∧
      List.Forall₂ (fun entry out => out.1 = entry.1 ∧ ∃ one own, (compileEntity c m entry.1 entry.2).result = .ok one ∧
        one.tree = [(entry.1, .object own)] ∧ Members.Distinct own ∧ out.2 = .object (withMark one.skipsRebuild own))
        (entities.filter (compiles c m)) added := by
  have hpasses := compileEntities_isOk_iff.1 ⟨compiled, h⟩
  induction entities generalizing tree with
  | nil => cases h; exact ⟨[], (List.append_nil _).symm, .nil⟩
  | cons entry rest ih =>
    obtain ⟨hentry, hrest⟩ := List.forall_mem_cons.1 hpasses
    obtain ⟨hnewentry, hnewrest⟩ := List.forall_mem_cons.1 hnew
    obtain ⟨hne, hdrest⟩ := Members.distinct_cons.1 hd
    cases hone : (compileEntity c m entry.1 entry.2).result with
    | ok one =>
      obtain ⟨own, -, hown, hdown, -⟩ := own_of_compileEntity hc hone
      rw [compileEntities_of_ok hone, addEntity_eq_append hown hnewentry] at h
      have hnew' : ∀ e ∈ rest, Members.get? (tree ++ [(entry.1, .object (withMark one.skipsRebuild own))]) e.1 = none :=
        fun e he => by
          rw [Members.get?_append, hnewrest e he, Option.none_or, Members.get?_cons, if_neg (by simp [hne e he])]
          rfl
      obtain ⟨added, rfl, hadded⟩ := ih hdrest hnew' h hrest
      refine ⟨(entry.1, .object (withMark one.skipsRebuild own)) :: added, by simp, ?_⟩
      rw [List.filter_cons_of_pos (by rw [compiles, hone]; rfl)]
      exact .cons ⟨rfl, one, own, hone, hown, hdown, rfl⟩ hadded
    | error e =>
      rw [compileEntities_of_skips hone (hentry e hone)] at h
      rw [List.filter_cons_of_neg (by rw [compiles, hone]; exact Bool.false_ne_true)]
      exact ih hdrest hnewrest h hrest

/-- Apart from its mark, each stands there as it was compiled. -/
theorem compileEntities_eq_ok (hc : c.registry = {}) (hd : Members.Distinct entities)
    (hnew : ∀ entry ∈ entities, Members.get? tree entry.1 = none) {compiled : Members Key Value}
    (h : (compileEntities c m tree entities).result = .ok compiled) :
    ∃ added, compiled = tree ++ added ∧
      List.Forall₂ (fun entry out => out.1 = entry.1 ∧ ∃ one, (compileEntity c m entry.1 entry.2).result = .ok one ∧
        IsEntryOf entry.1 one out.2) (entities.filter (compiles c m)) added := by
  obtain ⟨added, hcompiled, hadded⟩ := compileEntities_eq_append hc hd hnew h
  refine ⟨added, hcompiled, hadded.imp fun entry out hout => ?_⟩
  obtain ⟨hname, one, own, hone, hown, hdown, hv⟩ := hout
  exact ⟨hname, one, hone, own, _, hown, hv, fun _ hkey => get?_withMark_of_ne hdown one.skipsRebuild hkey⟩

theorem IsEntryOf.get?_eq {entity : Key} {v : Value} (h : IsEntryOf entity one v) {key : Key} (hkey : key ≠ .text "skipRebuild") :
    Members.get? v.members key = Members.get? (entityIn one.tree entity) key := by
  obtain ⟨own, own', hown, rfl, hget⟩ := h
  rw [hown, entityIn_singleton, Value.members_object, hget key hkey]

/-- Apart from its mark, an entity in the tree has the members that it was compiled with. -/
theorem IsEntryOf.get?_entityIn {entity : Key} {v : Value} (h : IsEntryOf entity one v) {compiled : Members Key Value} {key : Key}
    (hv : Members.get? compiled key = some v) {member : Key} (hmember : member ≠ .text "skipRebuild") :
    Members.get? (entityIn compiled key) member = Members.get? (entityIn one.tree entity) member := by
  rw [entityIn, Members.value_of_get? hv, h.get?_eq hmember]

theorem IsEntryOf.fieldsIn_eq {entity : Key} {v : Value} (h : IsEntryOf entity one v) {compiled : Members Key Value} {key : Key}
    (hv : Members.get? compiled key = some v) : fieldsIn compiled key = fieldsIn one.tree entity := by
  rw [fieldsIn, Members.value_congr (h.get?_entityIn hv (by simp)), fieldsIn]

/-- What stands in the tree is what one of the entities was compiled to, apart from its mark. -/
theorem exists_entry_of_get? (hc : c.registry = {}) (hd : Members.Distinct entities) {compiled : Members Key Value}
    (h : (compileEntities c m [] entities).result = .ok compiled) {key : Key} {v : Value}
    (hv : Members.get? compiled key = some v) :
    ∃ entry ∈ entities, (entry.1 == key) = true ∧ ∃ one, (compileEntity c m entry.1 entry.2).result = .ok one ∧
      IsEntryOf entry.1 one v := by
  obtain ⟨added, rfl, hadded⟩ := compileEntities_eq_ok hc hd (fun _ _ => rfl) h
  obtain ⟨k, hk, hmem⟩ := Members.exists_of_get? hv
  obtain ⟨entry, hentry, hname, one, hone, hentryOf⟩ := Members.forall₂_exists_right hadded hmem
  simp only at hname hentryOf
  subst hname
  exact ⟨entry, List.mem_of_mem_filter hentry, hk, one, hone, hentryOf⟩

/-- An entity in the tree has the fields that it was compiled with. -/
theorem exists_compiled_of_get? (hc : c.registry = {}) (hd : Members.Distinct entities) {compiled : Members Key Value}
    (h : (compileEntities c m [] entities).result = .ok compiled) {key : Key} {v : Value}
    (hv : Members.get? compiled key = some v) :
    ∃ entry ∈ entities, (entry.1 == key) = true ∧ ∃ one, (compileEntity c m entry.1 entry.2).result = .ok one ∧
      fieldsIn compiled key = fieldsIn one.tree entry.1 := by
  obtain ⟨entry, hentry, hkey, one, hone, hentryOf⟩ := exists_entry_of_get? hc hd h hv
  exact ⟨entry, hentry, hkey, one, hone, hentryOf.fieldsIn_eq hv⟩

/-- An entity that is compiled stands in the tree. -/
theorem exists_isEntryOf (hc : c.registry = {}) (hd : Members.Distinct entities) {compiled : Members Key Value}
    (h : (compileEntities c m [] entities).result = .ok compiled) (hentry : entry ∈ entities)
    (hone : (compileEntity c m entry.1 entry.2).result = .ok one) :
    ∃ v, Members.get? compiled entry.1 = some v ∧ IsEntryOf entry.1 one v := by
  obtain ⟨added, hadd, hadded⟩ := compileEntities_eq_ok hc hd (fun _ _ => rfl) h
  have hmem : entry ∈ entities.filter (compiles c m) := List.mem_filter.2 ⟨hentry, by rw [compiles, hone]; rfl⟩
  obtain ⟨out, hout, hname, -⟩ := Members.forall₂_exists_left hadded hmem
  cases hget : Members.get? compiled entry.1 with
  | none =>
    have hne := Members.get?_eq_none_iff.1 hget out (hadd ▸ hout)
    rw [hname, BEq.rfl] at hne
    cases hne
  | some v =>
    obtain ⟨entry', hentry', hkey, one', hone', hentryOf⟩ := exists_entry_of_get? hc hd h hget
    obtain rfl : entry' = entry := Members.eq_of_mem_of_beq hd hentry' hentry hkey
    cases hone.symm.trans hone'
    exact ⟨v, rfl, hentryOf⟩

end EntitySchema.Schema
