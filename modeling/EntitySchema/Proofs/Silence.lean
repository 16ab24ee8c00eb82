import EntitySchema.Proofs.Run
import EntitySchema.Schema.Compile

/-!
# Stages that leave no message

Of all entries that a run notes only those about entities that were given up are messages for the diagnostics. Every stage is
silent, whatever it notes and whether it gives a result or not; only the loop over all entities gives some of them up.

* `Run.Silent`: a run without messages.

Results:
* `Run.Silent.bind`, `Run.silent_foldlM`: steps that are silent are so one after the other.
* `Run.diagnostics_orGiveUp`: a silent run that is given up leaves one message.
* `Schema.silent_compileEntity`, `Schema.silent_normalize`, `Schema.silent_withJunctions`: the stages of a compilation.
-/
namespace EntitySchema

namespace Run

variable {α β σ : Type}

/-- No message is left. -/
def Silent (x : Run α) : Prop :=
  x.diagnostics = []

theorem diagnostics_bind (x : Run α) (f : α → Run β) :
    (x >>= f).diagnostics =
      x.diagnostics ++ match x.result with
        | .ok a => (f a).diagnostics
        | .error _ => [] := by
  unfold diagnostics
  rw [journal_bind, List.filterMap_append]
  cases x.result <;> rfl

theorem diagnostics_bind_of_ok {x : Run α} {f : α → Run β} {a : α} (h : x.result = .ok a) :
    (x >>= f).diagnostics = x.diagnostics ++ (f a).diagnostics := by
  rw [diagnostics_bind, h]

theorem silent_pure (a : α) : Silent (pure a : Run α) := rfl

theorem silent_fail (e : Error) : Silent (fail e : Run α) := rfl

theorem silent_liftError (x : Except Error α) : Silent (liftM x : Run α) := rfl

theorem silent_lift (x : Except Misuse α) : Silent (liftM x : Run α) := rfl

theorem silent_debug (channel : Channel) (text : String) : Silent (note (.debug channel text)) := rfl

theorem silent_info (channel : Channel) (text : String) : Silent (note (.info channel text)) := rfl

theorem Silent.bind {x : Run α} {f : α → Run β} (h : Silent x) (hf : ∀ a, Silent (f a)) : Silent (x >>= f) := by
  unfold Silent at h hf ⊢
  rw [diagnostics_bind, h, List.nil_append]
  split
  · exact hf _
  · rfl

/-- What silent steps go on with adds no message. -/
theorem diagnostics_bind_of_silent {x : Run α} {f : α → Run β} (hf : ∀ a, Silent (f a)) :
    (x >>= f).diagnostics = x.diagnostics := by
  rw [diagnostics_bind]
  split
  · rw [hf, List.append_nil]
  · exact List.append_nil _

theorem silent_foldlM {f : σ → α → Run σ} (h : ∀ s x, Silent (f s x)) (xs : List α) (start : σ) :
    Silent (xs.foldlM f start) := by
  induction xs generalizing start with
  | nil => exact silent_pure start
  | cons x rest ih =>
    rw [List.foldlM_cons]
    exact (h start x).bind ih

/-- A silent run that is given up leaves the message of its error, and any other is silent still. -/
theorem diagnostics_orGiveUp {x : Run α} (h : Silent x) :
    x.orGiveUp.diagnostics =
      match x.result with
      | .ok _ => []
      | .error e => if e.skips then [e.message] else [] := by
  unfold Silent diagnostics at h
  unfold orGiveUp
  cases x.result with
  | ok a => exact h
  | error e =>
    simp only
    split
    · simp only [diagnostics, List.filterMap_append, h]
      rfl
    · exact h

end Run

/-! ## Fields -/

namespace Field

open Run

theorem silent_resolve (c : Config) (name : String) (params : Params) (t : FieldType) :
    Silent (resolve c name params t) := by
  unfold resolve
  simp only
  split
  · exact (silent_debug _ _).bind fun _ => silent_pure _
  · exact (silent_lift _).bind fun _ => silent_pure _

theorem silent_normalizeAll (c : Config) (entity : Key) (fields : List (Key × Value)) :
    Silent (normalizeAll c entity fields) := by
  induction fields with
  | nil => exact silent_pure _
  | cons field rest ih =>
    obtain ⟨name, v⟩ := field
    rw [normalizeAll]
    refine (silent_lift _).bind fun params => (silent_lift _).bind fun form => ?_
    cases form with
    | some normal => exact ih.bind fun _ => silent_pure _
    | none => exact (silent_debug _ _).bind fun _ => ih

end Field

/-! ## One entity -/

theorem Link.silent_resolve (m : Metadata) (entity link : Value) (params : Params) (compiled : Value) :
    Run.Silent (Link.resolve m entity link params compiled) := by
  unfold Link.resolve
  refine (Run.silent_liftError _).bind fun kind => ?_
  cases kind with
  | none => exact (Run.silent_debug _ _).bind fun _ => Run.silent_pure _
  | some kind =>
    exact (Run.silent_lift _).bind fun _ => (Run.silent_lift _).bind fun _ => (Run.silent_lift _).bind fun _ =>
      (Run.silent_lift _).bind fun _ => (Run.silent_lift _).bind fun _ => Run.silent_pure _

theorem FullText.silent_fragment (c : Config) (m : Metadata) (p : Probe) (entity : Key) (d : Definition) :
    Run.Silent (FullText.fragment c m p entity d) := by
  unfold FullText.fragment
  split
  · exact Run.silent_pure _
  · refine (Run.silent_lift _).bind fun name => (Run.silent_liftError _).bind fun supported => ?_
    split
    · exact (Run.silent_debug _ _).bind fun _ => Run.silent_pure _
    · simp only
      split
      · exact Run.silent_pure _
      · exact Run.silent_pure _

namespace Entity

open Run

theorem silent_resolveAll (c : Config) (m : Metadata) (fields : Members String Params) (declared : List (String × Params)) :
    Silent (resolveAll c m fields declared) := by
  induction declared generalizing fields with
  | nil => exact silent_pure _
  | cons field rest ih =>
    obtain ⟨name, params⟩ := field
    rw [resolveAll]
    split
    · refine (silent_lift _).bind fun t => (Field.silent_resolve _ _ _ _).bind fun resolved => ?_
      cases resolved with
      | some resolved => exact ih _
      | none => exact ih _
    · exact ih _

theorem silent_relate (m : Metadata) (entity : Key) (links : Members String Params) (schema : Members Key Value) :
    Silent (relate m entity links schema) :=
  silent_foldlM (fun _ _ => (silent_lift _).bind fun _ => (Link.silent_resolve _ _ _ _ _).bind fun _ => silent_pure _) _ _

theorem silent_search (c : Compiler) (m : Metadata) (entity : Key) (d : Definition) (schema : Members Key Value) :
    Silent (search c m entity d schema) :=
  (FullText.silent_fragment _ _ _ _ _).bind fun _ => silent_pure _

theorem silent_compile (c : Compiler) (m : Metadata) (entity : Key) (d : Definition) : Silent (compile c m entity d) :=
  (silent_lift _).bind fun _ => (silent_liftError _).bind fun _ => (silent_resolveAll _ _ _ _).bind fun _ =>
    (silent_lift _).bind fun _ => (silent_relate _ _ _ _).bind fun _ => (silent_search _ _ _ _ _).bind fun _ =>
      (silent_lift _).bind fun _ => silent_lift _

end Entity

/-! ## The whole tree -/

namespace Junction

open Run

theorem silent_ofRelation (c : Config) (relation : Value) : Silent (ofRelation c relation) := by
  unfold ofRelation
  refine (silent_lift _).bind fun members => ?_
  split
  · exact (silent_lift _).bind fun _ => (silent_lift _).bind fun _ => (silent_lift _).bind fun _ =>
      (Field.silent_normalizeAll _ _ _).bind fun _ => silent_pure _
  · exact silent_pure _

theorem silent_entities (c : Config) (compiled : Value) : Silent (entities c compiled) := by
  refine (silent_lift _).bind fun members => (silent_lift _).bind fun relations => silent_foldlM (fun acc relation => ?_) _ _
  refine (silent_ofRelation _ _).bind fun found => ?_
  cases found with
  | some entry => exact silent_pure _
  | none => exact silent_pure _

end Junction

namespace Schema

open Run

theorem silent_normalizeEntity (c : Config) (entity : Key) (compiled : Value) : Silent (normalizeEntity c entity compiled) :=
  (silent_lift _).bind fun _ => (silent_lift _).bind fun _ => (Field.silent_normalizeAll _ _ _).bind fun _ => silent_pure _

theorem silent_checkEntity (c : Config) (entity : Key) (compiled : Value) : Silent (checkEntity c entity compiled) := by
  refine (silent_normalizeEntity _ _ _).bind fun members => ?_
  split
  · exact silent_pure _
  · exact silent_fail _

/-- Whatever becomes of an entity, it leaves no message unless it is given up. -/
theorem silent_compileEntity (c : Compiler) (m : Metadata) (entity : Key) (declared : Declared) :
    Silent (compileEntity c m entity declared) :=
  (silent_liftError _).bind fun _ => (Entity.silent_compile _ _ _ _).bind fun _ => (silent_checkEntity _ _ _).bind fun _ =>
    silent_pure _

theorem silent_normalize (c : Config) (compiled : List (Key × Value)) : Silent (normalize c compiled) := by
  induction compiled with
  | nil => exact silent_pure _
  | cons entry rest ih =>
    obtain ⟨entity, v⟩ := entry
    rw [normalize]
    exact (silent_normalizeEntity _ _ _).bind fun _ => ih.bind fun _ => silent_pure _

theorem silent_withJunctions (c : Config) (tree : Members Key Value) (count : Nat) (vs : List Value) :
    Silent (withJunctions c tree count vs) := by
  induction vs generalizing tree count with
  | nil => exact silent_pure _
  | cons v rest ih =>
    rw [withJunctions]
    exact (Junction.silent_entities _ _).bind fun _ => ih _ _

end Schema

end EntitySchema
