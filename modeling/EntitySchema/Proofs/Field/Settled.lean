import EntitySchema.Processor
import EntitySchema.Proofs.Index.Derived
import EntitySchema.Proofs.Field.Law

/-!
# Settled fields

Of a field without a type only its mark keeps the storage from dropping it, and then no index is made of it. A field is settled
if it has a type or a mark, or has neither and says nothing of indexes either: then it may be dropped without an index losing
its column.

* `Settled`: a settled field.

Results:
* `mergeLaw_settled`: a settled field over another one is settled.
* `Settled.truthy_type`: a settled field of which an index is made has a type.
-/
namespace EntitySchema.Field

/-- Attributes with a type or with a mark, or without both and without flags for an index. -/
def Settled (attributes : Members Key Value) : Prop :=
  (attributes.value "type").truthy = true ∨ (attributes.value "notStorable").truthy = true ∨
    ∀ name ∈ ["type", "notStorable", "unique", "index"], Members.get? attributes (.text name) = none

variable {a : Members Key Value}

theorem mergeLaw_settled : MergeLaw fun _ => Settled where
  congr _ h := h
  merge := by
    intro _ m m' hd h h'
    -- what the upper attributes have stays, and if they say nothing the lower ones are as before
    rcases h' with htype | hmark | hsilent
    · exact .inl (Members.truthy_overlay _ hd htype)
    · exact .inr (.inl (Members.truthy_overlay _ hd hmark))
    · have hsame : ∀ name ∈ ["type", "notStorable", "unique", "index"],
          Members.get? (m.overlay m') (.text name) = Members.get? m (.text name) := fun name hname =>
        Members.get?_merge_of_none (hsilent name hname)
      refine h.imp (fun htype => ?_) (Or.imp (fun hmark => ?_) fun hlower name hname => ?_)
      · rwa [Members.value_congr (hsame "type" (by simp))]
      · rwa [Members.value_congr (hsame "notStorable" (by simp))]
      · rw [hsame name hname, hlower name hname]

/-- A field that a processor adds has a type. -/
theorem settled_unstored (kind : FieldKind) (more : Members Key Value) : Settled (Processor.unstored kind more).members := by
  refine .inl ?_
  cases kind <;> rfl

/-- A default says nothing that an index is made from. -/
theorem settled_default (v : Value) : Settled [("default", v)] :=
  .inr (.inr fun name hname => by
    simp only [List.mem_cons, List.not_mem_nil, or_false] at hname
    rcases hname with rfl | rfl | rfl | rfl <;> simp [Members.get?_cons])

/-- A settled field of which an index is made has a type. -/
theorem Settled.truthy_type (h : Settled a) (hmark : (a.value "notStorable").truthy = false)
    (hkind : Index.fieldKind? a ≠ none) : (a.value "type").truthy = true := by
  rcases h with htype | hmarked | hsilent
  · exact htype
  · rw [hmark] at hmarked
    cases hmarked
  · have hunique : a.value "unique" = .null := by rw [Members.value, hsilent "unique" (by simp)]; rfl
    have hindex : a.value "index" = .null := by rw [Members.value, hsilent "index" (by simp)]; rfl
    exact absurd (by simp [Index.fieldKind?, hunique, hindex, Value.truthy]) hkind

end EntitySchema.Field
