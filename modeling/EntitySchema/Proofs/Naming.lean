import EntitySchema.Naming

/-!
# Names without dots

Paths into a schema are written with dots, so a name with a dot in it leads elsewhere. No capital form has a dot that its
character has not, and a part of a composite field has none if neither the field nor the part has.

Results:
* `dot_not_mem_upperChar`, `dot_not_mem_capitalize`: capital forms.
* `dot_not_mem_composed`: names of parts.
-/
namespace EntitySchema

namespace Text

theorem ofNat_ne_dot {n : Nat} (h : 47 ≤ n) : Char.ofNat n ≠ '.' := by
  intro hdot
  have hn : (Char.ofNat n).toNat = 46 := by rw [hdot]; rfl
  by_cases hvalid : n.isValidChar
  · have hsame : n = 46 := by rwa [Char.ofNat, dif_pos hvalid] at hn
    omega
  · rw [Char.ofNat, dif_neg hvalid] at hn
    cases hn

/-- No table leads to a dot: what it leads to lies behind it. -/
theorem shift_of_mem_upperRuns : ∀ run ∈ upperRuns, 47 ≤ (run.first : Int) + run.shift := by
  decide +kernel

theorem le_of_mem_upperSpecial : ∀ entry ∈ upperSpecial, ∀ n ∈ entry.2, 47 ≤ n := by
  decide +kernel

theorem toUpper_ne_dot {c : Char} (h : c ≠ '.') : c.toUpper ≠ '.' := by
  unfold Char.toUpper
  split
  · rename_i hlower
    intro hdot
    have hlow : 97 ≤ c.val.toNat := UInt32.le_iff_toNat_le.1 hlower.1
    have hhigh : c.val.toNat ≤ 122 := UInt32.le_iff_toNat_le.1 hlower.2
    have hshift : ('A'.val - 'a'.val).toNat = 2 ^ 32 - 32 := rfl
    have hpoint : '.'.val.toNat = 46 := rfl
    rw [Char.ext_iff, ← UInt32.toNat_inj] at hdot
    simp only [UInt32.toNat_add] at hdot
    rw [hshift, hpoint] at hdot
    omega
  · exact h

theorem dot_not_mem_upperChar {c : Char} (h : c ≠ '.') : '.' ∉ upperChar c := by
  unfold upperChar
  split
  · rw [List.mem_singleton]
    exact (toUpper_ne_dot h).symm
  · cases hspecial : special? upperSpecial c with
    | some cs =>
      obtain ⟨entry, hentry, rfl⟩ := Option.map_eq_some_iff.1 hspecial
      rw [Option.getD_some, List.mem_map]
      rintro ⟨n, hn, hdot⟩
      exact ofNat_ne_dot (le_of_mem_upperSpecial entry (List.mem_of_find?_eq_some hentry) n hn) hdot
    | none =>
      rw [Option.getD_none, List.mem_singleton]
      cases hshifted : shifted? upperRuns c with
      | none => exact h.symm
      | some d =>
        obtain ⟨run, hrun, rfl⟩ := Option.map_eq_some_iff.1 hshifted
        have hfirst : run.first ≤ c.toNat := by
          have hfound := List.find?_some hrun
          simp only [Bool.and_eq_true, decide_eq_true_eq] at hfound
          exact hfound.1.1
        have hshift := shift_of_mem_upperRuns run (List.mem_of_find?_eq_some hrun)
        exact (ofNat_ne_dot (by omega)).symm

theorem dot_not_mem_capitalize {s : String} (h : '.' ∉ s.toList) : '.' ∉ (capitalize s).toList := by
  unfold capitalize
  cases hs : s.toList with
  | nil => simp
  | cons c rest =>
    rw [hs, List.mem_cons, not_or] at h
    simp only [String.toList_ofList, List.mem_append, not_or]
    exact ⟨dot_not_mem_upperChar (Ne.symm h.1), h.2⟩

end Text

theorem Naming.dot_not_mem_composed {field part : String} (hfield : '.' ∉ field.toList) (hpart : '.' ∉ part.toList)
    (place : PartPlace) : '.' ∉ (composed field part place).toList := by
  cases place with
  | first =>
    rw [composed, String.toList_append, List.mem_append, not_or]
    exact ⟨hpart, Text.dot_not_mem_capitalize hfield⟩
  | last =>
    rw [composed, String.toList_append, List.mem_append, not_or]
    exact ⟨hfield, Text.dot_not_mem_capitalize hpart⟩

end EntitySchema
