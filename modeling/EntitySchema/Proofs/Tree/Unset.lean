import EntitySchema.Proofs.Members
import EntitySchema.Tree.Merge

/-!
# Look-ups after a removal

To take away what stands at a path touches at most one member: it is gone, or something below it is.

Results:
* `distinct_unset`: a removal keeps keys distinct.
* `get?_unset`: what a look-up finds after a removal.
* `ofDotted_field`: where the path of a field leads.
* `length_ofDotted`: a dotted text writes one key more than it has dots.
-/
namespace EntitySchema

namespace Members

theorem unset_cons_cons (m : Members Key Value) (key next : Key) (rest : Path) :
    unset m (key :: next :: rest) =
      match get? m key with
      | some (.object below) => set m key (.object (unset below (next :: rest)))
      | _ => m :=
  unset.eq_3 m key (next :: rest) (List.cons_ne_nil next rest)

theorem distinct_unset {m : Members Key Value} (path : Path) (hd : Distinct m) : Distinct (unset m path) := by
  match path with
  | [] => exact hd
  | [key] => exact distinct_erase key hd
  | key :: next :: rest =>
    rw [unset_cons_cons]
    split
    · exact distinct_set _ _ hd
    · exact hd

/-- A member that was found after a removal was there, perhaps with more below it. -/
theorem get?_unset {m : Members Key Value} {path : Path} {key : Key} {v : Value} (h : get? (unset m path) key = some v) :
    get? m key = some v ∨ ∃ below rest, get? m key = some (.object below) ∧ v = .object (unset below rest) := by
  match path with
  | [] => exact .inl h
  | [first] =>
    rw [unset, get?_erase] at h
    split at h
    · cases h
    · exact .inl h
  | first :: next :: rest =>
    rw [unset_cons_cons] at h
    split at h
    · rename_i below hbelow
      rw [get?_set] at h
      split at h
      · rename_i hkey
        cases h
        exact .inr ⟨below, next :: rest, by rw [← get?_congr hkey, hbelow], rfl⟩
      · exact .inl h
    · exact .inl h

end Members

namespace Path

theorem length_splitDots (cs : List Char) : (splitDots cs).length = cs.count '.' + 1 := by
  induction cs with
  | nil => rfl
  | cons c rest ih =>
    rw [splitDots]
    split
    · rename_i hnil
      exact absurd hnil (splitDots_ne_nil rest)
    · rename_i part parts hparts
      rw [hparts] at ih
      by_cases hc : c = '.' <;> simp_all

theorem splitDots_append (cs rest : List Char) : splitDots (cs ++ '.' :: rest) = splitDots cs ++ splitDots rest := by
  induction cs with
  | nil =>
    show splitDots ('.' :: rest) = [] :: splitDots rest
    rw [splitDots]
    cases hparts : splitDots rest with
    | nil => exact absurd hparts (splitDots_ne_nil rest)
    | cons part parts => rfl
  | cons c cs ih =>
    rw [List.cons_append, splitDots, ih, splitDots]
    cases hparts : splitDots cs with
    | nil => exact absurd hparts (splitDots_ne_nil cs)
    | cons part parts =>
      simp only [List.cons_append]
      split <;> rfl

/-- The first part of a text is shorter than the text by at least one dot for every other part. -/
theorem length_of_splitDots {cs part : List Char} {parts : List (List Char)} (h : splitDots cs = part :: parts) :
    part.length + parts.length ≤ cs.length := by
  induction cs generalizing part parts with
  | nil => cases h; simp
  | cons c rest ih =>
    rw [splitDots] at h
    split at h
    · rename_i hnil
      exact absurd hnil (splitDots_ne_nil rest)
    · rename_i first others hparts
      have hlength := ih hparts
      split at h <;> cases h <;> simp only [List.length_cons, List.length_nil] <;> omega

/-- A path of a field below a name leads to the fields under that name, or to another name. -/
theorem ofDotted_field (name field : String) :
    ofDotted (name ++ ".fields." ++ field) = .text name :: .text "fields" :: ofDotted field ∨
      ∃ first next rest, ofDotted (name ++ ".fields." ++ field) = .text first :: next :: rest ∧ first ≠ name := by
  have htoList : (name ++ ".fields." ++ field).toList = name.toList ++ '.' :: ("fields".toList ++ '.' :: field.toList) := by
    rw [String.toList_append, String.toList_append]
    simp
  have hfields : splitDots "fields".toList = ["fields".toList] := by decide
  unfold ofDotted
  rw [htoList, splitDots_append, splitDots_append, hfields]
  cases hname : splitDots name.toList with
  | nil => exact absurd hname (splitDots_ne_nil _)
  | cons part parts =>
    by_cases hsame : String.ofList part = name
    · have hparts : parts = [] := by
        have hlength := length_of_splitDots hname
        rw [← hsame, String.toList_ofList] at hlength
        exact List.length_eq_zero_iff.1 (by omega)
      subst hparts
      exact .inl (by rw [← hsame]; rfl)
    · right
      cases parts with
      | nil => exact ⟨_, _, _, rfl, hsame⟩
      | cons second others => exact ⟨_, _, _, rfl, hsame⟩

theorem ofDotted_ne_nil (text : String) : ofDotted text ≠ [] :=
  fun h => splitDots_ne_nil _ (List.map_eq_nil_iff.1 h)

theorem length_ofDotted (text : String) : (ofDotted text).length = text.toList.count '.' + 1 := by
  rw [ofDotted, List.length_map, length_splitDots]

end Path

end EntitySchema
