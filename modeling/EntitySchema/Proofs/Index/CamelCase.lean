import EntitySchema.Index.Key
import Mathlib.Data.List.Chain

/-!
# Keys of names in camel case

A name in camel case is cut into words before its capital letters, and an underscore stands at every cut. Nothing of the name is
lost by that: the words can be joined again, whether they are written in small letters, as for tables, or in capitals, as for
keys. Different names therefore get different words and, as long as keys are not cut, different keys. Of keys that are cut only
the digits at the end tell.

* `IsCamelCase`: names in camel case.
* `rejoined`: the name that words came from.

Results:
* `splitWords_of_isChain`: in camel case every capital letter begins a word.
* `rejoined_underscored`, `rejoined_upper`: the words of a name lead back to it.
* `fullKey_injective`, `digits_eq_of_key_eq`: what names with the same key have in common.
* `words_and_keys_differ`: different names in camel case.
-/
namespace EntitySchema

namespace Text

/-- What holds of every character below `U+0080` by its number. -/
theorem forall_ascii {P : Char → Prop} (h : ∀ n < 0x80, P (Char.ofNat n)) {c : Char} (hc : c.toNat < 0x80) : P c := by
  rw [← Char.ofNat_toNat c]
  exact h c.toNat hc

section
variable {cs : List Char}

/-- ASCII characters have their small forms one by one. -/
theorem lowerFrom_ascii (h : ∀ c ∈ cs, c.toNat < 0x80) (before : List Char) : lowerFrom before cs = cs.map Char.toLower := by
  induction cs generalizing before with
  | nil => rfl
  | cons c rest ih =>
    obtain ⟨hc, hrest⟩ := List.forall_mem_cons.1 h
    have hsigma : c ≠ 'Σ' := by
      rintro rfl
      exact absurd hc (by decide)
    rw [lowerFrom, if_neg hsigma, lowerChar_ascii hc, ih hrest, List.map_cons, List.singleton_append]

theorem flatMap_upperChar_ascii (h : ∀ c ∈ cs, c.toNat < 0x80) : cs.flatMap upperChar = cs.map Char.toUpper := by
  induction cs with
  | nil => rfl
  | cons c rest ih =>
    obtain ⟨hc, hrest⟩ := List.forall_mem_cons.1 h
    rw [List.flatMap_cons, upperChar_ascii hc, ih hrest, List.map_cons, List.singleton_append]

end

end Text

namespace Naming

/-- A name in camel case: ASCII letters and digits, a small letter first, and a small letter or a digit before every capital. -/
structure IsCamelCase (name : String) : Prop where
  plain : ∀ c ∈ name.toList, isAsciiUpper c ∨ isAsciiLowerOrDigit c
  start : ∃ c rest, name.toList = c :: rest ∧ 'a' ≤ c ∧ c ≤ 'z'
  capitals : name.toList.IsChain fun before c => isAsciiUpper c → isAsciiLowerOrDigit before

instance (name : String) : Decidable (IsCamelCase name) :=
  decidable_of_iff ((name.toList.all fun c => isAsciiUpper c || isAsciiLowerOrDigit c) = true ∧
      (name.toList.head?.any fun c => decide ('a' ≤ c ∧ c ≤ 'z')) = true ∧
        name.toList.IsChain fun before c => isAsciiUpper c → isAsciiLowerOrDigit before) <| by
    have hplain : (name.toList.all fun c => isAsciiUpper c || isAsciiLowerOrDigit c) = true ↔
        ∀ c ∈ name.toList, isAsciiUpper c ∨ isAsciiLowerOrDigit c := by
      simp only [List.all_eq_true, Bool.or_eq_true]
    have hstart : (name.toList.head?.any fun c => decide ('a' ≤ c ∧ c ≤ 'z')) = true ↔
        ∃ c rest, name.toList = c :: rest ∧ 'a' ≤ c ∧ c ≤ 'z' := by
      cases name.toList <;> simp
    rw [hplain, hstart]
    exact ⟨fun h => ⟨h.1, h.2.1, h.2.2⟩, fun h => ⟨h.plain, h.start, h.capitals⟩⟩

/-! ## Words -/

/-- A character with the underscore that a capital letter gets. -/
def marked (c : Char) : List Char :=
  if isAsciiUpper c then ['_', c] else [c]

/-- In camel case every capital letter begins a word. -/
theorem splitWords_of_isChain {cs : List Char} (h : cs.IsChain fun before c => isAsciiUpper c → isAsciiLowerOrDigit before)
    {before : Option Char} (hfirst : ∀ c ∈ cs.head?, isAsciiUpper c → before.any isAsciiLowerOrDigit) :
    splitWords before cs = cs.flatMap marked := by
  induction cs generalizing before with
  | nil => rfl
  | cons c rest ih =>
    have hrest : splitWords (some c) rest = rest.flatMap marked := by
      refine ih h.tail fun d hd hcapital => ?_
      obtain ⟨more, rfl⟩ := List.head?_eq_some_iff.1 hd
      exact (List.isChain_cons_cons.1 h).1 hcapital
    have hc : (isAsciiUpper c && before.any isAsciiLowerOrDigit) = isAsciiUpper c := by
      cases hcapital : isAsciiUpper c with
      | true => rw [hfirst c rfl hcapital]; rfl
      | false => rfl
    rw [splitWords, hc, hrest, List.flatMap_cons, marked]

/-- The name that words came from: what follows an underscore was a capital letter. -/
def rejoined (capital : Bool) : List Char → List Char
  | [] => []
  | c :: rest =>
    if c = '_' then rejoined true rest else (if capital then c.toUpper else c.toLower) :: rejoined false rest

/-- A way to write words that keeps underscores, and of every other character all but its case. -/
structure KeepsWords (f : Char → Char) : Prop where
  mark : f '_' = '_'
  capital : ∀ {c}, isAsciiUpper c → f c ≠ '_' ∧ (f c).toUpper = c
  other : ∀ {c}, isAsciiLowerOrDigit c → f c ≠ '_' ∧ (f c).toLower = c

theorem toNat_lt_of_isAsciiUpper {c : Char} (h : isAsciiUpper c) : c.toNat < 0x80 := by
  have hle : c ≤ 'Z' := by simpa using (Bool.and_eq_true_iff.1 h).2
  exact Nat.lt_of_le_of_lt (UInt32.le_iff_toNat_le.1 hle) (by decide)

theorem toNat_lt_of_isAsciiLowerOrDigit {c : Char} (h : isAsciiLowerOrDigit c) : c.toNat < 0x80 := by
  have hle : c ≤ 'z' ∨ c ≤ '9' := by
    rcases Bool.or_eq_true_iff.1 h with h | h
    · exact .inl (by simpa using (Bool.and_eq_true_iff.1 h).2)
    · exact .inr (by simpa using (Bool.and_eq_true_iff.1 h).2)
  rcases hle with hle | hle
  · exact Nat.lt_of_le_of_lt (UInt32.le_iff_toNat_le.1 hle) (by decide)
  · exact Nat.lt_of_le_of_lt (UInt32.le_iff_toNat_le.1 hle) (by decide)

/-- Words in small letters. -/
theorem keepsWords_toLower : KeepsWords Char.toLower where
  mark := rfl
  capital := fun h =>
    Text.forall_ascii (P := fun c => isAsciiUpper c → c.toLower ≠ '_' ∧ c.toLower.toUpper = c) (by decide +kernel)
      (toNat_lt_of_isAsciiUpper h) h
  other := fun h =>
    Text.forall_ascii (P := fun c => isAsciiLowerOrDigit c → c.toLower ≠ '_' ∧ c.toLower.toLower = c) (by decide +kernel)
      (toNat_lt_of_isAsciiLowerOrDigit h) h

/-- Words in capital letters. -/
theorem keepsWords_toUpper : KeepsWords fun c => c.toLower.toUpper where
  mark := rfl
  capital := fun h =>
    Text.forall_ascii (P := fun c => isAsciiUpper c → c.toLower.toUpper ≠ '_' ∧ c.toLower.toUpper.toUpper = c) (by decide +kernel)
      (toNat_lt_of_isAsciiUpper h) h
  other := fun h =>
    Text.forall_ascii (P := fun c => isAsciiLowerOrDigit c → c.toLower.toUpper ≠ '_' ∧ c.toLower.toUpper.toLower = c)
      (by decide +kernel) (toNat_lt_of_isAsciiLowerOrDigit h) h

/-- Words lead back to the name that they came from, however they are written. -/
theorem KeepsWords.rejoined {f : Char → Char} (h : KeepsWords f) {cs : List Char}
    (hcs : ∀ c ∈ cs, isAsciiUpper c ∨ isAsciiLowerOrDigit c) : rejoined false ((cs.flatMap marked).map f) = cs := by
  induction cs with
  | nil => rfl
  | cons c rest ih =>
    obtain ⟨hc, hrest⟩ := List.forall_mem_cons.1 hcs
    rw [List.flatMap_cons, List.map_append, marked]
    by_cases hcapital : isAsciiUpper c
    · obtain ⟨hne, hback⟩ := h.capital hcapital
      rw [if_pos hcapital, List.map_cons, h.mark, List.map_singleton, List.cons_append, List.singleton_append, Naming.rejoined,
        if_pos rfl, Naming.rejoined, if_neg hne, if_pos rfl, hback, ih hrest]
    · obtain ⟨hne, hback⟩ := h.other (hc.resolve_left hcapital)
      rw [if_neg hcapital, List.map_singleton, List.singleton_append, Naming.rejoined, if_neg hne, if_neg Bool.false_ne_true,
        hback, ih hrest]

section
variable {name : String}

theorem ascii_of_mem_flatMap_marked (h : IsCamelCase name) {c : Char} (hc : c ∈ name.toList.flatMap marked) : c.toNat < 0x80 := by
  obtain ⟨d, hd, hc⟩ := List.mem_flatMap.1 hc
  have hascii : d.toNat < 0x80 := (h.plain d hd).elim toNat_lt_of_isAsciiUpper toNat_lt_of_isAsciiLowerOrDigit
  unfold marked at hc
  split at hc
  · rcases List.mem_cons.1 hc with rfl | hc
    · decide
    · rwa [List.mem_singleton.1 hc]
  · rwa [List.mem_singleton.1 hc]

/-- The words of a name in camel case: all in small letters, and an underscore where a capital stood. -/
theorem toList_underscored (h : IsCamelCase name) :
    (underscored name).toList = (name.toList.flatMap marked).map Char.toLower := by
  have hsplit : splitWords none name.toList = name.toList.flatMap marked := by
    refine splitWords_of_isChain h.capitals fun c hc hcapital => ?_
    obtain ⟨first, rest, hname, hfirst, -⟩ := h.start
    rw [hname, List.head?_cons, Option.mem_some_iff] at hc
    subst hc
    have hle : first ≤ 'Z' := by simpa using (Bool.and_eq_true_iff.1 hcapital).2
    exact absurd (Char.le_trans hfirst hle) (by decide)
  unfold underscored Text.lower
  rw [String.toList_ofList, String.toList_ofList, hsplit, Text.lowerFrom_ascii fun c hc => ascii_of_mem_flatMap_marked h hc]

/-- The words of a name lead back to it. -/
theorem rejoined_underscored (h : IsCamelCase name) : rejoined false (underscored name).toList = name.toList := by
  rw [toList_underscored h]
  exact keepsWords_toLower.rejoined h.plain

/-- The same of words in capital letters. -/
theorem rejoined_upper (h : IsCamelCase name) : rejoined false (Text.upper (underscored name)).toList = name.toList := by
  have hlower : ∀ {c : Char}, c.toNat < 0x80 → c.toLower.toNat < 0x80 :=
    Text.forall_ascii (P := fun c => c.toLower.toNat < 0x80) (by decide +kernel)
  have hascii : ∀ c ∈ (name.toList.flatMap marked).map Char.toLower, c.toNat < 0x80 := by
    intro c hc
    obtain ⟨d, hd, rfl⟩ := List.mem_map.1 hc
    exact hlower (ascii_of_mem_flatMap_marked h hd)
  unfold Text.upper
  rw [String.toList_ofList, toList_underscored h, Text.flatMap_upperChar_ascii hascii, List.map_map]
  exact keepsWords_toUpper.rejoined h.plain

end

end Naming

/-! ## Keys -/

namespace Index

open Naming

variable {kind : IndexKind} {name other : String} {limit : Int}

/-- Names in camel case with the same full key are the same. -/
theorem fullKey_injective (h : IsCamelCase name) (h' : IsCamelCase other) (hkey : fullKey kind name = fullKey kind other) :
    name = other := by
  have hwords : (Text.upper (underscored name)).toList = (Text.upper (underscored other)).toList := by
    rw [← String.toList_inj] at hkey
    simp only [fullKey, String.toList_append] at hkey
    exact List.append_cancel_left hkey
  rw [← String.toList_inj, ← rejoined_upper h, hwords, rejoined_upper h']

/-- The digits at the end of a key that is cut. -/
def digits (kind : IndexKind) (name : String) : List Char :=
  (Sha1.hexDigits (fullKey kind name)).take digestLength

/-- Keys that are cut end in their digits, wherever they are cut. -/
theorem digits_eq_of_key_eq (h : limit < (fullKey kind name).length) (h' : limit < (fullKey kind other).length)
    (hkey : key kind name limit = key kind other limit) : digits kind name = digits kind other := by
  unfold key at hkey
  rw [if_neg (Int.not_le.2 h), if_neg (Int.not_le.2 h'), String.ofList_inj] at hkey
  have hends := List.append_inj_right' hkey (by simp only [List.length_cons, List.length_take, Sha1.hexDigits_length])
  exact (List.cons.inj hends).2

/-- Different names in camel case have different words, and different keys of one kind if both keys are whole, or if both are cut
and their digits differ. -/
theorem words_and_keys_differ (h : IsCamelCase name) (h' : IsCamelCase other) (hne : name ≠ other) :
    underscored name ≠ underscored other ∧ ∀ kind limit,
      (((fullKey kind name).length : Int) ≤ limit → ((fullKey kind other).length : Int) ≤ limit →
        key kind name limit ≠ key kind other limit) ∧
      (limit < (fullKey kind name).length → limit < (fullKey kind other).length → digits kind name ≠ digits kind other →
        key kind name limit ≠ key kind other limit) := by
  refine ⟨fun hwords => hne ?_, fun kind limit => ⟨fun hfits hfits' hkey => hne ?_, fun hcut hcut' hdigits hkey => ?_⟩⟩
  · rw [← String.toList_inj, ← rejoined_underscored h, hwords, rejoined_underscored h']
  · rw [key_of_fits hfits, key_of_fits hfits'] at hkey
    exact fullKey_injective h h' hkey
  · exact hdigits (digits_eq_of_key_eq hcut hcut' hkey)

/-- Two names that begin alike: their keys are whole under the usual limit, and differ in their digits alone under a short one. -/
theorem words_and_keys_differ_assignedUser :
    IsCamelCase "assignedUserId" ∧ IsCamelCase "assignedUser2Id" ∧ underscored "assignedUserId" ≠ underscored "assignedUser2Id" ∧
      (fullKey .plain "assignedUserId").length ≤ 60 ∧ (fullKey .plain "assignedUser2Id").length ≤ 60 ∧
        key .plain "assignedUserId" 60 ≠ key .plain "assignedUser2Id" 60 ∧
          18 < (fullKey .plain "assignedUserId").length ∧ 18 < (fullKey .plain "assignedUser2Id").length ∧
            digits .plain "assignedUserId" ≠ digits .plain "assignedUser2Id" ∧
              key .plain "assignedUserId" 18 ≠ key .plain "assignedUser2Id" 18 := by
  have hname : IsCamelCase "assignedUserId" := by decide
  have hother : IsCamelCase "assignedUser2Id" := by decide
  have hdigits : digits .plain "assignedUserId" ≠ digits .plain "assignedUser2Id" := by decide +kernel
  obtain ⟨hwords, hkeys⟩ := words_and_keys_differ hname hother (by decide)
  exact ⟨hname, hother, hwords, by decide, by decide, (hkeys .plain 60).1 (by decide) (by decide), by decide, by decide, hdigits,
    (hkeys .plain 18).2 (by decide) (by decide) hdigits⟩

end Index

end EntitySchema
