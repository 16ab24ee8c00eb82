import EntitySchema.Text.CaseTable

/-!
# Upper and lower case

Full case mapping: a character may become several, and the small form of a capital sigma depends on its place in the word.

Results:
* `lowerChar_ascii`, `upperChar_ascii`: below `U+0080` the mappings are the ASCII ones.
-/
namespace EntitySchema.Text

/-- The shifted character, if one of the runs holds it. -/
def shifted? (runs : List CaseRun) (c : Char) : Option Char :=
  (runs.find? fun r => r.first ≤ c.toNat && c.toNat ≤ r.last && (c.toNat - r.first) % r.step == 0).map fun r =>
    Char.ofNat ((c.toNat : Int) + r.shift).toNat

def special? (table : List (Nat × List Nat)) (c : Char) : Option (List Char) :=
  (table.find? fun entry => entry.1 == c.toNat).map fun entry => entry.2.map Char.ofNat

/-- The small form of a character by itself. -/
def lowerChar (c : Char) : List Char :=
  if c.toNat < 0x80 then [c.toLower]
  else (special? lowerSpecial c).getD [(shifted? lowerRuns c).getD c]

/-- The capital form of a character. -/
def upperChar (c : Char) : List Char :=
  if c.toNat < 0x80 then [c.toUpper]
  else (special? upperSpecial c).getD [(shifted? upperRuns c).getD c]

def inRuns (runs : List (Nat × Nat)) (c : Char) : Bool :=
  runs.any fun run => run.1 ≤ c.toNat && c.toNat ≤ run.2

/-- Whether the nearest character that is not passed over has case. -/
def nextIsCased (cs : List Char) : Bool :=
  match cs.dropWhile (inRuns ignorableRuns) with
  | [] => false
  | c :: _ => inRuns casedRuns c

/-- A capital sigma that ends a word: a cased character before it, none behind it. -/
def endsWord (before rest : List Char) : Bool :=
  nextIsCased before && !nextIsCased rest

/-- Small forms of all characters; `before` is what has been passed, the nearest first. -/
def lowerFrom (before : List Char) : List Char → List Char
  | [] => []
  | c :: rest =>
    (if c = 'Σ' then [if endsWord before rest then 'ς' else 'σ'] else lowerChar c) ++ lowerFrom (c :: before) rest

def lower (s : String) : String :=
  String.ofList (lowerFrom [] s.toList)

def upper (s : String) : String :=
  String.ofList (s.toList.flatMap upperChar)

/-- The text with its first character in capital form.
mirrors src/entityforge/core/naming:15-16 (`ucfirst`) -/
def capitalize (s : String) : String :=
  match s.toList with
  | [] => ""
  | c :: rest => String.ofList (upperChar c ++ rest)

/-- The text with its first character in small form.
mirrors src/entityforge/core/naming:19-20 (`lcfirst`) -/
def uncapitalize (s : String) : String :=
  match s.toList with
  | [] => ""
  | c :: rest => String.ofList (lowerFrom [] [c] ++ rest)

theorem lowerChar_ascii {c : Char} (h : c.toNat < 0x80) : lowerChar c = [c.toLower] := by
  simp [lowerChar, h]

theorem upperChar_ascii {c : Char} (h : c.toNat < 0x80) : upperChar c = [c.toUpper] := by
  simp [upperChar, h]

end EntitySchema.Text
