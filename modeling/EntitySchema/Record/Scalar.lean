import EntitySchema.Number.Whole
import EntitySchema.Record.Shape

/-!
# Scalars of a record

Truth values and integers may be written in several ways. `readFlag` and `readWhole` accept those and say what is wrong with
any other value.

Results:
* `readFlag_bool`, `readWhole_int`: a value of the right kind stays itself.
-/
namespace EntitySchema.Record

def falseWords : List String := ["0", "off", "f", "false", "n", "no"]

def trueWords : List String := ["1", "on", "t", "true", "y", "yes"]

/-- The truth value that a word stands for, in capital or small ASCII letters. -/
def flagWord? (s : String) : Option Bool :=
  let word := String.ofList (s.toList.map Char.toLower)
  if falseWords.contains word then some false
  else if trueWords.contains word then some true
  else none

/-- The first integer beyond 64 bits. -/
def wordBound : Int := 0x8000000000000000

/-- The integers of 64 bits. -/
def fitsWord (n : Int) : Bool :=
  -wordBound ≤ n && n < wordBound

/-- The integers that a floating-point number may stand for: those strictly between the ends of 64 bits. -/
def fitsFloat (n : Int) : Bool :=
  -wordBound < n && n < wordBound

def flagOfInt (n : Int) : Except Flaw Bool :=
  if n = 0 then .ok false else if n = 1 then .ok true else .error .flagUnreadable

/-- A truth value from what may stand for one. -/
def readFlag : Value → Except Flaw Bool
  | .bool b => .ok b
  | .int n => if fitsWord n then flagOfInt n else .error .notFlag
  | .float x =>
    match x.toInt? with
    | some n => if fitsFloat n then flagOfInt n else .error .notFlag
    | none => .error .notFlag
  | .str s =>
    match flagWord? s with
    | some b => .ok b
    | none => .error .flagUnreadable
  | _ => .error .notFlag

/-- The integer that a text writes. -/
def wholeOfText (s : String) : Except Flaw Int :=
  match Whole.ofText s with
  | .ok n => .ok n
  | .error .unreadable => .error .wholeUnreadable
  | .error .tooLong => .error .wholeTooLarge

/-- An integer from what may stand for one. -/
def readWhole : Value → Except Flaw Int
  | .int n => .ok n
  | .bool b => .ok (if b then 1 else 0)
  | .float x =>
    match x.toInt? with
    | some n => if fitsFloat n then .ok n else .error .wholeTooLarge
    | none => .error .wholeFractional
  | .str s => wholeOfText s
  | _ => .error .notWhole

@[simp] theorem readFlag_bool (b : Bool) : readFlag (.bool b) = .ok b := rfl

@[simp] theorem readWhole_int (n : Int) : readWhole (.int n) = .ok n := rfl

end EntitySchema.Record
