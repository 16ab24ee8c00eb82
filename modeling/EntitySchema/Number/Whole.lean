import EntitySchema.Text.Blank

/-!
# Whole numbers as texts

A plain number is a zero, or digits that begin with another one, behind a minus sign if there is one. A text may also have
blanks around the number, a plus sign, zeros before the digits, zeros behind a point and single underscores inside: these are
taken off in this order, and a plain number has to remain.

* `plain?`: the number that a plain text writes.
* `stripped?`: what remains of a text.
* `ofText`: the number that a text writes, or why it is none.

Results:
* `withoutUnderscores_of_not_mem`: a text without underscores stays as it is.
-/
namespace EntitySchema.Whole

/-- Why a text writes no number. -/
inductive Unread where
  /-- It is not written as numbers are. -/
  | unreadable
  /-- It has more digits than are read. -/
  | tooLong
deriving DecidableEq, Repr

/-- Most digits that are read. -/
def maxDigits : Nat := 4300

/-- A digit with which a number can begin. -/
def isLeading (c : Char) : Bool :=
  c.isDigit && c != '0'

def ofDigits (ds : List Char) : Nat :=
  ds.foldl (fun n c => n * 10 + (c.toNat - 48)) 0

/-- The number that digits write. -/
def magnitude? : List Char → Option Nat
  | ['0'] => some 0
  | cs =>
    if (cs.head?.any isLeading) && cs.all Char.isDigit && cs.length ≤ maxDigits then some (ofDigits cs) else none

/-- The number that a plain text writes. -/
def plain? : List Char → Option Int
  | '-' :: rest => (magnitude? rest).map fun n => -(n : Int)
  | cs => (magnitude? cs).map fun n => (n : Int)

/-- A plus sign in front is taken off, unless a minus sign follows. -/
def withoutPlus? : List Char → Option (List Char)
  | '+' :: '-' :: _ => none
  | '+' :: rest => some rest
  | cs => some cs

/-- What remains behind zeros and underscores that end in `last`: the last of them stays if nothing follows or a point does,
and a number may begin anew with a minus sign. -/
def behindZeros? (last : Char) : List Char → Option (List Char)
  | [] => some [last]
  | c :: rest =>
    if c = '0' ∨ c = '_' then behindZeros? c rest
    else if c = '-' ∨ isLeading c then some (c :: rest)
    else if c = '.' then some (last :: c :: rest)
    else none

/-- What remains of digits without the zeros in front. -/
def trimZeros? : List Char → Option (List Char)
  | [] => none
  | c :: rest =>
    if c = '0' then behindZeros? c rest else if c = '-' ∨ isLeading c then some (c :: rest) else none

/-- Zeros in front are taken off, those behind a minus sign too. -/
def withoutZeros? : List Char → Option (List Char)
  | '-' :: rest => (trimZeros? rest).map ('-' :: ·)
  | cs => trimZeros? cs

/-- A point with nothing but zeros behind it is taken off. -/
def withoutDecimals (cs : List Char) : List Char :=
  match cs.dropWhile (· != '.') with
  | _ :: zeros => if !zeros.isEmpty && zeros.all (· == '0') then cs.takeWhile (· != '.') else cs
  | [] => cs

/-- Whether underscores stand alone and inside. -/
def isGrouped (before : Char) : List Char → Bool
  | [] => before != '_'
  | c :: rest => !(before == '_' && c == '_') && isGrouped c rest

/-- Underscores are taken off if each stands alone between two other characters. -/
def withoutUnderscores (cs : List Char) : List Char :=
  if isGrouped '_' cs then cs.filter (· != '_') else cs

/-- What remains of a text. -/
def stripped? (cs : List Char) : Option (List Char) :=
  ((withoutPlus? (Text.trim Text.isBlank cs)).bind withoutZeros?).map fun rest =>
    withoutUnderscores (withoutDecimals rest)

/-- Whether a text begins with more digits than are read. -/
def isTooLong (cs : List Char) : Bool :=
  let digits := (if cs.head? = some '-' then cs.drop 1 else cs).takeWhile Char.isDigit
  (digits.head?.any isLeading) && maxDigits < digits.length

/-- The number that a text writes. -/
def ofText (s : String) : Except Unread Int :=
  if isTooLong s.toList then .error .tooLong
  else
    match (stripped? s.toList).bind plain? with
    | some n => .ok n
    | none => .error .unreadable

theorem withoutUnderscores_of_not_mem {cs : List Char} (h : '_' ∉ cs) : withoutUnderscores cs = cs := by
  unfold withoutUnderscores
  split
  · rw [List.filter_eq_self]
    intro c hc
    simpa using fun hu : c = '_' => h (hu ▸ hc)
  · rfl

end EntitySchema.Whole
