import Collectives.Bytes

/-!
# Text

What is shown and what is read: the characters that may surround a name without being part of
it, the notation in which values are shown for inspection, and hexadecimal text.

Words print with a fixed number of lowercase digits, most significant first; byte strings print
two digits a byte, in order. `Hex.ofDigits?` and `Hex.bytes?` read them back.
-/

namespace Collectives.Text

/-! ## Blank characters -/

/-- The ranges of code points with the property White_Space, ends included. -/
def blankRanges : List (Nat × Nat) :=
  [(0x0009, 0x000d), (0x0020, 0x0020), (0x0085, 0x0085), (0x00a0, 0x00a0), (0x1680, 0x1680),
   (0x2000, 0x200a), (0x2028, 0x2029), (0x202f, 0x202f), (0x205f, 0x205f), (0x3000, 0x3000)]

/-- Whether a character is blank. -/
def isBlank (c : Char) : Bool :=
  blankRanges.any fun (first, last) => first ≤ c.toNat && c.toNat ≤ last

/-- The text without the blank characters at its ends. -/
def trim (s : String) : String :=
  let front := s.toList.dropWhile isBlank
  String.ofList (front.reverse.dropWhile isBlank).reverse

/-- The table lists twenty-five code points. -/
theorem blankRanges_size :
    blankRanges.foldl (fun n (first, last) => n + (last + 1 - first)) 0 = 25 := by decide

/-! ## Record notation -/

/-- A record, as in `Name { field: value, field: value }`. -/
def record (name : String) (fields : List (String × String)) : String :=
  name ++ " \x7b " ++ ", ".intercalate (fields.map fun (field, value) => field ++ ": " ++ value)
    ++ " \x7d"

/-- A bracketed sequence. -/
def sequence (items : List String) : String :=
  "[" ++ ", ".intercalate items ++ "]"

/-- A set, between braces. -/
def braced (items : List String) : String :=
  "\x7b" ++ ", ".intercalate items ++ "\x7d"

/-- A tuple, between parentheses. -/
def tuple (items : List String) : String :=
  "(" ++ ", ".intercalate items ++ ")"

/-- A value that may be absent. -/
def optional : Option String → String
  | none => "None"
  | some value => "Some(" ++ value ++ ")"

/-- A plain word between quotation marks. -/
def quoted (word : String) : String :=
  "\"" ++ word ++ "\""

namespace Hex

/-! ## Hexadecimal text -/

/-- The lowercase digit of a number below sixteen. -/
def digit (n : Nat) : Char :=
  if n < 10 then Char.ofNat (48 + n) else Char.ofNat (87 + n)

/-- The value of a digit of either case. -/
def digit? (c : Char) : Option Nat :=
  if '0' ≤ c ∧ c ≤ '9' then some (c.toNat - 48)
  else if 'a' ≤ c ∧ c ≤ 'f' then some (c.toNat - 87)
  else if 'A' ≤ c ∧ c ≤ 'F' then some (c.toNat - 55)
  else none

/-- The last `width` hexadecimal digits of a number. -/
def digits : Nat → Nat → List Char
  | 0, _ => []
  | width + 1, n => digits width (n / 16) ++ [digit (n % 16)]

/-- A word of `width` digits. -/
def word (width n : Nat) : String :=
  String.ofList (digits width n)

/-- A byte string, two digits a byte. -/
def bytes (data : Bytes) : String :=
  String.ofList (data.flatMap fun b => digits 2 b.toNat)

/-- The number that a string of digits spells, most significant first. -/
def ofDigits? (cs : List Char) : Option Nat :=
  cs.foldlM (fun n c => (digit? c).map (16 * n + ·)) 0

/-- The byte string that pairs of digits spell. -/
def bytes? : List Char → Option Bytes
  | [] => some []
  | [_] => none
  | high :: low :: rest => do
    let h ← digit? high
    let l ← digit? low
    let bs ← bytes? rest
    return UInt8.ofNat (16 * h + l) :: bs

end Hex

end Collectives.Text
