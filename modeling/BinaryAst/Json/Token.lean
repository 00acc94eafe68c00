import BinaryAst.Json.Fault
import BinaryAst.Json.Number
/-!
# BinaryAst.Json.Token

The tokens of a JSON text.

A string or a number can be wanted for its value, or only be passed over, and the
second asks less of it. A token therefore holds both readings. A reading that
fails is no failure of the text yet: it counts only when a reader gets that far
and wants a value there. The text is cut into tokens up to the first place where
not even passing over succeeds.
-/

namespace BinaryAst.Json

/-- A token; `string` and `number` hold what reading and passing over them give. -/
inductive Token
  | openArray
  | closeArray
  | openObject
  | closeObject
  | comma
  | colon
  | null
  | boolean (value : Bool)
  | string (kept : Except Fault String) (skipped : Except Fault Unit)
  | number (kept : Except Fault Unit) (skipped : Except Fault Unit)
  /-- The start of `null`, `true` or `false` that does not go on. -/
  | broken (fault : Fault)
  /-- A character that starts no token. -/
  | stray
  deriving Repr

namespace Token

/-! ### Characters -/

/-- The characters that may stand between tokens. -/
def isBlank (c : Char) : Bool := c == ' ' || c == '\n' || c == '\t' || c == '\r'

/-- A control character, which a string may not hold. -/
def isControl (c : Char) : Bool := c.toNat < 0x20

/-- The character that a backslash and a letter stand for. -/
def escaped? : Char → Option Char
  | '"' => some '"'
  | '\\' => some '\\'
  | '/' => some '/'
  | 'b' => some '\x08'
  | 'f' => some '\x0c'
  | 'n' => some '\n'
  | 'r' => some '\r'
  | 't' => some '\t'
  | _ => none

/-- The value of a hexadecimal digit of either case. -/
def hexDigit? (c : Char) : Option Nat :=
  if c.isDigit then some (c.toNat - '0'.toNat)
  else if 'a' ≤ c ∧ c ≤ 'f' then some (c.toNat - 'a'.toNat + 10)
  else if 'A' ≤ c ∧ c ≤ 'F' then some (c.toNat - 'A'.toNat + 10)
  else none

/-- The UTF-16 unit that four hexadecimal digits spell. -/
def unit? (a b c d : Char) : Option Nat := do
  let a ← hexDigit? a
  let b ← hexDigit? b
  let c ← hexDigit? c
  let d ← hexDigit? d
  pure (((a * 16 + b) * 16 + c) * 16 + d)

/-- What is wrong with an escape that fewer than four characters follow: the text
ends too early, unless they take up four bytes all the same. -/
def shortUnit (rest : List Char) : Fault :=
  if rest.foldr (fun c size => c.utf8Size + size) 0 < 4 then .truncated else .malformed

/-- The first unit of a character outside the basic plane. -/
def isLeading (unit : Nat) : Bool := 0xD800 ≤ unit && unit ≤ 0xDBFF

/-- The second unit of a character outside the basic plane. -/
def isTrailing (unit : Nat) : Bool := 0xDC00 ≤ unit && unit ≤ 0xDFFF

/-- The character of a pair of units. -/
def ofPair (leading trailing : Nat) : Char :=
  Char.ofNat ((leading - 0xD800) * 0x400 + (trailing - 0xDC00) + 0x10000)

/-! ### Strings -/

/-- The text of a string, from behind its opening quote; `done` is reversed. -/
def readString (done : List Char) : List Char → Except Fault String
  | [] => .error .truncated
  | '"' :: _ => .ok (String.ofList done.reverse)
  | '\\' :: 'u' :: a :: b :: c :: d :: rest =>
    match unit? a b c d with
    | none => .error .malformed
    | some leading =>
      if isTrailing leading then .error .malformed
      else if isLeading leading then
        -- The second half has to follow at once, as an escape of its own.
        match rest with
        | '\\' :: 'u' :: e :: f :: g :: h :: rest =>
          match unit? e f g h with
          | none => .error .malformed
          | some trailing =>
            if isTrailing trailing then readString (ofPair leading trailing :: done) rest
            else .error .malformed
        | '\\' :: 'u' :: short => .error (shortUnit short)
        | [] | ['\\'] => .error .truncated
        | _ => .error .malformed
      else readString (Char.ofNat leading :: done) rest
  | '\\' :: 'u' :: short => .error (shortUnit short)
  | ['\\'] => .error .truncated
  | '\\' :: c :: rest =>
    match escaped? c with
    | some c => readString (c :: done) rest
    | none => .error .malformed
  | c :: rest => if isControl c then .error .malformed else readString (c :: done) rest

/-- What follows a string, from behind its opening quote. Units need not make up
characters here. -/
def passString : List Char → Except Fault (List Char)
  | [] => .error .truncated
  | '"' :: rest => .ok rest
  | '\\' :: 'u' :: a :: b :: c :: d :: rest =>
    if (unit? a b c d).isSome then passString rest else .error .malformed
  | '\\' :: 'u' :: short => .error (shortUnit short)
  | ['\\'] => .error .truncated
  | '\\' :: c :: rest => if (escaped? c).isSome then passString rest else .error .malformed
  | c :: rest => if isControl c then .error .malformed else passString rest

theorem length_of_passString {chars rest : List Char} (h : passString chars = .ok rest) :
    rest.length < chars.length := by
  fun_induction passString chars
  all_goals try simp only [List.length_cons]
  all_goals grind

/-! ### Numbers -/

/-- What is wrong where a digit has to come and none does: when the number is
wanted, the end of the text is told from another character. -/
def noDigit : List Char → Fault
  | [] => .truncated
  | _ => .malformed

/-- The values of the digits at the front. -/
def digits (chars : List Char) : List Nat :=
  (chars.takeWhile Char.isDigit).map fun c => c.toNat - '0'.toNat

/-- What follows the digits at the front. -/
def afterDigits (chars : List Char) : List Char := chars.dropWhile Char.isDigit

/-- A run of digits: the values, the rest, and the faults of a run that is empty
or starts with a needless zero. -/
structure Run where
  values : List Nat
  rest : List Char
  kept : Except Fault Unit
  skipped : Except Fault Unit

/-- The run of digits at the front. A leading zero stands alone, where `alone`. -/
def Run.ofChars (alone : Bool) (chars : List Char) : Run :=
  match digits chars with
  | [] => ⟨[], chars, .error (noDigit chars), .error .malformed⟩
  | values =>
    if alone && values.head? == some 0 && values.length != 1 then
      ⟨values, afterDigits chars, .error .malformed, .error .malformed⟩
    else ⟨values, afterDigits chars, .ok (), .ok ()⟩

/-- No digits, where a number may go without. -/
def Run.absent (chars : List Char) : Run := ⟨[], chars, .ok (), .ok ()⟩

/-- The digits after the point, if there is one. -/
def Run.fraction : List Char → Run
  | '.' :: rest => .ofChars false rest
  | chars => .absent chars

/-- The sign at the front of an exponent, as a factor, and what follows it. -/
def exponentSign : List Char → Int × List Char
  | '-' :: rest => (-1, rest)
  | '+' :: rest => (1, rest)
  | chars => (1, chars)

/-- The exponent, if there is one, and its sign. -/
def Run.exponent : List Char → Int × Run
  | 'e' :: rest | 'E' :: rest => ((exponentSign rest).1, .ofChars false (exponentSign rest).2)
  | chars => (1, .absent chars)

/-- The number that digits spell. -/
def numeral (values : List Nat) : Nat := values.foldl (fun sum digit => sum * 10 + digit) 0

/-- The number at the front, from behind its sign, and what follows it. -/
def readNumber (chars : List Char) : Token × List Char :=
  let integral := Run.ofChars true chars
  let fraction := Run.fraction integral.rest
  let (sign, exponent) := Run.exponent fraction.rest
  let magnitude :=
    Magnitude.ofDigits integral.values fraction.values (sign * numeral exponent.values)
  let kept := do
    integral.kept
    fraction.kept
    exponent.kept
    if magnitude.isOutOfRange then .error .malformed
  let skipped := do
    integral.skipped
    fraction.skipped
    exponent.skipped
  (.number kept skipped, exponent.rest)

theorem length_afterDigits (chars : List Char) :
    (afterDigits chars).length ≤ chars.length :=
  (List.dropWhile_sublist _).length_le

theorem Run.length_ofChars (alone : Bool) (chars : List Char) :
    (Run.ofChars alone chars).rest.length ≤ chars.length := by
  have := length_afterDigits chars
  unfold Run.ofChars
  split
  · simp
  · split <;> simpa

theorem Run.length_ofChars_cons {c : Char} (digit : c.isDigit) (alone : Bool)
    (chars : List Char) : (Run.ofChars alone (c :: chars)).rest.length ≤ chars.length := by
  have : afterDigits (c :: chars) = afterDigits chars := List.dropWhile_cons_of_pos digit
  have := length_afterDigits chars
  unfold Run.ofChars
  split
  · simp_all [digits]
  · split <;> simp_all

theorem Run.length_fraction (chars : List Char) :
    (Run.fraction chars).rest.length ≤ chars.length := by
  unfold Run.fraction
  split
  · have := Run.length_ofChars false ‹List Char›
    simp only [List.length_cons]
    omega
  · simp [Run.absent]

theorem length_exponentSign (chars : List Char) :
    (exponentSign chars).2.length ≤ chars.length := by
  unfold exponentSign
  split <;> simp

theorem Run.length_exponent (chars : List Char) :
    (Run.exponent chars).2.rest.length ≤ chars.length := by
  unfold Run.exponent
  split
  · rename_i rest
    have := Run.length_ofChars false (exponentSign rest).2
    have := length_exponentSign rest
    simp only [List.length_cons]
    omega
  · rename_i rest
    have := Run.length_ofChars false (exponentSign rest).2
    have := length_exponentSign rest
    simp only [List.length_cons]
    omega
  · simp [Run.absent]

theorem length_readNumber (chars : List Char) :
    (readNumber chars).2.length ≤ chars.length :=
  Nat.le_trans (Run.length_exponent _)
    (Nat.le_trans (Run.length_fraction _) (Run.length_ofChars true chars))

theorem length_readNumber_cons {c : Char} (digit : c.isDigit) (chars : List Char) :
    (readNumber (c :: chars)).2.length ≤ chars.length :=
  Nat.le_trans (Run.length_exponent _)
    (Nat.le_trans (Run.length_fraction _) (Run.length_ofChars_cons digit true chars))

/-! ### Texts -/

/-- What is wrong with a literal of which `rest` is still to come before `chars`. -/
def brokenLiteral : (rest : List Char) → (chars : List Char) → Fault
  | [], _ => .malformed
  | _ :: _, [] => .truncated
  | c :: rest, d :: chars => if c = d then brokenLiteral rest chars else .malformed

/-- Cuts a text into tokens; `done` is reversed. -/
def cut (done : List Token) (chars : List Char) : List Token :=
  match chars with
  | [] => done.reverse
  -- Punctuation.
  | '[' :: rest => cut (.openArray :: done) rest
  | ']' :: rest => cut (.closeArray :: done) rest
  | '{' :: rest => cut (.openObject :: done) rest
  | '}' :: rest => cut (.closeObject :: done) rest
  | ',' :: rest => cut (.comma :: done) rest
  | ':' :: rest => cut (.colon :: done) rest
  -- Literals; one that breaks off ends the text.
  | 'n' :: 'u' :: 'l' :: 'l' :: rest => cut (.null :: done) rest
  | 't' :: 'r' :: 'u' :: 'e' :: rest => cut (.boolean true :: done) rest
  | 'f' :: 'a' :: 'l' :: 's' :: 'e' :: rest => cut (.boolean false :: done) rest
  | 'n' :: rest => (.broken (brokenLiteral ['u', 'l', 'l'] rest) :: done).reverse
  | 't' :: rest => (.broken (brokenLiteral ['r', 'u', 'e'] rest) :: done).reverse
  | 'f' :: rest => (.broken (brokenLiteral ['a', 'l', 's', 'e'] rest) :: done).reverse
  | '"' :: chars =>
    match _passed : passString chars with
    | .ok rest => cut (.string (readString [] chars) (.ok ()) :: done) rest
    | .error fault => (.string (readString [] chars) (.error fault) :: done).reverse
  | '-' :: rest => cut ((readNumber rest).1 :: done) (readNumber rest).2
  | c :: rest =>
    if isBlank c then cut done rest
    else if _digit : c.isDigit then
      cut ((readNumber (c :: rest)).1 :: done) (readNumber (c :: rest)).2
    else (.stray :: done).reverse
termination_by chars.length
decreasing_by
  any_goals (simp only [List.length_cons]; omega)
  · have := length_of_passString _passed
    simp only [List.length_cons]
    omega
  · have := length_readNumber rest
    simp only [List.length_cons]
    omega
  · have := length_readNumber_cons _digit rest
    simp only [List.length_cons]
    omega

/-- The tokens of a text. -/
def ofText (text : String) : List Token := cut [] text.toList

end Token

end BinaryAst.Json
