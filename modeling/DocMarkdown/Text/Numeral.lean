/-!
# Text/Numeral — a number in decimal or hexadecimal digits

A **numeral** is one or more digits of a base and nothing else; leading zeros count for nothing.
-/

namespace DocMarkdown.Text

/-- The two bases in use. -/
inductive Base where
  | decimal
  | hexadecimal
deriving DecidableEq, Repr

namespace Base

/-- How many digits a base has. -/
def size : Base → Nat
  | decimal => 10
  | hexadecimal => 16

/-- The value of a digit; hexadecimal digits in either case. -/
def digit? (base : Base) (c : Char) : Option Nat :=
  if '0' ≤ c ∧ c ≤ '9' then some (c.toNat - '0'.toNat)
  else
    match base with
    | decimal => none
    | hexadecimal =>
      if 'a' ≤ c ∧ c ≤ 'f' then some (c.toNat - 'a'.toNat + 10)
      else if 'A' ≤ c ∧ c ≤ 'F' then some (c.toNat - 'A'.toNat + 10)
      else none

/-- The value of digits that follow others, whose value is given. -/
def valueAfter? (base : Base) : Nat → List Char → Option Nat
  | n, [] => some n
  | n, c :: cs => (base.digit? c).bind fun d => base.valueAfter? (n * base.size + d) cs

/-- **The value of a numeral**: of one or more digits and nothing else. -/
def value? (base : Base) : List Char → Option Nat
  | [] => none
  | cs => base.valueAfter? 0 cs

end Base

end DocMarkdown.Text
