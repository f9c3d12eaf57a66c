/-! Unsigned decimal numerals of thirty-two bits. -/

namespace EntityStore.Numeral

def digit? (c : Char) : Option Nat :=
  if '0' ≤ c ∧ c ≤ '9' then some (c.toNat - '0'.toNat) else none

/-- The value of digits read on from the value `n` of those before them. -/
def readFrom (n : Nat) : List Char → Option Nat
  | [] => some n
  | c :: cs => (digit? c).bind fun d => readFrom (10 * n + d) cs

/-- The value of one or more digits; leading zeros do not matter. -/
def digits? : List Char → Option Nat
  | [] => none
  | c :: cs => readFrom 0 (c :: cs)

def unsigned : List Char → List Char
  | '+' :: cs => cs
  | cs => cs

/-- The number that a text stands for: at most one plus sign and then digits, below `2 ^ 32`. -/
def read? (s : List Char) : Option Nat := (digits? (unsigned s)).filter (· < UInt32.size)

end EntityStore.Numeral
