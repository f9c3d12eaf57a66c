/-! Repository names. A name is made of small letters, digits, `-`, `_` and `.`, and has at most
48 characters; names that come to nothing are numbered. -/

namespace EntityStore.Name

def maxLength : Nat := 48

def isAllowed (c : Char) : Bool :=
  ('a' ≤ c && c ≤ 'z') || ('0' ≤ c && c ≤ '9') || c == '-' || c == '_' || c == '.'

/-- What lower-casing a character leaves of the allowed characters. Outside of ASCII only the dotted
capital I and the Kelvin sign leave one. -/
def fold (c : Char) : Option Char :=
  if isAllowed c then some c
  else if 'A' ≤ c ∧ c ≤ 'Z' then some c.toLower
  else if c = '\u0130' then some 'i'
  else if c = '\u212A' then some 'k'
  else none

def letters (s : List Char) : List Char := (s.filterMap fold).take maxLength

/-- The number that the next name without characters gets. -/
structure Supply where
  next : UInt32 := 1
  deriving DecidableEq, Repr

def normalize (supply : Supply) (s : String) : String × Supply :=
  match letters s.toList with
  | [] => (s!"pool-{supply.next}", ⟨supply.next + 1⟩)
  | cs => (String.ofList cs, supply)

end EntityStore.Name
