import EntityStore.ClassIndex

/-! Layouts: the component types of one kind of entity in ascending order of their codes, which is
the order that its components are sorted into. -/

namespace EntityStore

structure Layout (κ : Type) where
  types : List κ
  codes : List UInt32
  deriving DecidableEq, Repr

namespace Layout
variable {κ : Type} [BEq κ]

def repeatedCode? : List (UInt32 × κ) → Option UInt32
  | a :: b :: rest => if a.1 = b.1 then some a.1 else repeatedCode? (b :: rest)
  | _ => none

/-- The layout of distinct types, which get codes where they have none. -/
def create [Hashable κ] (x : ClassIndex κ) (types : List κ) :
    Outcome (ClassIndex κ) (Except IndexError (Layout κ)) :=
  (x.getOrAddAll types).map fun r => r.bind fun codes =>
    let pairs := sortBy (fun a b => decide (a.1 ≤ b.1)) (codes.zip types)
    match repeatedCode? pairs with
    | some code => .error (.duplicateType code)
    | none => .ok { types := pairs.map (·.2), codes := pairs.map (·.1) }

def size (l : Layout κ) : Nat := l.types.length

def isEmpty (l : Layout κ) : Bool := l.types.isEmpty

/-- The position of a type in the layout. -/
def offsetOf? (l : Layout κ) (type : κ) : Option Nat := l.types.findIdx? (· == type)

def codeOf? (l : Layout κ) (type : κ) : Option UInt32 := (l.offsetOf? type).bind (l.codes[·]?)

def contains (l : Layout κ) (type : κ) : Bool := (l.offsetOf? type).isSome

/-- The rank of a type: its position, or behind all positions if it is not in the layout. -/
def rank (l : Layout κ) (type : κ) : Nat := (l.offsetOf? type).getD l.size

variable {α : Type}

/-- Components in the order of the layout, those of other types last. Components of equal rank keep
their order. -/
def sort (l : Layout κ) (type : α → κ) (components : List α) : List α :=
  sortBy (fun a b => decide (l.rank (type a) ≤ l.rank (type b))) components

/-- Whether no component has a greater rank than the next. -/
def isSorted (l : Layout κ) (type : α → κ) : List α → Bool
  | a :: b :: rest => l.rank (type a) ≤ l.rank (type b) && l.isSorted type (b :: rest)
  | _ => true

end Layout
end EntityStore
