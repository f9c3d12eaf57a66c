import EntityStore.Sort

/-! The canonical hash of a set of class codes. -/

namespace EntityStore

/-- Folds codes by `h * 31 + code` modulo `2 ^ 64`. A set is hashed through its codes in ascending
order. -/
def canonicalHash (codes : List UInt32) : UInt64 :=
  codes.foldl (fun h code => h * 31 + code.toUInt64) 0

def sortCodes (codes : List UInt32) : List UInt32 := sortBy (fun a b => decide (a ≤ b)) codes

end EntityStore
