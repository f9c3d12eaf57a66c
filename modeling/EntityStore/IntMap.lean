import EntityStore.CodeTable
import EntityStore.Hash.Canonical

/-! Maps from codes to values, kept in a hash table. A table lists its entries in any order, so the
keys of a map and its values are sorted each time they are asked for. -/

namespace EntityStore

structure IntMap (α : Type) (τ : Type → Type := DescendingTable) [CodeTable τ] where
  table : τ α := CodeTable.withCapacity 0

namespace IntMap
variable {α : Type} {τ : Type → Type} [CodeTable τ]

instance : Inhabited (IntMap α τ) := ⟨{}⟩

def withCapacity (capacity : Nat) : IntMap α τ := ⟨CodeTable.withCapacity capacity⟩

def get? (m : IntMap α τ) (key : UInt32) : Option α := CodeTable.get? m.table key

def contains (m : IntMap α τ) (key : UInt32) : Bool := CodeTable.contains m.table key

/-- Stores a value and answers with the one it replaces. -/
def put (m : IntMap α τ) (key : UInt32) (value : α) : Option α × IntMap α τ :=
  let (old, table) := CodeTable.insert m.table key value
  (old, ⟨table⟩)

/-- The value of a key, which is `f key` if there was none. The flag tells whether `f` was asked. -/
def computeIfAbsent (m : IntMap α τ) (key : UInt32) (f : UInt32 → α) : α × Bool × IntMap α τ :=
  match m.get? key with
  | some value => (value, false, m)
  | none =>
    let value := f key
    (value, true, ⟨(CodeTable.insert m.table key value).2⟩)

def remove (m : IntMap α τ) (key : UInt32) : Option α × IntMap α τ :=
  let (old, table) := CodeTable.remove m.table key
  (old.map (·.2), ⟨table⟩)

def clone (m : IntMap α τ) : IntMap α τ := ⟨CodeTable.clone m.table⟩

def size (m : IntMap α τ) : Nat := CodeTable.size m.table

def isEmpty (m : IntMap α τ) : Bool := m.size == 0

def keys (m : IntMap α τ) : List UInt32 := sortCodes ((CodeTable.entries m.table).map (·.1))

/-- The values in the order of their keys. -/
def values (m : IntMap α τ) : List α :=
  (sortBy (fun a b => decide (a.1 ≤ b.1)) (CodeTable.entries m.table)).map (·.2)

def hash (m : IntMap α τ) : UInt64 := canonicalHash m.keys

end IntMap
end EntityStore
