import Std.Data.TreeMap

/-! Maps over keys with hashes. Entries with one hash stand in one bucket, in which equality
decides. -/

namespace EntityStore

structure KeyMap (κ α : Type) where
  buckets : Std.TreeMap UInt64 (List (κ × α)) := {}

namespace KeyMap
variable {κ α : Type} [BEq κ] [Hashable κ]

def get? (m : KeyMap κ α) (key : κ) : Option α := (m.buckets.getD (hash key) []).lookup key

def getD (m : KeyMap κ α) (key : κ) (default : α) : α := (m.get? key).getD default

/-- Stores a value. It stands in front of its bucket and so hides an older value of the key. -/
def insert (m : KeyMap κ α) (key : κ) (value : α) : KeyMap κ α :=
  ⟨m.buckets.insert (hash key) ((key, value) :: m.buckets.getD (hash key) [])⟩

theorem get?_insert [LawfulHashable κ] (m : KeyMap κ α) (key k : κ) (value : α) :
    (m.insert key value).get? k = if k == key then some value else m.get? k := by
  simp only [get?, insert, Std.TreeMap.getD_insert, Std.LawfulEqCmp.compare_eq_iff_eq]
  cases h : k == key with
  | true => simp [hash_eq h, List.lookup_cons, h]
  | false =>
    split
    · rename_i hh
      simp [List.lookup_cons, h, hh]
    · simp

end KeyMap
end EntityStore
