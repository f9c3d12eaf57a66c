import Std.Data.TreeMap

/-! Hash tables from codes to values. What a table promises stands apart from what it does: it finds
what was stored last under a code and lists every entry once, in whatever order. -/

namespace EntityStore

/-- The calls of a hash table. -/
class CodeTable (τ : Type → Type) where
  withCapacity {α : Type} (capacity : Nat) : τ α
  get? {α : Type} (table : τ α) (key : UInt32) : Option α
  contains {α : Type} (table : τ α) (key : UInt32) : Bool
  /-- Stores a value and answers with the one that it replaces. -/
  insert {α : Type} (table : τ α) (key : UInt32) (value : α) : Option α × τ α
  /-- Removes an entry and answers with it. -/
  remove {α : Type} (table : τ α) (key : UInt32) : Option (UInt32 × α) × τ α
  size {α : Type} (table : τ α) : Nat
  /-- The entries in the order in which they are found. -/
  entries {α : Type} (table : τ α) : List (UInt32 × α)
  /-- Copies the entries to a table of its own, which may list them in another order. -/
  clone {α : Type} (table : τ α) : τ α

/-- What a hash table promises. Nothing is said of the order of its entries. -/
class LawfulCodeTable (τ : Type → Type) [CodeTable τ] : Prop where
  get?_withCapacity {α : Type} (capacity : Nat) (key : UInt32) :
    CodeTable.get? (CodeTable.withCapacity capacity : τ α) key = none
  contains_eq {α : Type} (table : τ α) (key : UInt32) :
    CodeTable.contains table key = (CodeTable.get? table key).isSome
  insert_fst {α : Type} (table : τ α) (key : UInt32) (value : α) :
    (CodeTable.insert table key value).1 = CodeTable.get? table key
  get?_insert {α : Type} (table : τ α) (key code : UInt32) (value : α) :
    CodeTable.get? (CodeTable.insert table key value).2 code =
      if code = key then some value else CodeTable.get? table code
  remove_fst {α : Type} (table : τ α) (key : UInt32) :
    (CodeTable.remove table key).1 = (CodeTable.get? table key).map fun value => (key, value)
  get?_remove {α : Type} (table : τ α) (key code : UInt32) :
    CodeTable.get? (CodeTable.remove table key).2 code =
      if code = key then none else CodeTable.get? table code
  get?_clone {α : Type} (table : τ α) (key : UInt32) :
    CodeTable.get? (CodeTable.clone table) key = CodeTable.get? table key
  mem_entries {α : Type} (table : τ α) (key : UInt32) (value : α) :
    (key, value) ∈ CodeTable.entries table ↔ CodeTable.get? table key = some value
  nodup_entries {α : Type} (table : τ α) : ((CodeTable.entries table).map (·.1)).Nodup
  length_entries {α : Type} (table : τ α) :
    (CodeTable.entries table).length = CodeTable.size table

/-- A table that finds its entries from the greatest code to the least. -/
structure DescendingTable (α : Type) where
  tree : Std.TreeMap UInt32 α fun a b => compare b a

instance : CodeTable DescendingTable where
  withCapacity _ := ⟨Std.TreeMap.empty⟩
  get? table key := table.tree[key]?
  contains table key := table.tree.contains key
  insert table key value := (table.tree[key]?, ⟨table.tree.insert key value⟩)
  remove table key := (table.tree[key]?.map fun value => (key, value), ⟨table.tree.erase key⟩)
  size table := table.tree.size
  entries table := table.tree.toList
  clone table := table

instance : LawfulCodeTable DescendingTable where
  get?_withCapacity _ _ := rfl
  contains_eq _ _ := Std.TreeMap.contains_eq_isSome_getElem?
  insert_fst _ _ _ := rfl
  get?_insert table key code value := by
    show (table.tree.insert key value)[code]? = if code = key then some value else table.tree[code]?
    rw [Std.TreeMap.getElem?_insert]
    simp only [Std.LawfulEqCmp.compare_eq_iff_eq]
  remove_fst _ _ := rfl
  get?_remove table key code := by
    show (table.tree.erase key)[code]? = if code = key then none else table.tree[code]?
    rw [Std.TreeMap.getElem?_erase]
    simp only [Std.LawfulEqCmp.compare_eq_iff_eq]
  get?_clone _ _ := rfl
  mem_entries _ _ _ := Std.TreeMap.mem_toList_iff_getElem?_eq_some
  nodup_entries table := by
    have hdistinct := table.tree.distinct_keys_toList
    rw [List.nodup_iff_pairwise_ne, List.pairwise_map]
    apply hdistinct.imp
    intro a b hne heq
    apply hne
    rw [heq]
    exact Std.ReflCmp.compare_self
  length_entries _ := Std.TreeMap.length_toList

end EntityStore
