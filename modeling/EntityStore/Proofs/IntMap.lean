import EntityStore.IntMap
import EntityStore.Proofs.CanonicalHash
import Mathlib.Data.List.Nodup
import Mathlib.Tactic.Common

/-! Maps from codes as finite maps. Whatever order a table lists its entries in, the keys of a map
are in ascending order, so maps with the same keys list them alike, and the values stand in the
order of their keys. -/

namespace EntityStore.IntMap
variable {α β : Type} {τ σ : Type → Type} [CodeTable τ] [LawfulCodeTable τ] [CodeTable σ]
  [LawfulCodeTable σ]

/-! ### Entries -/

theorem get?_withCapacity (capacity : Nat) (code : UInt32) :
    (withCapacity capacity : IntMap α τ).get? code = none :=
  LawfulCodeTable.get?_withCapacity capacity code

theorem put_fst (m : IntMap α τ) (key : UInt32) (value : α) : (m.put key value).1 = m.get? key :=
  LawfulCodeTable.insert_fst m.table key value

theorem get?_put (m : IntMap α τ) (key code : UInt32) (value : α) :
    (m.put key value).2.get? code = if code = key then some value else m.get? code :=
  LawfulCodeTable.get?_insert m.table key code value

theorem remove_fst (m : IntMap α τ) (key : UInt32) : (m.remove key).1 = m.get? key := by
  show (CodeTable.remove m.table key).1.map (·.2) = m.get? key
  rw [LawfulCodeTable.remove_fst, Option.map_map]
  exact Option.map_id'

theorem get?_remove (m : IntMap α τ) (key code : UInt32) :
    (m.remove key).2.get? code = if code = key then none else m.get? code :=
  LawfulCodeTable.get?_remove m.table key code

@[simp] theorem get?_clone (m : IntMap α τ) (code : UInt32) : m.clone.get? code = m.get? code :=
  LawfulCodeTable.get?_clone m.table code

theorem contains_eq (m : IntMap α τ) (code : UInt32) : m.contains code = (m.get? code).isSome :=
  LawfulCodeTable.contains_eq m.table code

theorem contains_iff (m : IntMap α τ) (code : UInt32) :
    m.contains code = true ↔ ∃ value, m.get? code = some value := by
  rw [contains_eq, Option.isSome_iff_exists]

/-! ### Sorted entries -/

/-- The entries of a map in the order of their keys. -/
def sorted (m : IntMap α τ) : List (UInt32 × α) :=
  sortBy (fun a b => decide (a.1 ≤ b.1)) (CodeTable.entries m.table)

omit [LawfulCodeTable τ] in
theorem sorted_perm (m : IntMap α τ) : m.sorted.Perm (CodeTable.entries m.table) := sortBy_perm ..

theorem mem_sorted (m : IntMap α τ) (code : UInt32) (value : α) :
    (code, value) ∈ m.sorted ↔ m.get? code = some value := by
  rw [m.sorted_perm.mem_iff]
  exact LawfulCodeTable.mem_entries m.table code value

theorem nodup_map_sorted (m : IntMap α τ) : (m.sorted.map (·.1)).Nodup :=
  (m.sorted_perm.map _).nodup_iff.2 (LawfulCodeTable.nodup_entries m.table)

theorem pairwise_sorted (m : IntMap α τ) : m.sorted.Pairwise fun a b => a.1 < b.1 := by
  have hle : m.sorted.Pairwise fun a b => decide (a.1 ≤ b.1) = true := by
    apply pairwise_sortBy
    · intro a b
      simpa using UInt32.le_total a.1 b.1
    · intro a b c hab hbc
      exact decide_eq_true (UInt32.le_trans (of_decide_eq_true hab) (of_decide_eq_true hbc))
  have hne := List.pairwise_map.1 m.nodup_map_sorted
  apply hle.imp₂ _ hne
  intro a b hle hne
  exact UInt32.lt_of_le_of_ne (of_decide_eq_true hle) hne

theorem keys_eq_map (m : IntMap α τ) : m.keys = m.sorted.map (·.1) := by
  have hle : (m.sorted.map (·.1)).Pairwise (· ≤ ·) :=
    List.pairwise_map.2 (m.pairwise_sorted.imp UInt32.le_of_lt)
  exact (eq_sortCodes (m.sorted_perm.map _) hle).symm

theorem pairwise_keys (m : IntMap α τ) : m.keys.Pairwise (· < ·) := by
  rw [keys_eq_map]
  exact List.pairwise_map.2 m.pairwise_sorted

theorem nodup_keys (m : IntMap α τ) : m.keys.Nodup := m.pairwise_keys.imp UInt32.ne_of_lt

theorem mem_keys (m : IntMap α τ) (code : UInt32) :
    code ∈ m.keys ↔ ∃ value, m.get? code = some value := by
  rw [keys_eq_map, List.mem_map]
  constructor
  · rintro ⟨⟨code, value⟩, hmem, rfl⟩
    exact ⟨value, (m.mem_sorted code value).1 hmem⟩
  · rintro ⟨value, hget⟩
    exact ⟨(code, value), (m.mem_sorted code value).2 hget, rfl⟩

theorem mem_keys_put (m : IntMap α τ) (key code : UInt32) (value : α) :
    code ∈ (m.put key value).2.keys ↔ code ∈ key :: m.keys := by
  rw [mem_keys, get?_put, List.mem_cons, mem_keys]
  split
  · rename_i h
    exact ⟨fun _ => .inl h, fun _ => ⟨value, rfl⟩⟩
  · rename_i h
    exact ⟨.inr, fun hc => hc.resolve_left h⟩

theorem keys_eq_of_mem_iff {m : IntMap α τ} {n : IntMap β σ}
    (h : ∀ code, code ∈ m.keys ↔ code ∈ n.keys) : m.keys = n.keys := by
  have hperm := (List.perm_ext_iff_of_nodup m.nodup_keys n.nodup_keys).2 h
  apply hperm.eq_of_pairwise _ m.pairwise_keys n.pairwise_keys
  intro a b _ _ hab hba
  exact absurd hba (UInt32.lt_asymm hab)

theorem keys_clone (m : IntMap α τ) : m.clone.keys = m.keys := by
  apply keys_eq_of_mem_iff
  intro code
  rw [mem_keys, mem_keys, get?_clone]

theorem mem_values (m : IntMap α τ) (value : α) :
    value ∈ m.values ↔ ∃ code, m.get? code = some value := by
  show value ∈ m.sorted.map (·.2) ↔ _
  rw [List.mem_map]
  constructor
  · rintro ⟨⟨code, v⟩, hmem, rfl⟩
    exact ⟨code, (m.mem_sorted code v).1 hmem⟩
  · rintro ⟨code, hget⟩
    exact ⟨(code, value), (m.mem_sorted code value).2 hget, rfl⟩

theorem mem_values_clone (m : IntMap α τ) (value : α) :
    value ∈ m.clone.values ↔ value ∈ m.values := by
  rw [mem_values, mem_values]
  simp only [get?_clone]

theorem map_values (m : IntMap α τ) {f : α → β} {g : UInt32 → β}
    (h : ∀ code value, m.get? code = some value → f value = g code) :
    m.values.map f = m.keys.map g := by
  rw [keys_eq_map, List.map_map]
  show (m.sorted.map (·.2)).map f = _
  rw [List.map_map]
  apply List.map_congr_left
  intro p hp
  exact h p.1 p.2 ((m.mem_sorted p.1 p.2).1 hp)

theorem length_keys (m : IntMap α τ) : m.keys.length = m.size := by
  rw [keys_eq_map, List.length_map, m.sorted_perm.length_eq]
  exact LawfulCodeTable.length_entries m.table

end EntityStore.IntMap
