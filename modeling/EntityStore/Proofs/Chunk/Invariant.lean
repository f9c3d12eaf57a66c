import EntityStore.Chunk
import Mathlib.Data.List.Perm.Subperm
import Mathlib.Tactic.Common

/-! The invariant of a chunk, which every operation keeps. It ties together the high-water mark and
its copy, the stack of vacant offsets and its copy as a set, the count of live slots and the two
rows of slots. -/

namespace EntityStore.Chunk

/-- Whether an offset is handed out and was not freed since. -/
def IsLive (c : Chunk) (offset : Nat) : Prop := offset < c.nextOffset ∧ offset ∉ c.free

instance (c : Chunk) (offset : Nat) : Decidable (c.IsLive offset) :=
  inferInstanceAs (Decidable (_ ∧ _))

structure WF (c : Chunk) : Prop where
  size_slots : c.slots.size = c.capacity
  size_stateSlots : ∀ slots ∈ c.stateSlots, slots.size = c.capacity
  length_vacant : c.vacant.length = c.capacity
  nextOffset_le : c.nextOffset ≤ c.capacity
  highWater_eq : c.highWater = c.nextOffset
  nodup_free : c.free.Nodup
  lt_of_mem_free : ∀ offset ∈ c.free, offset < c.nextOffset
  contains_vacant : ∀ offset, c.vacant.contains offset = true ↔ offset ∈ c.free
  live_add : c.live + c.free.length = c.nextOffset
  live_of_item : ∀ {offset item}, c.item? offset = some item → c.IsLive offset
  live_of_stateItem : ∀ {offset item}, c.stateItem? offset = some item → c.IsLive offset
  nextOffset_of_parked : c.parked = true → c.nextOffset = 0

/-- What is registered at a live offset. -/
def content? (c : Chunk) (offset : Nat) : Option (Option ItemId × Option ItemId) :=
  if c.IsLive offset then some (c.item? offset, c.stateItem? offset) else none

/-- A chunk in which everything but the parts about neighbours and place is as in another one. -/
structure SameSlots (c d : Chunk) : Prop where
  slots : d.slots = c.slots
  stateSlots : d.stateSlots = c.stateSlots
  nextOffset : d.nextOffset = c.nextOffset
  free : d.free = c.free

theorem SameSlots.content? {c d : Chunk} (h : SameSlots c d) (offset : Nat) :
    d.content? offset = c.content? offset := by
  have hl : d.IsLive offset ↔ c.IsLive offset := by simp only [IsLive, h.nextOffset, h.free]
  simp only [Chunk.content?, hl, item?, stateItem?, h.slots, h.stateSlots]

theorem wf_create (index capacity : Nat) : (create index capacity).WF where
  size_slots := by simp [create]
  size_stateSlots := by simp [create]
  length_vacant := by simp [create]
  nextOffset_le := Nat.zero_le _
  highWater_eq := rfl
  nodup_free := .nil
  lt_of_mem_free := by simp [create]
  contains_vacant := by simp [create]
  live_add := rfl
  live_of_item {offset item} h := by
    simp only [create, item?, Array.getElem?_replicate] at h
    split at h <;> cases h
  live_of_stateItem h := by simp [create, stateItem?] at h
  nextOffset_of_parked _ := rfl

section
variable {c : Chunk}

theorem WF.live_le (h : c.WF) : c.live ≤ c.capacity := by
  have hadd := h.live_add
  have hle := h.nextOffset_le
  omega

theorem WF.free_eq_nil (h : c.WF) (hn : c.nextOffset = 0) : c.free = [] := by
  refine List.eq_nil_iff_forall_not_mem.2 fun o ho => ?_
  have := h.lt_of_mem_free o ho
  omega

theorem WF.eq_nil_of_parked (h : c.WF) (hp : c.parked = true) : c.free = [] ∧ c.live = 0 := by
  have hn := h.nextOffset_of_parked hp
  have hl := h.live_add
  exact ⟨h.free_eq_nil hn, by omega⟩

theorem WF.mem_allocated (h : c.WF) (offset : Nat) : offset ∈ c.allocated ↔ c.IsLive offset := by
  have hv : (!c.vacant.contains offset) = true ↔ offset ∉ c.free := by
    rw [Bool.not_eq_true', ← Bool.not_eq_true, h.contains_vacant]
  rw [allocated, List.mem_filter, List.mem_range, hv]
  rfl

theorem WF.length_allocated (h : c.WF) : c.allocated.length = c.live := by
  -- Below the mark stand the live offsets and those on the stack.
  have hfree : ((List.range c.nextOffset).filter c.vacant.contains).Perm c.free := by
    refine (List.perm_ext_iff_of_nodup (List.nodup_range.filter _) h.nodup_free).2 fun o => ?_
    rw [List.mem_filter, List.mem_range, h.contains_vacant, and_iff_right_iff_imp]
    exact h.lt_of_mem_free o
  have hsplit := List.length_eq_length_filter_add (l := List.range c.nextOffset) c.vacant.contains
  have hadd := h.live_add
  rw [List.length_range, hfree.length_eq] at hsplit
  have hlen : c.allocated.length =
      ((List.range c.nextOffset).filter fun o => !c.vacant.contains o).length := rfl
  omega

theorem WF.allocated_eq_nil_iff (h : c.WF) : c.allocated = [] ↔ c.live = 0 := by
  rw [← h.length_allocated, List.length_eq_zero_iff]

theorem WF.not_isLive_of_live_eq_zero (h : c.WF) (hl : c.live = 0) (offset : Nat) :
    ¬ c.IsLive offset := by
  rw [← h.mem_allocated, h.allocated_eq_nil_iff.2 hl]
  exact List.not_mem_nil

theorem WF.item?_eq_none (h : c.WF) {offset : Nat} (hl : ¬ c.IsLive offset) :
    c.item? offset = none :=
  Option.eq_none_iff_forall_not_mem.2 fun _ hi => hl (h.live_of_item hi)

theorem WF.stateItem?_eq_none (h : c.WF) {offset : Nat} (hl : ¬ c.IsLive offset) :
    c.stateItem? offset = none :=
  Option.eq_none_iff_forall_not_mem.2 fun _ hi => hl (h.live_of_stateItem hi)

theorem WF.item?_eq (h : c.WF) (offset : Nat) :
    c.item? offset = (c.content? offset).bind (·.1) := by
  unfold content?
  split
  · rfl
  · exact h.item?_eq_none ‹_›

theorem WF.stateItem?_eq (h : c.WF) (offset : Nat) :
    c.stateItem? offset = (c.content? offset).bind (·.2) := by
  unfold content?
  split
  · rfl
  · exact h.stateItem?_eq_none ‹_›

theorem isOccupied_eq (c : Chunk) (offset : Nat) :
    c.isOccupied offset = (c.item? offset).isSome := by
  unfold isOccupied item?
  cases c.slots[offset]? <;> rfl

end
end EntityStore.Chunk
