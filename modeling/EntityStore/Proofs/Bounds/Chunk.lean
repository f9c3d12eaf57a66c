import EntityStore.Proofs.Chunk.Operations

/-! Checked execution of a chunk. A checked operation does what the operation does as long as every
index it writes at is in bounds and every counter stays in its range, and has no result otherwise.
On a chunk in order it always has one. Look-ups ask for an offset that may be any, and have no
check. -/

namespace EntityStore

/-- A result that is missing if an index was out of bounds or a counter left its range. -/
abbrev Checked : Type → Type := Option

/-- A counter one up, which must stay at most `limit`. -/
def raise (n limit : Nat) : Checked Nat := if n < limit then some (n + 1) else none

def lower (n : Nat) : Checked Nat := if 0 < n then some (n - 1) else none

def checkedSet {α : Type} (xs : Array α) (i : Nat) (a : α) : Checked (Array α) :=
  if i < xs.size then some (xs.setIfInBounds i a) else none

namespace BitSet

def checkedInsert (s : BitSet) (n : Nat) : Checked BitSet :=
  if n < s.length then some (s.insert n) else none

def checkedErase (s : BitSet) (n : Nat) : Checked BitSet :=
  if n < s.length then some (s.erase n) else none

def checkedPut (s : BitSet) (n : Nat) : Checked (Bool × BitSet) :=
  if n < s.length then some (s.put n) else none

end BitSet

namespace Chunk

def checkedTakeVacant (c : Chunk) (offset : Nat) (free : List Nat) : Checked Chunk := do
  let vacant ← c.vacant.checkedErase offset
  let live ← raise c.live c.capacity
  return { c with free, vacant, live }

def checkedTakeFresh (c : Chunk) : Checked Chunk := do
  let nextOffset ← raise c.nextOffset c.capacity
  let live ← raise c.live c.capacity
  return { c with nextOffset, live, highWater := nextOffset }

def checkedAllocate (c : Chunk) : Checked (Option Nat × Chunk) :=
  if c.parked then some (none, c)
  else match c.free with
    | offset :: free => (c.checkedTakeVacant offset free).map fun d => (some offset, d)
    | [] =>
      if c.nextOffset < c.capacity then c.checkedTakeFresh.map fun d => (some c.nextOffset, d)
      else some (none, c)

def checkedReuse (c : Chunk) : Checked (Option (Nat × Bool) × Chunk) :=
  match c.free with
  | [] => some (none, c)
  | offset :: free =>
    (c.checkedTakeVacant offset free).map fun d => (some (offset, !free.isEmpty), d)

def checkedVacate (c : Chunk) (offset : Nat) : Checked Chunk := do
  let slots ← checkedSet c.slots offset none
  let stateSlots ← match c.stateSlots with
    | some stateSlots => (checkedSet stateSlots offset none).map some
    | none => some none
  let vacant ← c.vacant.checkedInsert offset
  let live ← lower c.live
  return { c with slots, stateSlots, free := offset :: c.free, vacant, live }

def checkedRelease (c : Chunk) (offset : Nat) : Checked (Except SlotError Freed × Chunk) :=
  if c.nextOffset ≤ offset then some (.error .unallocated, c)
  else if c.vacant.contains offset then some (.error .alreadyFree, c)
  else
    (c.checkedVacate offset).map fun d =>
      (.ok { item := c.item? offset, stateItem := c.stateItem? offset,
             reopened := c.free.isEmpty, drained := d.live == 0 }, d)

def checkedPut (c : Chunk) (offset : Nat) (item : ItemId) : Checked Chunk := do
  let slots ← checkedSet c.slots offset (some item)
  return { c with slots }

def checkedPutState (c : Chunk) (offset : Nat) (item : ItemId) : Checked Chunk := do
  let stateSlots ← checkedSet (c.stateSlots.getD (.replicate c.capacity none)) offset (some item)
  return { c with stateSlots := some stateSlots }

variable {c d : Chunk} {offset : Nat}

/-! ### No check fails -/

theorem WF.checkedTakeVacant_eq (h : c.WF) {free : List Nat} (hf : c.free = offset :: free) :
    c.checkedTakeVacant offset free = some (c.takeVacant offset free) := by
  have hlt : offset < c.nextOffset := h.lt_of_mem_free offset (hf ▸ List.mem_cons_self ..)
  have hvacant : offset < c.vacant.length :=
    h.length_vacant ▸ Nat.lt_of_lt_of_le hlt h.nextOffset_le
  -- The vacant slot is one that is not live.
  have hlive : c.live < c.capacity := by
    have hadd := h.live_add
    rw [hf, List.length_cons] at hadd
    have hle := h.nextOffset_le
    omega
  simp [checkedTakeVacant, BitSet.checkedErase, raise, hvacant, hlive, takeVacant]

theorem WF.checkedTakeFresh_eq (h : c.WF) (hlt : c.nextOffset < c.capacity) :
    c.checkedTakeFresh = some c.takeFresh := by
  have hlive : c.live < c.capacity :=
    Nat.lt_of_le_of_lt (h.live_add ▸ Nat.le_add_right ..) hlt
  simp [checkedTakeFresh, raise, hlt, hlive, takeFresh]

theorem WF.checkedAllocate_eq (h : c.WF) : c.checkedAllocate = some c.allocate := by
  unfold checkedAllocate allocate
  split
  · rfl
  · cases hf : c.free with
    | cons offset free => simp only [h.checkedTakeVacant_eq hf, Option.map_some]
    | nil =>
      by_cases hlt : c.nextOffset < c.capacity
      · simp only [hlt, if_true, h.checkedTakeFresh_eq hlt, Option.map_some]
      · simp only [hlt, if_false]

theorem WF.checkedReuse_eq (h : c.WF) : c.checkedReuse = some c.reuse := by
  unfold checkedReuse reuse
  cases hf : c.free with
  | nil => rfl
  | cons offset free => simp only [h.checkedTakeVacant_eq hf, Option.map_some]

theorem WF.checkedVacate_eq (h : c.WF) (hl : c.IsLive offset) :
    c.checkedVacate offset = some (c.vacate offset) := by
  have hlt := h.lt_capacity_of_isLive hl
  have hslots : offset < c.slots.size := h.size_slots ▸ hlt
  have hvacant : offset < c.vacant.length := h.length_vacant ▸ hlt
  have hlive := h.live_pos hl
  unfold checkedVacate vacate
  cases hs : c.stateSlots with
  | none => simp [checkedSet, BitSet.checkedInsert, lower, hslots, hvacant, hlive]
  | some stateSlots =>
    have hstate : offset < stateSlots.size := h.size_stateSlots stateSlots hs ▸ hlt
    simp [checkedSet, BitSet.checkedInsert, lower, hslots, hstate, hvacant, hlive]

theorem WF.checkedRelease_eq (h : c.WF) (offset : Nat) :
    c.checkedRelease offset = some (c.release offset) := by
  unfold checkedRelease release
  split
  · rfl
  · rename_i hlt
    split
    · rfl
    · rename_i hv
      rw [h.checkedVacate_eq (h.isLive_iff.2 ⟨hlt, by simpa using hv⟩)]
      rfl

theorem WF.checkedPut_eq (h : c.WF) (hl : c.IsLive offset) (item : ItemId) :
    c.checkedPut offset item = some (c.put offset item) := by
  have hslots : offset < c.slots.size := h.size_slots ▸ h.lt_capacity_of_isLive hl
  simp [checkedPut, checkedSet, hslots, put]

theorem WF.checkedPutState_eq (h : c.WF) (hl : c.IsLive offset) (item : ItemId) :
    c.checkedPutState offset item = some (c.putState offset item) := by
  have hlt := h.lt_capacity_of_isLive hl
  have hsize : offset < (c.stateSlots.getD (.replicate c.capacity none)).size := by
    cases hs : c.stateSlots with
    | none => simpa using hlt
    | some stateSlots => exact h.size_stateSlots stateSlots hs ▸ hlt
  simp [checkedPutState, checkedSet, hsize, putState]

/-! ### Chunks stay in order -/

/-- The chunk `d` is in order and stands for `c`. -/
structure Evolves (c d : Chunk) : Prop where
  wf : d.WF
  index : d.index = c.index
  capacity : d.capacity = c.capacity

theorem WF.evolves (h : c.WF) : c.Evolves c := ⟨h, rfl, rfl⟩

theorem Takes.evolves (h : c.Takes offset d) : c.Evolves d :=
  ⟨h.wf, h.place.index, h.place.capacity⟩

theorem Takes.isLive (h : c.Takes offset d) : d.IsLive offset :=
  isLive_of_content? ((h.content offset).trans (if_pos rfl))

theorem WF.evolves_allocate (h : c.WF) : c.Evolves c.allocate.2 := by
  rcases ha : c.allocate with ⟨_ | offset, d⟩
  · rw [(h.of_allocate_eq_none ha).1]
    exact h.evolves
  · exact (h.takes_of_allocate ha).evolves

theorem WF.evolves_reuse (h : c.WF) : c.Evolves c.reuse.2 := by
  rcases hr : c.reuse with ⟨_ | ⟨offset, more⟩, d⟩
  · rw [(of_reuse_eq_none hr).1]
    exact h.evolves
  · exact (h.takes_of_reuse hr).1.evolves

theorem WF.evolves_release (h : c.WF) (offset : Nat) : c.Evolves (c.release offset).2 := by
  rcases hr : c.release offset with ⟨e | freed, d⟩
  · rw [(h.of_release_eq_error hr).1]
    exact h.evolves
  · have hd := h.frees_of_release hr
    exact ⟨hd.wf, hd.place.index, hd.place.capacity⟩

theorem WF.evolves_put (h : c.WF) (hl : c.IsLive offset) (item : ItemId) :
    c.Evolves (c.put offset item) := ⟨h.wf_put hl item, rfl, rfl⟩

theorem WF.evolves_putState (h : c.WF) (hl : c.IsLive offset) (item : ItemId) :
    c.Evolves (c.putState offset item) := ⟨h.wf_putState hl item, rfl, rfl⟩

theorem WF.evolves_links (h : c.WF) (prev next : Option Nat) : c.Evolves { c with prev, next } :=
  ⟨h.of_links prev next, rfl, rfl⟩

theorem WF.evolves_retire (h : c.WF) : c.Evolves c.retire.2 := by
  rcases hr : c.retire with ⟨_ | ⟨prev, next⟩, d⟩
  · have hd : d = c := by
      unfold retire park at hr
      split at hr
      · cases hr
      · rename_i hp
        split at hp <;> cases hp
        cases hr
        rfl
    rw [hd]
    exact h.evolves
  · obtain ⟨hd, -⟩ := h.retires hr
    exact ⟨hd.wf, hd.index, hd.capacity⟩

end Chunk
end EntityStore
