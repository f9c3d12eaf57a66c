import EntityStore.BitSet
import EntityStore.Item

/-! Chunks: blocks of slots that are handed out one by one. Offsets from `nextOffset` on were not
handed out since the chunk was last empty; those below it are live or vacant, and the vacant ones
stand on a stack from which the last one freed is taken first. Every operation answers together
with the chunk after it, which is the old one when the answer is a refusal. -/

namespace EntityStore

structure Chunk where
  index : Nat
  capacity : Nat
  slots : Array (Option ItemId)
  /-- The registered state item of each slot; made when the first one is registered. -/
  stateSlots : Option (Array (Option ItemId)) := none
  nextOffset : Nat := 0
  /-- The vacant offsets, the one freed last in front. -/
  free : List Nat := []
  vacant : BitSet
  live : Nat := 0
  /-- A parked chunk stands in no chain and hands out nothing. -/
  parked : Bool := false
  /-- The copy of `nextOffset` that readers see. -/
  highWater : Nat := 0
  prev : Option Nat := none
  next : Option Nat := none
  deriving DecidableEq, Repr, Inhabited

structure Freed where
  item : Option ItemId
  stateItem : Option ItemId
  /-- No slot was vacant before. -/
  reopened : Bool
  /-- No slot is live any more. -/
  drained : Bool
  deriving DecidableEq, Repr

namespace Chunk

/-- An empty chunk that stands in no chain. -/
def create (index capacity : Nat) : Chunk :=
  { index, capacity, slots := .replicate capacity none, vacant := .ofLength capacity }

def isEmpty (c : Chunk) : Bool := c.live == 0

def item? (c : Chunk) (offset : Nat) : Option ItemId := c.slots[offset]?.getD none

def stateItem? (c : Chunk) (offset : Nat) : Option ItemId :=
  c.stateSlots.bind fun slots => slots[offset]?.getD none

def isOccupied (c : Chunk) (offset : Nat) : Bool := c.slots[offset]?.any (·.isSome)

def allocated (c : Chunk) : List Nat :=
  (List.range c.nextOffset).filter fun offset => !c.vacant.contains offset

def items (c : Chunk) : List ItemId := (List.range c.highWater).filterMap c.item?

def takeVacant (c : Chunk) (offset : Nat) (free : List Nat) : Chunk :=
  { c with free, vacant := c.vacant.erase offset, live := c.live + 1 }

def takeFresh (c : Chunk) : Chunk :=
  let nextOffset := c.nextOffset + 1
  { c with nextOffset, live := c.live + 1, highWater := nextOffset }

/-- Hands out the offset freed last, or else the one at the high-water mark. -/
def allocate (c : Chunk) : Option Nat × Chunk :=
  if c.parked then (none, c)
  else match c.free with
    | offset :: free => (some offset, c.takeVacant offset free)
    | [] => if c.nextOffset < c.capacity then (some c.nextOffset, c.takeFresh) else (none, c)

/-- Hands out the offset freed last, and tells whether other vacant ones are left. -/
def reuse (c : Chunk) : Option (Nat × Bool) × Chunk :=
  match c.free with
  | [] => (none, c)
  | offset :: free => (some (offset, !free.isEmpty), c.takeVacant offset free)

def vacate (c : Chunk) (offset : Nat) : Chunk :=
  { c with slots := c.slots.setIfInBounds offset none
           stateSlots := c.stateSlots.map (·.setIfInBounds offset none)
           free := offset :: c.free
           vacant := c.vacant.insert offset
           live := c.live - 1 }

/-- Frees an offset and answers with what was registered at it. -/
def release (c : Chunk) (offset : Nat) : Except SlotError Freed × Chunk :=
  if c.nextOffset ≤ offset then (.error .unallocated, c)
  else if c.vacant.contains offset then (.error .alreadyFree, c)
  else
    let item := c.item? offset
    let stateItem := c.stateItem? offset
    let reopened := c.free.isEmpty
    let c := c.vacate offset
    (.ok { item, stateItem, reopened, drained := c.live == 0 }, c)

def put (c : Chunk) (offset : Nat) (item : ItemId) : Chunk :=
  { c with slots := c.slots.setIfInBounds offset (some item) }

def putState (c : Chunk) (offset : Nat) (item : ItemId) : Chunk :=
  let slots := c.stateSlots.getD (.replicate c.capacity none)
  { c with stateSlots := some (slots.setIfInBounds offset (some item)) }

def reset (c : Chunk) : Chunk :=
  { c with nextOffset := 0, free := [], vacant := c.vacant.clear, parked := true, highWater := 0 }

/-- Resets a chunk, which then hands out nothing. Only a chunk without live slots can be parked, and
only once. -/
def park (c : Chunk) : Bool × Chunk :=
  if c.live ≠ 0 ∨ c.parked then (false, c) else (true, c.reset)

def unpark (c : Chunk) : Chunk := { c with parked := false }

def link (c : Chunk) (prev next : Option Nat) : Chunk := { c with prev, next }

def setPrev (c : Chunk) (prev : Option Nat) : Chunk := { c with prev }

def setNext (c : Chunk) (next : Option Nat) : Chunk := { c with next }

/-- Leaves the chain and answers with the neighbours in it. The link forward stays, so that who
stands here can still move on. -/
def unlink (c : Chunk) : (Option Nat × Option Nat) × Chunk :=
  ((c.prev, c.next), { c with prev := none })

def retire (c : Chunk) : Option (Option Nat × Option Nat) × Chunk :=
  match c.park with
  | (true, c) =>
    let (neighbours, c) := c.unlink
    (some neighbours, c)
  | (false, c) => (none, c)

end Chunk

/-- A pass over the items of one chunk, up to the high-water mark at its start. -/
structure ChunkPass where
  offset : Nat
  stop : Nat
  deriving DecidableEq, Repr

namespace ChunkPass

def start (c : Chunk) : ChunkPass := ⟨0, c.highWater⟩

def next (p : ChunkPass) (c : Chunk) : Option ItemId × ChunkPass :=
  if p.offset < p.stop then
    match c.item? p.offset with
    | some item => (some item, ⟨p.offset + 1, p.stop⟩)
    | none => next ⟨p.offset + 1, p.stop⟩ c
  else (none, p)
termination_by p.stop - p.offset

end ChunkPass
end EntityStore
