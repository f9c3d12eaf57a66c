import EntityStore.Chunk
import EntityStore.Event
import EntityStore.Fifo

/-! Tenants. A tenant owns the chunks of one kind of entity; the chunks in use form a chain from
chunk 0 to the tail, and drained ones wait on the stack `parked` to be linked again. -/

namespace EntityStore

structure Tenant where
  id : UInt32
  schema : IdSchema
  chunks : Array Chunk
  /-- The number of chunks created so far, which closing does not reset. -/
  chunkCount : Nat := chunks.size
  tail : Nat := 0
  /-- The parked chunks, the one parked last in front. -/
  parked : List Nat := []
  /-- The copy of `tail` from which fresh slots are taken. -/
  current : Nat := 0
  /-- Chunks whose first slot became vacant, in that order. An entry may have become stale. -/
  reusable : Fifo Nat := {}
  /-- Slots taken through the tenant less slots freed, modulo `2 ^ 64`. -/
  live : UInt64 := 0
  closed : Bool := false

instance : Inhabited Tenant := ⟨{ id := 0, schema := .standard, chunks := #[] }⟩

namespace Tenant

def create (id : UInt32) (schema : IdSchema) : Tenant :=
  { id, schema, chunks := #[.create 0 schema.capacity] }

/-- A chunk as it shows itself to who holds it, which closing the tenant does not end. -/
def heldChunk? (t : Tenant) (i : Nat) : Option Chunk := t.chunks[i]?

/-- A chunk by index. A closed tenant has released its chunks, and none is found. -/
def chunk? (t : Tenant) (i : Nat) : Option Chunk := if t.closed then none else t.heldChunk? i

def isEmpty (t : Tenant) : Bool := t.live == 0

/-- A chunk, and the tenant with its place empty. While a chunk is out of its place it is nobody
else's, and can be changed without being copied. -/
@[noinline]
def takeChunk (t : Tenant) (i : Nat) (h : i < t.chunks.size) : Chunk × Tenant :=
  let (c, chunks) := t.chunks.swapAt i default h
  (c, { t with chunks })

def onHeldChunk {ρ : Type} (t : Tenant) (i : Nat) (f : Chunk → ρ × Chunk) : Option ρ × Tenant :=
  if h : i < t.chunks.size then
    let (c, t) := t.takeChunk i h
    let (r, c) := f c
    (some r, { t with chunks := t.chunks.setIfInBounds i c })
  else (none, t)

def onChunk {ρ : Type} (t : Tenant) (i : Nat) (f : Chunk → ρ × Chunk) : Option ρ × Tenant :=
  if t.closed then (none, t) else t.onHeldChunk i f

def modifyHeldChunk (t : Tenant) (i : Nat) (f : Chunk → Chunk) : Tenant :=
  (t.onHeldChunk i fun c => ((), f c)).2

def modifyChunk (t : Tenant) (i : Nat) (f : Chunk → Chunk) : Tenant :=
  (t.onChunk i fun c => ((), f c)).2

/-- The chunk index and the offset of an identifier without the detached tag. -/
def address? (t : Tenant) (id : UInt32) : Option (Nat × Nat) :=
  if IdSchema.isDetached id then none else some (t.schema.decode id)

def get? (t : Tenant) (id : UInt32) : Option ItemId :=
  (t.address? id).bind fun (i, offset) => (t.chunk? i).bind (·.item? offset)

def stateItem? (t : Tenant) (id : UInt32) : Option ItemId :=
  (t.address? id).bind fun (i, offset) => (t.chunk? i).bind (·.stateItem? offset)

def contains (t : Tenant) (id : UInt32) : Bool :=
  (t.address? id).any fun (i, offset) => (t.chunk? i).any (·.isOccupied offset)

/-- Releases the chunks and refuses all further work. Closing again does nothing. -/
def close (t : Tenant) : Outcome Tenant Unit :=
  if t.closed then ⟨t, (), []⟩
  else
    ⟨{ t with closed := true, parked := [], reusable := {}, live := 0 }, (), [.tenantClosed t.id]⟩

end Tenant
end EntityStore
