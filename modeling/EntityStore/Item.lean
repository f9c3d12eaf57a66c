import EntityStore.Identifier

/-! Pooled items. An item is known by its number and carries a header that tells where it is
registered, once as an item and once as the state of another. -/

namespace EntityStore

/-- The chunk that holds an item: a tenant's id and a chunk index. -/
structure ChunkRef where
  tenant : UInt32
  chunk : UInt32
  deriving DecidableEq, Repr

namespace ChunkRef

def nowhere : UInt64 := 0xFFFFFFFFFFFFFFFF

/-- A reference in one word, the tenant in the high half. -/
def pack : Option ChunkRef → UInt64
  | some r => .ofNat (r.tenant.toNat * UInt32.size + r.chunk.toNat)
  | none => nowhere

/-- Reads a packed reference. The reference whose bits are all set cannot be told from none. -/
def unpack (w : UInt64) : Option ChunkRef :=
  if w = nowhere then none
  else some ⟨.ofNat (w.toNat / UInt32.size), .ofNat (w.toNat % UInt32.size)⟩

end ChunkRef

structure Header where
  id : UInt32 := IdSchema.detach 0
  stateId : UInt32 := IdSchema.detach 0
  packedChunk : UInt64 := ChunkRef.nowhere
  packedStateChunk : UInt64 := ChunkRef.nowhere
  deriving DecidableEq, Repr, Inhabited

namespace Header

def chunk (h : Header) : Option ChunkRef := ChunkRef.unpack h.packedChunk

def stateChunk (h : Header) : Option ChunkRef := ChunkRef.unpack h.packedStateChunk

def setChunk (h : Header) (r : Option ChunkRef) : Header :=
  { h with packedChunk := ChunkRef.pack r }

def setStateChunk (h : Header) (r : Option ChunkRef) : Header :=
  { h with packedStateChunk := ChunkRef.pack r }

/-- Records the slot and the chunk that an item is registered at. -/
def place (h : Header) (id : UInt32) (r : Option ChunkRef) : Header :=
  { h with id }.setChunk r

/-- Records the slot and the chunk whose state an item is. -/
def placeState (h : Header) (id : UInt32) (r : Option ChunkRef) : Header :=
  { h with stateId := id }.setStateChunk r

end Header

abbrev ItemId := Nat

structure Items where
  headers : Array Header := #[]

namespace Items

/-- A new item, registered nowhere, and its number. -/
def create (items : Items) : ItemId × Items := (items.headers.size, ⟨items.headers.push {}⟩)

def header (items : Items) (i : ItemId) : Header := items.headers.getD i {}

def modify (items : Items) (i : ItemId) (f : Header → Header) : Items :=
  ⟨items.headers.modify i f⟩

def modify? (items : Items) (i : Option ItemId) (f : Header → Header) : Items :=
  match i with
  | some i => items.modify i f
  | none => items

end Items
end EntityStore
