import EntityStore.Error

/-! The layout of identifiers. Of the thirty-two bits the top one is the detached tag; below it
stand the chunk index and, in the lowest `chunkBit` bits, the offset of the slot in its chunk. -/

namespace EntityStore

/-- Whether the library is built with its assertions. -/
inductive Build where
  | debug
  | release
  deriving DecidableEq, Repr

/-- How the bits below the tag are split. -/
structure IdSchema where
  chunkBit : Nat
  two_le : 2 ≤ chunkBit
  le_sixteen : chunkBit ≤ 16
  deriving DecidableEq, Repr

namespace IdSchema

def minChunkBit : Nat := 2
def maxChunkBit : Nat := 16

/-- Bits shared by the chunk index and the offset. -/
def addressBits : Nat := 31

def detachedBit : Nat := 1 <<< addressBits

def standard : IdSchema := ⟨14, by decide, by decide⟩

instance : Inhabited IdSchema := ⟨standard⟩

def ofChunkBit (bits : Nat) : Except ConfigError IdSchema :=
  if h : minChunkBit ≤ bits ∧ bits ≤ maxChunkBit then .ok ⟨bits, h.1, h.2⟩
  else .error (.chunkBitOutOfRange bits minChunkBit maxChunkBit)

def capacity (s : IdSchema) : Nat := 1 <<< s.chunkBit

/-- Chunks that one tenant can address. -/
def maxChunks (s : IdSchema) : Nat := 1 <<< (addressBits - s.chunkBit)

/-- The identifier of a chunk index and an offset, each reduced to its field. -/
def encode (s : IdSchema) (chunk offset : Nat) : UInt32 :=
  .ofNat (chunk % s.maxChunks * s.capacity + offset % s.capacity)

/-- What the assertions ask of a chunk index and an offset before they are encoded. -/
def Fits (s : IdSchema) (chunk offset : Nat) : Prop := chunk < s.maxChunks ∧ offset < s.capacity

instance (s : IdSchema) (chunk offset : Nat) : Decidable (s.Fits chunk offset) :=
  inferInstanceAs (Decidable (_ ∧ _))

/-- Encoding in a build: one with assertions stops where they fail, and one without goes on. -/
def encodeIn (s : IdSchema) : Build → Nat → Nat → Option UInt32
  | .debug, chunk, offset => if s.Fits chunk offset then some (s.encode chunk offset) else none
  | .release, chunk, offset => some (s.encode chunk offset)

def address (id : UInt32) : Nat := id.toNat % detachedBit

/-- The chunk index and the offset of an identifier, whatever its tag. -/
def decode (s : IdSchema) (id : UInt32) : Nat × Nat :=
  (address id / s.capacity, address id % s.capacity)

def detach (id : UInt32) : UInt32 := .ofNat (detachedBit + address id)

def isDetached (id : UInt32) : Bool := detachedBit ≤ id.toNat

def summary (s : IdSchema) : String :=
  s!"IdSchema(detached: 1 bit, chunk index: {addressBits - s.chunkBit} bits, " ++
  s!"object offset: {s.chunkBit} bits)"

theorem capacity_pos (s : IdSchema) : 0 < s.capacity := by
  rw [capacity, Nat.one_shiftLeft]
  exact Nat.two_pow_pos _

theorem maxChunks_pos (s : IdSchema) : 0 < s.maxChunks := by
  rw [maxChunks, Nat.one_shiftLeft]
  exact Nat.two_pow_pos _

theorem maxChunks_mul_capacity (s : IdSchema) : s.maxChunks * s.capacity = detachedBit := by
  have hle : s.chunkBit ≤ addressBits := Nat.le_trans s.le_sixteen (by decide)
  rw [maxChunks, capacity, detachedBit, Nat.one_shiftLeft, Nat.one_shiftLeft, Nat.one_shiftLeft,
    ← Nat.pow_add, Nat.sub_add_cancel hle]

theorem address_lt (id : UInt32) : address id < detachedBit := Nat.mod_lt _ (by decide)

end IdSchema
end EntityStore
