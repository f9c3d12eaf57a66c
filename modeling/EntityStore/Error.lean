import EntityStore.Text.Hex

/-! What can go wrong, as causes; the wording of each stands in `message`. -/

namespace EntityStore

inductive ConfigError where
  | chunkBitOutOfRange (bits least greatest : Nat)
  | hashBitOutOfRange (bits least greatest : Nat)
  | invalidValue (key value : String)
  deriving DecidableEq, Repr

inductive PoolError where
  | closed
  /-- Every chunk that an identifier can name is in use. -/
  | exhausted (maxChunks : Nat)
  /-- The identifier names no allocated slot. -/
  | invalidId (id : UInt32)
  | alreadyFree (id : UInt32)
  deriving DecidableEq, Repr

inductive IndexError where
  /-- A set of keys names the key of this code twice. -/
  | duplicateType (code : UInt32)
  | closed
  deriving DecidableEq, Repr

inductive Error where
  | config (cause : ConfigError)
  | pool (cause : PoolError)
  | index (cause : IndexError)
  deriving DecidableEq, Repr

/-- Why a chunk cannot free an offset. -/
inductive SlotError where
  /-- The offset was not handed out since the chunk was last empty. -/
  | unallocated
  | alreadyFree
  deriving DecidableEq, Repr

def ConfigError.message : ConfigError → String
  | chunkBitOutOfRange b l g => s!"chunk bit width {b} is out of range, expected {l}..={g}"
  | hashBitOutOfRange b l g =>
    s!"class index hash bit width {b} is out of range, expected {l}..={g}"
  | invalidValue key value => "invalid value '" ++ value ++ "' for '" ++ key ++ "'"

def PoolError.message : PoolError → String
  | closed => "tenant is closed"
  | exhausted n => s!"chunk index space exhausted ({n} chunks)"
  | invalidId id => "invalid identifier " ++ Hex.word id
  | alreadyFree id => "identifier " ++ Hex.word id ++ " is already free"

def IndexError.message : IndexError → String
  | duplicateType code => s!"duplicate object types are not allowed (code {code})"
  | closed => "class index is closed"

def Error.message : Error → String
  | config cause => cause.message
  | pool cause => cause.message
  | index cause => cause.message

def SlotError.name : SlotError → String
  | unallocated => "Unallocated"
  | alreadyFree => "AlreadyFree"

end EntityStore
