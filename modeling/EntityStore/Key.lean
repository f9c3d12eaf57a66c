import EntityStore.Hash.Sip

/-! Keys of a class index, with the bytes that their hash is taken of. -/

namespace EntityStore

inductive Key where
  | word32 (n : UInt32)
  | word64 (n : UInt64)
  | text (s : String)
  /-- Keys of one bucket have one hash, whatever their value. -/
  | bucket (h : UInt64) (value : Int)
  | component (number : Nat)
  deriving DecidableEq, Repr

/-- Numbers are written from their lowest byte on, and a text ends in a byte that no text
contains. -/
def Key.bytes : Key → List UInt8
  | word32 n => Sip.lowBytes 4 n.toNat
  | word64 n => Sip.lowBytes 8 n.toNat
  | text s => s.toUTF8.toList ++ [0xFF]
  | bucket h _ => Sip.lowBytes 8 h.toNat
  | component n => Sip.lowBytes 8 n

instance : Hashable Key := ⟨fun k => Sip.hash k.bytes⟩

end EntityStore
