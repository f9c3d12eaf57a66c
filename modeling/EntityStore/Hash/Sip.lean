/-! SipHash with one round for each block and three rounds at the end, under the key zero. -/

namespace EntityStore.Sip

structure State where
  v0 : UInt64
  v1 : UInt64
  v2 : UInt64
  v3 : UInt64
  deriving DecidableEq, Repr

def State.initial : State :=
  ⟨0x736F6D6570736575, 0x646F72616E646F6D, 0x6C7967656E657261, 0x7465646279746573⟩

def rotate (w : UInt64) (n : UInt64) : UInt64 := w <<< n ||| w >>> (64 - n)

def State.round (s : State) : State :=
  let a := s.v0 + s.v1
  let b := rotate s.v1 13 ^^^ a
  let c := s.v2 + s.v3
  let d := rotate s.v3 16 ^^^ c
  let e := rotate a 32 + d
  let f := c + b
  ⟨e, rotate b 17 ^^^ f, rotate f 32, rotate d 21 ^^^ e⟩

def State.block (s : State) (m : UInt64) : State :=
  let s := { s with v3 := s.v3 ^^^ m }.round
  { s with v0 := s.v0 ^^^ m }

def State.finish (s : State) : UInt64 :=
  let s := { s with v2 := s.v2 ^^^ 0xFF }.round.round.round
  s.v0 ^^^ s.v1 ^^^ s.v2 ^^^ s.v3

/-- The word of some bytes, the lowest first. -/
def word : List UInt8 → UInt64
  | [] => 0
  | b :: bs => word bs <<< 8 ||| b.toUInt64

/-- Takes in whole blocks of eight bytes, and at the end one block of the bytes left over with the
length of the message, modulo 256, in its highest byte. -/
def absorb (length : Nat) (s : State) : List UInt8 → State
  | b0 :: b1 :: b2 :: b3 :: b4 :: b5 :: b6 :: b7 :: rest =>
    absorb length (s.block (word [b0, b1, b2, b3, b4, b5, b6, b7])) rest
  | rest => s.block (word rest ||| UInt64.ofNat (length % 256) <<< 56)

def hash (bytes : List UInt8) : UInt64 := (absorb bytes.length .initial bytes).finish

/-- The lowest `count` bytes of a number, the lowest first. -/
def lowBytes : (count : Nat) → (n : Nat) → List UInt8
  | 0, _ => []
  | count + 1, n => .ofNat (n % 256) :: lowBytes count (n / 256)

end EntityStore.Sip
