/-! Numbers in base sixteen, with small letters as digits. -/

namespace EntityStore.Hex

/-- The digits of a number, as few as it needs; zero has one. -/
def digits (n : Nat) : String := String.ofList (Nat.toDigits 16 n)

def fixed (width n : Nat) : String :=
  String.ofList (List.replicate (width - (Nat.toDigits 16 n).length) '0') ++ digits n

/-- A word as messages show it in passing. -/
def tagged (n : Nat) : String := "0x" ++ digits n

/-- A word with all of its eight digits. -/
def word (n : UInt32) : String := "0x" ++ fixed 8 n.toNat

end EntityStore.Hex
