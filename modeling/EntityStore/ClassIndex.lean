import EntityStore.BitSet
import EntityStore.Event
import EntityStore.Hash.Canonical
import EntityStore.KeyMap

/-! Class indices. A class index numbers keys from 1 on in the order in which they come; code 0
stands for no code. A key is looked up at its raw slot, which the top bits of its hash select.
When two keys with codes meet at a slot, the index turns to the exact map of all codes and stays
with it. -/

namespace EntityStore

/-- Codes by raw slot, and keys by code to tell whose code a slot holds. -/
structure RawTable (κ : Type) where
  size : Nat
  /-- The slots that hold a code; all others hold 0. -/
  slots : Std.TreeMap Nat UInt32 := {}
  keys : Array (Option κ) := #[]

namespace RawTable
variable {κ : Type}

/-- The code at a slot, of which 0 is none. -/
def code? (r : RawTable κ) (slot : Nat) : Option UInt32 :=
  if slot < r.size then some (r.slots.getD slot 0) else none

def key? (r : RawTable κ) (code : UInt32) : Option κ := r.keys[code.toNat]?.join

/-- Writes a code to a slot and its key to the list of keys, which grows as needed. -/
def record (r : RawTable κ) (slot : Nat) (code : UInt32) (key : κ) : RawTable κ :=
  let n := code.toNat
  let keys := r.keys ++ Array.replicate (n + 1 - r.keys.size) none
  { r with slots := r.slots.insert slot code, keys := keys.setIfInBounds n (some key) }

end RawTable

structure ClassIndex (κ : Type) where
  hashBits : Nat
  two_le : 2 ≤ hashBits
  le_twentyFour : hashBits ≤ 24
  raw : RawTable κ := { size := 1 <<< hashBits }
  codes : KeyMap κ UInt32 := {}
  /-- Whether look-ups go to `codes` alone. -/
  exact : Bool := false
  /-- The code given last, which is the number of codes given. -/
  counter : UInt32 := 0
  closed : Bool := false

namespace ClassIndex

def minHashBits : Nat := 2
def maxHashBits : Nat := 24
def defaultHashBits : Nat := 20

variable {κ : Type}

def standard : ClassIndex κ :=
  { hashBits := defaultHashBits, two_le := by decide, le_twentyFour := by decide }

instance : Inhabited (ClassIndex κ) := ⟨standard⟩

def create (hashBits : Nat) : Except ConfigError (ClassIndex κ × List Event) :=
  if h : minHashBits ≤ hashBits ∧ hashBits ≤ maxHashBits then
    .ok ({ hashBits, two_le := h.1, le_twentyFour := h.2 }, [.indexCreated (1 <<< hashBits)])
  else .error (.hashBitOutOfRange hashBits minHashBits maxHashBits)

variable [Hashable κ]

/-- The raw slot of a key: the top `hashBits` bits of its hash. -/
def slotOf (x : ClassIndex κ) (key : κ) : Nat := (hash key).toNat >>> (64 - x.hashBits)

theorem slotOf_lt (x : ClassIndex κ) (key : κ) : x.slotOf key < 1 <<< x.hashBits := by
  have hle : x.hashBits ≤ 64 := Nat.le_trans x.le_twentyFour (by decide)
  rw [slotOf, Nat.shiftRight_eq_div_pow, Nat.one_shiftLeft,
    Nat.div_lt_iff_lt_mul (Nat.two_pow_pos _), ← Nat.pow_add, Nat.add_sub_cancel' hle]
  exact (hash key).toNat_lt

variable [BEq κ]

def assign (x : ClassIndex κ) (key : κ) : ClassIndex κ :=
  { x with codes := x.codes.insert key (x.counter + 1), counter := x.counter + 1 }

def add (x : ClassIndex κ) (key : κ) : Outcome (ClassIndex κ) (Except IndexError UInt32) :=
  if x.closed then ⟨x, .error .closed, []⟩
  else match x.codes.get? key with
    | some code => ⟨x, .ok code, []⟩
    | none =>
      let code := x.counter + 1
      if x.exact then ⟨x.assign key, .ok code, []⟩
      else
        let slot := x.slotOf key
        if x.raw.code? slot = some 0 then
          ⟨{ x with raw := x.raw.record slot code key }.assign key, .ok code, []⟩
        else ⟨{ x with exact := true }.assign key, .ok code, [.slotCollision slot code]⟩

def exactGet (x : ClassIndex κ) (key : κ) : UInt32 := x.codes.getD key 0

/-- The code of a key, or 0. An empty raw slot settles it, and so does one that holds the key. -/
def get (x : ClassIndex κ) (key : κ) : UInt32 :=
  if x.exact then x.exactGet key
  else match x.raw.code? (x.slotOf key) with
    | none => 0
    | some code =>
      if code = 0 then 0
      else if (x.raw.key? code).any (· == key) then code
      else x.exactGet key

def getOrAdd (x : ClassIndex κ) (key : κ) : Outcome (ClassIndex κ) (Except IndexError UInt32) :=
  match x.get key with
  | 0 => x.add key
  | code => ⟨x, .ok code, []⟩

def getOrAddAll (x : ClassIndex κ) :
    List κ → Outcome (ClassIndex κ) (Except IndexError (List UInt32))
  | [] => ⟨x, .ok [], []⟩
  | key :: keys =>
    match x.getOrAdd key with
    | ⟨x, .error e, log⟩ => ⟨x, .error e, log⟩
    | ⟨x, .ok code, log⟩ => ((x.getOrAddAll keys).map (·.map (code :: ·))).after log

/-- Marks codes one after the other and stops at the first that is marked already. -/
def mark (seen : BitSet) : List UInt32 → Except IndexError BitSet
  | [] => .ok seen
  | code :: codes =>
    match seen.put code.toNat with
    | (true, _) => .error (.duplicateType code)
    | (false, seen) => mark seen codes

/-- The canonical hash of the codes of distinct keys, whatever their order. -/
def setHash (x : ClassIndex κ) (keys : List κ) :
    Outcome (ClassIndex κ) (Except IndexError UInt64) :=
  (x.getOrAddAll keys).map fun r => r.bind fun codes =>
    let greatest := codes.foldl max 0
    (mark (.ofLength (greatest.toNat + 1)) codes).map fun seen =>
      canonicalHash (seen.toList.map UInt32.ofNat)

def isEmpty (x : ClassIndex κ) : Bool := x.counter == 0

def useExactMap (x : ClassIndex κ) : ClassIndex κ := { x with exact := true }

/-- Forgets every code but not their number, and refuses new ones. Closing again does nothing. -/
def close (x : ClassIndex κ) : Outcome (ClassIndex κ) Unit :=
  if x.closed then ⟨x, (), []⟩
  else ⟨{ x with closed := true, raw := { size := 0 }, codes := {} }, (), [.indexClosed]⟩

def summary (x : ClassIndex κ) : String :=
  s!"ClassIndex \x7b hash_bits: {x.hashBits}, codes: {x.counter}, use_fallback: {x.exact}, " ++
    s!"closed: {x.closed} \x7d"

end ClassIndex
end EntityStore
