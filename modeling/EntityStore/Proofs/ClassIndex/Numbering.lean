import EntityStore.ClassIndex
import Mathlib.Data.List.Basic
import Mathlib.Tactic.Common

/-! First-seen numbering, which is what a class index is for: keys are numbered from 1 on in the
order in which they come first. There are no slots and no hashes here. -/

namespace EntityStore

/-- The distinct keys that were ever added, in the order in which they came first. -/
structure Numbering (κ : Type) where
  keys : List κ := []
  closed : Bool := false

namespace Numbering
variable {κ : Type} [BEq κ]

/-- The number of a key. Closing forgets the numbers but not how many there are. -/
def code? (r : Numbering κ) (key : κ) : Option UInt32 :=
  if r.closed then none else (r.keys.findIdx? (· == key)).map fun i => .ofNat (i + 1)

def get (r : Numbering κ) (key : κ) : UInt32 := (r.code? key).getD 0

def push (r : Numbering κ) (key : κ) : Numbering κ := { r with keys := r.keys ++ [key] }

def add (r : Numbering κ) (key : κ) : Except IndexError UInt32 × Numbering κ :=
  if r.closed then (.error .closed, r)
  else match r.code? key with
    | some code => (.ok code, r)
    | none => (.ok (.ofNat (r.keys.length + 1)), r.push key)

def getOrAdd (r : Numbering κ) (key : κ) : Except IndexError UInt32 × Numbering κ :=
  match r.code? key with
  | some code => (.ok code, r)
  | none => r.add key

def getOrAddAll (r : Numbering κ) : List κ → Except IndexError (List UInt32) × Numbering κ
  | [] => (.ok [], r)
  | key :: keys =>
    match r.getOrAdd key with
    | (.error e, r) => (.error e, r)
    | (.ok code, r) =>
      let (codes, r) := r.getOrAddAll keys
      (codes.map (code :: ·), r)

/-- The first code that stands in a list for the second time. -/
def firstRepeated? (seen : List UInt32) : List UInt32 → Option UInt32
  | [] => none
  | code :: codes => if code ∈ seen then some code else firstRepeated? (code :: seen) codes

def setHash (r : Numbering κ) (keys : List κ) : Except IndexError UInt64 × Numbering κ :=
  let (codes, r) := r.getOrAddAll keys
  (codes.bind fun codes =>
    match firstRepeated? [] codes with
    | some code => .error (.duplicateType code)
    | none => .ok (canonicalHash (sortCodes codes)), r)

def close (r : Numbering κ) : Numbering κ := { r with closed := true }

variable {r : Numbering κ}

theorem keys_prefix_add (r : Numbering κ) (key : κ) : r.keys <+: (r.add key).2.keys := by
  unfold add
  split
  · exact List.prefix_rfl
  · split
    · exact List.prefix_rfl
    · exact List.prefix_append _ _

theorem keys_prefix_getOrAdd (r : Numbering κ) (key : κ) : r.keys <+: (r.getOrAdd key).2.keys := by
  unfold getOrAdd
  split
  · exact List.prefix_rfl
  · exact r.keys_prefix_add key

theorem keys_prefix_getOrAddAll (r : Numbering κ) (keys : List κ) :
    r.keys <+: (r.getOrAddAll keys).2.keys := by
  induction keys generalizing r with
  | nil => exact List.prefix_rfl
  | cons key keys ih =>
    have hp := r.keys_prefix_getOrAdd key
    unfold getOrAddAll
    split
    · rename_i e s hs
      rw [hs] at hp
      exact hp
    · rename_i code s hs
      rw [hs] at hp
      exact hp.trans (ih s)

theorem code?_congr [EquivBEq κ] (r : Numbering κ) {k l : κ} (h : (k == l) = true) :
    r.code? k = r.code? l := by
  have heq : (fun a : κ => a == k) = fun a => a == l := funext fun a => BEq.congr_right h
  unfold code?
  rw [heq]

theorem code?_eq_none_iff (ho : r.closed = false) {key : κ} :
    r.code? key = none ↔ ∀ k ∈ r.keys, (k == key) = false := by
  rw [code?, if_neg (by simp [ho]), Option.map_eq_none_iff, List.findIdx?_eq_none_iff]

theorem code?_push [EquivBEq κ] {key : κ} (ho : r.closed = false) (h : r.code? key = none) (k : κ) :
    (r.push key).code? k =
      if k == key then some (.ofNat (r.keys.length + 1)) else r.code? k := by
  by_cases hk : (k == key) = true
  · rw [code?_congr _ hk, if_pos hk]
    unfold code? push at *
    simp only [ho] at h
    have hnone : r.keys.findIdx? (· == key) = none := by simpa using h
    simp [ho, List.findIdx?_append, hnone]
  · have hk' : (key == k) = false := by
      rw [← Bool.not_eq_true, BEq.comm]
      exact hk
    unfold code? push
    simp [ho, List.findIdx?_append, hk, hk']

theorem code?_push_of_some [EquivBEq κ] {key k : κ} {code : UInt32} (ho : r.closed = false)
    (h : r.code? key = none) (hk : r.code? k = some code) : (r.push key).code? k = some code := by
  rw [code?_push ho h, if_neg, hk]
  intro heq
  rw [code?_congr r heq, h] at hk
  cases hk

theorem code?_ne_zero (h : r.keys.length < UInt32.size) {key : κ} {code : UInt32}
    (hc : r.code? key = some code) : code ≠ 0 := by
  unfold code? at hc
  split at hc
  · cases hc
  · obtain ⟨i, hi, rfl⟩ := Option.map_eq_some_iff.1 hc
    obtain ⟨hlt, -⟩ := List.findIdx?_eq_some_iff_getElem.1 hi
    intro h0
    have hn := congrArg UInt32.toNat h0
    rw [UInt32.toNat_ofNat_of_lt' (by show i + 1 < UInt32.size; omega)] at hn
    cases hn

end Numbering
end EntityStore
