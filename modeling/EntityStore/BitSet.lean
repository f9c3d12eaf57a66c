/-! Sets of numbers below a length that is fixed when the set is made, one bit a number. -/

namespace EntityStore

structure BitSet where
  bits : Array Bool := #[]
  deriving DecidableEq, Repr, Inhabited

namespace BitSet

def ofLength (length : Nat) : BitSet := ⟨.replicate length false⟩

def length (s : BitSet) : Nat := s.bits.size

/-- Whether a number is in the set; one that is not below the length never is. -/
def contains (s : BitSet) (n : Nat) : Bool := s.bits[n]?.getD false

def insert (s : BitSet) (n : Nat) : BitSet := ⟨s.bits.setIfInBounds n true⟩

def erase (s : BitSet) (n : Nat) : BitSet := ⟨s.bits.setIfInBounds n false⟩

def clear (s : BitSet) : BitSet := .ofLength s.length

/-- Puts a number in and tells whether it was there. -/
def put (s : BitSet) (n : Nat) : Bool × BitSet := (s.contains n, s.insert n)

def toList (s : BitSet) : List Nat := (List.range s.length).filter s.contains

@[simp] theorem length_ofLength (n : Nat) : (ofLength n).length = n := by simp [length, ofLength]

@[simp] theorem length_insert (s : BitSet) (n : Nat) : (s.insert n).length = s.length := by
  simp [length, insert]

@[simp] theorem length_erase (s : BitSet) (n : Nat) : (s.erase n).length = s.length := by
  simp [length, erase]

@[simp] theorem length_clear (s : BitSet) : s.clear.length = s.length := length_ofLength _

@[simp] theorem contains_ofLength (length n : Nat) : (ofLength length).contains n = false := by
  simp only [contains, ofLength, Array.getElem?_replicate]
  split <;> rfl

@[simp] theorem contains_clear (s : BitSet) (n : Nat) : s.clear.contains n = false :=
  contains_ofLength _ _

theorem lt_of_contains {s : BitSet} {n : Nat} (h : s.contains n = true) : n < s.length := by
  refine Nat.lt_of_not_le fun hn => ?_
  simp [contains, Array.getElem?_eq_none hn] at h

theorem contains_insert {s : BitSet} {n : Nat} (hn : n < s.length) (k : Nat) :
    (s.insert n).contains k = (k == n || s.contains k) := by
  simp only [contains, insert, Array.getElem?_setIfInBounds]
  by_cases h : n = k
  · subst h
    simp [show n < s.bits.size from hn]
  · simp [h, Ne.symm h]

theorem contains_erase (s : BitSet) (n k : Nat) :
    (s.erase n).contains k = (k != n && s.contains k) := by
  simp only [contains, erase, Array.getElem?_setIfInBounds]
  by_cases h : n = k
  · subst h
    by_cases hn : n < s.bits.size <;> simp [hn]
  · simp [h, Ne.symm h]

/-- Taking out again what was put in and was not there before leaves the set as it was. -/
theorem erase_insert {s : BitSet} {n : Nat} (h : s.contains n = false) :
    (s.insert n).erase n = s := by
  have hbits : s.bits.setIfInBounds n false = s.bits := by
    refine Array.ext_getElem? fun k => ?_
    rw [Array.getElem?_setIfInBounds]
    by_cases hk : n = k
    · subst hk
      by_cases hn : n < s.bits.size
      · simpa [contains, hn] using h.symm
      · simp [hn]
    · simp [hk]
  rw [insert, erase, Array.setIfInBounds_setIfInBounds, hbits]

theorem mem_toList {s : BitSet} {n : Nat} : n ∈ s.toList ↔ s.contains n = true := by
  simp only [toList, List.mem_filter, List.mem_range, and_iff_right_iff_imp]
  exact lt_of_contains

theorem pairwise_toList (s : BitSet) : s.toList.Pairwise (· < ·) :=
  List.pairwise_lt_range.filter _

end BitSet
end EntityStore
