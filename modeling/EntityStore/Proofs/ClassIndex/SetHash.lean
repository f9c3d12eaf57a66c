import EntityStore.Proofs.CanonicalHash
import EntityStore.Proofs.ClassIndex.Invariant

/-! Hashing a set of keys. The codes are marked in a set of bits as long as they need, which lists
them in ascending order and finds the first one that is named twice. -/

namespace EntityStore

theorem toNat_max (a b : UInt32) : (max a b).toNat = max a.toNat b.toNat := by
  show (if a ≤ b then b else a).toNat = _
  split
  · rename_i h
    exact (Nat.max_eq_right (UInt32.le_iff_toNat_le.1 h)).symm
  · rename_i h
    refine (Nat.max_eq_left (Nat.le_of_lt (Nat.lt_of_not_le fun hle => ?_))).symm
    exact h (UInt32.le_iff_toNat_le.2 hle)

theorem toNat_le_foldl_max (codes : List UInt32) (a : UInt32) :
    a.toNat ≤ (codes.foldl max a).toNat ∧
      ∀ code ∈ codes, code.toNat ≤ (codes.foldl max a).toNat := by
  induction codes generalizing a with
  | nil => exact ⟨Nat.le_refl _, by simp⟩
  | cons code codes ih =>
    obtain ⟨hle, hrest⟩ := ih (max a code)
    rw [toNat_max] at hle
    refine ⟨Nat.le_trans (Nat.le_max_left ..) hle, fun c hc => ?_⟩
    rcases List.mem_cons.1 hc with rfl | hc
    · exact Nat.le_trans (Nat.le_max_right ..) hle
    · exact hrest c hc

namespace Numbering

theorem firstRepeated?_eq_none_iff (seen codes : List UInt32) :
    firstRepeated? seen codes = none ↔ codes.Nodup ∧ ∀ code ∈ codes, code ∉ seen := by
  induction codes generalizing seen with
  | nil => simp [firstRepeated?]
  | cons code codes ih =>
    unfold firstRepeated?
    split
    · rename_i hmem
      simp only [reduceCtorEq, false_iff, not_and]
      intro _ h
      exact h code (List.mem_cons_self ..) hmem
    · rename_i hmem
      rw [ih, List.nodup_cons]
      constructor
      · rintro ⟨hnodup, hseen⟩
        refine ⟨⟨fun hc => hseen code hc (List.mem_cons_self ..), hnodup⟩, fun c hc => ?_⟩
        rcases List.mem_cons.1 hc with rfl | hc
        · exact hmem
        · exact fun h => hseen c hc (List.mem_cons_of_mem _ h)
      · rintro ⟨⟨hnot, hnodup⟩, hseen⟩
        refine ⟨hnodup, fun c hc h => ?_⟩
        rcases List.mem_cons.1 h with rfl | h
        · exact hnot hc
        · exact hseen c (List.mem_cons_of_mem _ hc) h

end Numbering

namespace ClassIndex
open EntityStore.Numbering

theorem mark_eq {seen : BitSet} (before : List UInt32) {codes : List UInt32}
    (hseen : ∀ code : UInt32, seen.contains code.toNat = true ↔ code ∈ before)
    (hlt : ∀ code ∈ codes, code.toNat < seen.length) :
    (∀ code, firstRepeated? before codes = some code →
      mark seen codes = .error (.duplicateType code)) ∧
    (firstRepeated? before codes = none → ∃ all, mark seen codes = .ok all ∧
      all.length = seen.length ∧
      ∀ code : UInt32, all.contains code.toNat = true ↔ code ∈ before ∨ code ∈ codes) := by
  -- `before` are the codes that are marked so far.
  induction codes generalizing seen before with
  | nil => exact ⟨by simp [firstRepeated?], fun _ => ⟨seen, rfl, rfl, by simpa using hseen⟩⟩
  | cons code codes ih =>
    have hcode := hlt code (List.mem_cons_self ..)
    unfold firstRepeated? mark BitSet.put
    by_cases hmem : code ∈ before
    · rw [if_pos hmem, (hseen code).2 hmem]
      refine ⟨fun c hc => ?_, fun h => ?_⟩
      · cases hc
        rfl
      · cases h
    · rw [if_neg hmem, Bool.eq_false_iff.2 fun h => hmem ((hseen code).1 h)]
      have hinsert (c : UInt32) :
          (seen.insert code.toNat).contains c.toNat = true ↔ c ∈ code :: before := by
        rw [BitSet.contains_insert hcode, Bool.or_eq_true, beq_iff_eq, UInt32.toNat_inj, hseen,
          List.mem_cons]
      have hrest := ih (code :: before) hinsert fun c hc => by
        rw [BitSet.length_insert]
        exact hlt c (List.mem_cons_of_mem _ hc)
      refine ⟨hrest.1, fun h => ?_⟩
      obtain ⟨all, hall, hlen, hcontains⟩ := hrest.2 h
      refine ⟨all, hall, hlen.trans (BitSet.length_insert ..), fun c => ?_⟩
      rw [hcontains, List.mem_cons, List.mem_cons, or_assoc, or_left_comm]

theorem toList_eq_sortCodes {all : BitSet} {codes : List UInt32} (hlen : all.length ≤ UInt32.size)
    (hnodup : codes.Nodup)
    (hcontains : ∀ code : UInt32, all.contains code.toNat = true ↔ code ∈ codes) :
    all.toList.map .ofNat = sortCodes codes := by
  have hword {n : Nat} (hn : n ∈ all.toList) : (UInt32.ofNat n).toNat = n :=
    UInt32.toNat_ofNat_of_lt'
      (Nat.lt_of_lt_of_le (BitSet.lt_of_contains (BitSet.mem_toList.1 hn)) hlen)
  have hsorted : (all.toList.map UInt32.ofNat).Pairwise (· < ·) := by
    rw [List.pairwise_map]
    refine (List.pairwise_iff_forall_sublist ..).2 fun {a b} hab => ?_
    have ha : (UInt32.ofNat a).toNat = a := hword (hab.subset (by simp))
    have hb : (UInt32.ofNat b).toNat = b := hword (hab.subset (by simp))
    rw [UInt32.lt_iff_toNat_lt, ha, hb]
    exact (List.pairwise_iff_forall_sublist ..).1 all.pairwise_toList hab
  refine eq_sortCodes ?_ (hsorted.imp UInt32.le_of_lt)
  refine (List.perm_ext_iff_of_nodup (hsorted.imp UInt32.ne_of_lt) hnodup).2 fun code => ?_
  rw [← hcontains, List.mem_map]
  constructor
  · rintro ⟨n, hn, rfl⟩
    rw [hword hn]
    exact BitSet.mem_toList.1 hn
  · intro h
    exact ⟨code.toNat, BitSet.mem_toList.2 h, by simp⟩

theorem hash_codes (codes : List UInt32) :
    ((mark (.ofLength ((codes.foldl max 0).toNat + 1)) codes).map fun seen =>
      canonicalHash (seen.toList.map .ofNat)) =
    match firstRepeated? [] codes with
    | some code => .error (.duplicateType code)
    | none => .ok (canonicalHash (sortCodes codes)) := by
  have hlt : ∀ code ∈ codes,
      code.toNat < (BitSet.ofLength ((codes.foldl max 0).toNat + 1)).length := fun code hc => by
    rw [BitSet.length_ofLength]
    exact Nat.lt_succ_of_le ((toNat_le_foldl_max codes 0).2 code hc)
  obtain ⟨hsome, hnone⟩ := mark_eq [] (by simp) hlt
  cases hr : firstRepeated? [] codes with
  | some code =>
    rw [hsome code hr]
    rfl
  | none =>
    obtain ⟨all, hall, hlen, hcontains⟩ := hnone hr
    rw [hall]
    refine congrArg (fun l => Except.ok (canonicalHash l)) (toList_eq_sortCodes ?_ ?_ ?_)
    · rw [hlen, BitSet.length_ofLength]
      exact (codes.foldl max 0).toNat_lt
    · exact ((firstRepeated?_eq_none_iff ..).1 hr).1
    · simpa using hcontains

end ClassIndex
end EntityStore
