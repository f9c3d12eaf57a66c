import EntityStore.Hash.Canonical

/-! The canonical hash of a set of codes. The codes of a set have one ascending list, however they
are found, and its hash is the value of a polynomial in 31 modulo `2 ^ 64`. -/

namespace EntityStore
variable {codes codes' sorted : List UInt32}

theorem sortCodes_perm (codes : List UInt32) : (sortCodes codes).Perm codes := sortBy_perm _ codes

theorem pairwise_sortCodes (codes : List UInt32) : (sortCodes codes).Pairwise (· ≤ ·) := by
  have h : (sortCodes codes).Pairwise fun a b => decide (a ≤ b) = true := by
    refine pairwise_sortBy (fun a b => ?_) (fun a b c hab hbc => ?_) codes
    · simpa using UInt32.le_total a b
    · simp only [decide_eq_true_eq] at hab hbc ⊢
      exact UInt32.le_trans hab hbc
  exact h.imp of_decide_eq_true

theorem eq_sortCodes (hp : sorted.Perm codes) (hs : sorted.Pairwise (· ≤ ·)) :
    sorted = sortCodes codes :=
  (hp.trans (sortCodes_perm codes).symm).eq_of_pairwise (fun _ _ _ _ => UInt32.le_antisymm) hs
    (pairwise_sortCodes codes)

theorem sortCodes_congr (h : codes.Perm codes') : sortCodes codes = sortCodes codes' :=
  eq_sortCodes ((sortCodes_perm codes).trans h) (pairwise_sortCodes codes)

theorem pairwise_lt_sortCodes (h : codes.Nodup) : (sortCodes codes).Pairwise (· < ·) := by
  have hne : (sortCodes codes).Pairwise (· ≠ ·) := (sortCodes_perm codes).nodup_iff.2 h
  refine (pairwise_sortCodes codes).imp₂ (fun a b hle hne => ?_) hne
  exact UInt32.lt_of_le_of_ne hle hne

/-- The hash is the fold of the codes as naturals, reduced once in the end. -/
theorem toNat_canonicalHash (codes : List UInt32) : (canonicalHash codes).toNat =
    codes.foldl (fun h code => h * 31 + code.toNat) 0 % UInt64.size := by
  -- Both folds run on together from equal remainders.
  have hfold (a : UInt64) (n : Nat) (h : a.toNat = n % UInt64.size) :
      (codes.foldl (fun h code => h * 31 + code.toUInt64) a).toNat =
        codes.foldl (fun h code => h * 31 + code.toNat) n % UInt64.size := by
    induction codes generalizing a n with
    | nil => exact h
    | cons code codes ih =>
      apply ih
      rw [UInt64.toNat_add, UInt64.toNat_mul, h, UInt32.toNat_toUInt64]
      show (n % UInt64.size * 31 % UInt64.size + code.toNat) % UInt64.size = _
      rw [Nat.mod_add_mod, Nat.add_mod, Nat.mod_mul_mod, ← Nat.add_mod]
  exact hfold 0 0 rfl

end EntityStore
