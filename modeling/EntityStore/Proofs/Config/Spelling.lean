import EntityStore.Text.Lowercase
import EntityStore.Proofs.Config.Name
import EntityStore.Proofs.Text.Numeral
import Mathlib.Data.List.Basic

/-! Which characters of a text make up a name. They are the allowed characters of the text in lower
case, and it makes no difference whether the white space around the text is taken off before and how
a capital sigma is lower-cased. -/

namespace EntityStore.Name
open Lowercase
variable {c : Char} {s : List Char} {n : Nat}

/-- The allowed characters of a text of which each character has been lower-cased by itself. -/
def spelled (s : List Char) : List Char := (s.flatMap ofChar).filter isAllowed

/-- A text without the white space around it is lower-cased, characters that are not allowed are
dropped, and the rest is cut. -/
def reading (ends : List Char → List Char → Bool) (s : List Char) : List Char :=
  ((ofText ends (Blank.trim s)).filter isAllowed).take maxLength

/-! ### Single characters -/

theorem lt_of_isAllowed_ofNat (h : isAllowed (Char.ofNat n) = true) : n < 128 := by
  by_cases hvalid : n.isValidChar
  · have hn : (Char.ofNat n).toNat = n := by
      rw [Char.ofNat, dif_pos hvalid]
      rfl
    exact hn ▸ toNat_lt_of_isAllowed h
  · have hzero : Char.ofNat n = Char.ofNat 0 := by
      rw [Char.ofNat, dif_neg hvalid]
      rfl
    rw [hzero] at h
    exact absurd h (by decide)

def capitals : Span := ⟨0x41, 0x5A, 1, 0x61⟩

theorem spans_eq : spans = capitals :: spans.tail := rfl

/-- All other capital letters are outside of ASCII, and of their small letters only that of the
Kelvin sign is not. -/
theorem tail_cases : ∀ s ∈ spans.tail,
    128 ≤ s.first ∧ (s = ⟨0x212A, 0x212A, 1, 0x6B⟩ ∨ 128 ≤ s.image) := by
  decide +kernel

theorem bounds_of_image? {s : Span} {m : Nat} (h : s.image? n = some m) :
    s.first ≤ n ∧ n ≤ s.last ∧ s.image ≤ m := by
  unfold Span.image? at h
  split at h
  · rename_i hn
    cases h
    exact ⟨hn.1, hn.2.1, Nat.le_add_right _ _⟩
  · cases h

theorem findSome?_image?_of_lt (hlt : n < 128) :
    spans.findSome? (·.image? n) = capitals.image? n := by
  have hnone : spans.tail.findSome? (·.image? n) = none := by
    rw [List.findSome?_eq_none_iff]
    intro s hs
    apply Option.eq_none_iff_forall_not_mem.2
    intro m hm
    exact absurd (Nat.le_trans (tail_cases s hs).1 (bounds_of_image? hm).1) (Nat.not_le.2 hlt)
  rw [spans_eq, List.findSome?_cons, hnone]
  cases capitals.image? n <;> rfl

/-- Outside of ASCII the Kelvin sign is the only character with a small letter in ASCII, apart from
the dotted capital I. -/
theorem le_of_findSome?_image? (hlt : 128 ≤ n) (hkelvin : n ≠ 0x212A) {m : Nat}
    (h : spans.findSome? (·.image? n) = some m) : 128 ≤ m := by
  obtain ⟨s, hs, hm⟩ := List.exists_of_findSome?_eq_some h
  obtain ⟨hfirst, hlast, himage⟩ := bounds_of_image? hm
  rw [spans_eq, List.mem_cons] at hs
  rcases hs with rfl | hs
  · have hlast : n ≤ 0x5A := hlast
    omega
  · rcases (tail_cases s hs).2 with rfl | hle
    · exact absurd (Nat.le_antisymm hlast hfirst) hkelvin
    · exact Nat.le_trans hle himage

theorem ofChar_of_lt (hc : c.toNat < 128) :
    ofChar c = (capitals.image? c.toNat).elim [c] fun n => [.ofNat n] := by
  have hdotted : c ≠ '\u0130' := by
    rintro rfl
    exact absurd hc (by decide)
  rw [ofChar, if_neg hdotted, findSome?_image?_of_lt hc]
  cases capitals.image? c.toNat <;> rfl

theorem fold_eq_none (hc : 128 ≤ c.toNat) (hdotted : c ≠ '\u0130') (hkelvin : c ≠ '\u212A') :
    fold c = none := by
  have hnot : ¬ isAllowed c = true := fun h => absurd (toNat_lt_of_isAllowed h) (Nat.not_lt.2 hc)
  have hcapital : ¬ ('A' ≤ c ∧ c ≤ 'Z') := by
    intro h
    have hle : c.toNat ≤ 'Z'.toNat := h.2
    exact absurd (Nat.le_trans hc hle) (by decide)
  rw [fold, if_neg hnot, if_neg hcapital, if_neg hdotted, if_neg hkelvin]

theorem filter_ofChar (c : Char) : (ofChar c).filter isAllowed = (fold c).toList := by
  by_cases hascii : c.toNat < 128
  · rw [ofChar_of_lt hascii]
    exact of_ascii (p := fun c => ((capitals.image? c.toNat).elim [c] fun n => [.ofNat n]).filter
      isAllowed = (fold c).toList) (by decide) hascii
  have hc : 128 ≤ c.toNat := Nat.le_of_not_lt hascii
  by_cases hdotted : c = '\u0130'
  · rw [hdotted]
    decide
  by_cases hkelvin : c = '\u212A'
  · rw [hkelvin]
    decide +kernel
  rw [fold_eq_none hc hdotted hkelvin, ofChar, if_neg hdotted, Option.toList_none,
    List.filter_eq_nil_iff]
  intro d hd
  split at hd
  · rename_i m hm
    rw [List.mem_singleton.1 hd]
    intro hallowed
    have hne : c.toNat ≠ 0x212A := fun h => hkelvin (Char.toNat_inj.1 h)
    exact absurd (lt_of_isAllowed_ofNat hallowed) (Nat.not_lt.2 (le_of_findSome?_image? hc hne hm))
  · rw [List.mem_singleton.1 hd]
    intro hallowed
    exact hascii (toNat_lt_of_isAllowed hallowed)

theorem fold_of_isAllowed (h : isAllowed c = true) : fold c = some c := if_pos h

theorem fold_of_isBlank (h : Blank.isBlank c = true) : fold c = none := by
  by_cases hascii : c.toNat < 128
  · exact of_ascii (p := fun c => Blank.isBlank c = true → fold c = none) (by decide) hascii h
  · have hne {d : Char} (hd : Blank.isBlank d = false) : c ≠ d := by
      rintro rfl
      rw [hd] at h
      cases h
    exact fold_eq_none (Nat.le_of_not_lt hascii) (hne (by decide)) (hne (by decide))

theorem fold_eq_none_iff : fold c = none ↔ ∀ d ∈ ofChar c, isAllowed d = false := by
  rw [← Option.toList_eq_nil_iff, ← filter_ofChar, List.filter_eq_nil_iff]
  simp only [Bool.not_eq_true]

/-! ### Texts -/

theorem spelled_eq (s : List Char) : spelled s = s.filterMap fold := by
  rw [spelled, List.filter_flatMap]
  simp only [filter_ofChar]
  exact (List.filterMap_eq_flatMap_toList fold s).symm

theorem letters_eq (s : List Char) : letters s = (spelled s).take maxLength := by
  rw [letters, spelled_eq]

theorem filter_behind (ends : List Char → List Char → Bool) (before s : List Char) :
    (behind ends before s).filter isAllowed = s.filterMap fold := by
  induction s generalizing before with
  | nil => rfl
  | cons c after ih =>
    rw [behind, List.filter_append, ih]
    have hchar : (if c = '\u03A3' ∧ ends before after then ['\u03C2'] else ofChar c).filter
        isAllowed = (fold c).toList := by
      split
      · rename_i h
        rw [h.1]
        decide
      · exact filter_ofChar c
    rw [hchar]
    cases hc : fold c <;> simp [hc]

theorem filterMap_fold_of_blank (h : ∀ c ∈ s, Blank.isBlank c = true) : s.filterMap fold = [] := by
  rw [List.filterMap_eq_nil_iff]
  intro c hc
  exact fold_of_isBlank (h c hc)

theorem filterMap_fold_trim (s : List Char) : (Blank.trim s).filterMap fold = s.filterMap fold := by
  obtain ⟨lead, trail, hs, hlead, htrail⟩ := Blank.exists_eq_append_trim s
  conv_rhs => rw [hs]
  rw [List.filterMap_append, List.filterMap_append, filterMap_fold_of_blank hlead,
    filterMap_fold_of_blank htrail, List.nil_append, List.append_nil]

theorem reading_eq (ends : List Char → List Char → Bool) (s : List Char) :
    reading ends s = letters s := by
  rw [reading, ofText, filter_behind, filterMap_fold_trim, letters]

theorem letters_of_isAllowed (h : ∀ c ∈ s, isAllowed c = true) (hlength : s.length ≤ maxLength) :
    letters s = s := by
  have hfold : s.filterMap fold = s := by
    rw [List.filterMap_congr fun c hc => fold_of_isAllowed (h c hc)]
    exact List.filterMap_some
  rw [letters, hfold, List.take_of_length_le hlength]

end EntityStore.Name
