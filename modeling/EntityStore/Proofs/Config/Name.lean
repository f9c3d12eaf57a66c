import EntityStore.Config.Name
import Mathlib.Tactic.Common

/-! What normalized names are made of. Every name is made of allowed characters, and one with
letters of its own does not depend on the numbers that were given out. -/

namespace EntityStore.Name

/-- What holds of the first 128 code points holds of every character among them. -/
theorem of_ascii {p : Char → Prop} (h : ∀ n < 128, p (Char.ofNat n)) {c : Char}
    (hc : c.toNat < 128) : p c :=
  Char.ofNat_toNat c ▸ h c.toNat hc

theorem toNat_lt_of_isAllowed {c : Char} (h : isAllowed c = true) : c.toNat < 128 := by
  simp only [isAllowed, Bool.or_eq_true, Bool.and_eq_true, decide_eq_true_eq, beq_iff_eq] at h
  rcases h with (((h | h) | rfl) | rfl) | rfl
  · exact Nat.lt_of_le_of_lt (show c.toNat ≤ 'z'.toNat from h.2) (by decide)
  · exact Nat.lt_of_le_of_lt (show c.toNat ≤ '9'.toNat from h.2) (by decide)
  all_goals decide

theorem isAllowed_of_isDigit {c : Char} (h : c.isDigit = true) : isAllowed c = true := by
  have hdigit : ('0' ≤ c && c ≤ '9') = true := h
  simp only [isAllowed, hdigit, Bool.or_true, Bool.true_or]

theorem isAllowed_toLower {c : Char} (h : 'A' ≤ c ∧ c ≤ 'Z') : isAllowed c.toLower = true := by
  have hlt : c.toNat < 128 :=
    Nat.lt_of_le_of_lt (show c.toNat ≤ 'Z'.toNat from h.2) (by decide)
  exact of_ascii (p := fun c => 'A' ≤ c ∧ c ≤ 'Z' → isAllowed c.toLower = true) (by decide) hlt h

theorem isAllowed_of_fold {c d : Char} (h : fold c = some d) : isAllowed d = true := by
  unfold fold at h
  split at h
  · rename_i hc
    cases h
    exact hc
  · split at h
    · rename_i hc
      cases h
      exact isAllowed_toLower hc
    · split at h
      · cases h
        rfl
      · split at h
        · cases h
          rfl
        · cases h

theorem isAllowed_of_mem_letters {s : List Char} {c : Char} (h : c ∈ letters s) :
    isAllowed c = true := by
  obtain ⟨_, -, hd⟩ := List.mem_filterMap.1 (List.mem_of_mem_take h)
  exact isAllowed_of_fold hd

theorem normalize_of_letters_eq_nil {given : String} (h : letters given.toList = [])
    (supply : Supply) :
    normalize supply given = (s!"pool-{supply.next}", ⟨supply.next + 1⟩) := by
  unfold normalize
  rw [h]

theorem normalize_of_letters_ne_nil {given : String} (h : letters given.toList ≠ [])
    (supply : Supply) :
    normalize supply given = (String.ofList (letters given.toList), supply) := by
  unfold normalize
  split
  · rename_i heq
    exact absurd heq h
  · rfl

theorem isAllowed_of_mem_normalize (supply : Supply) (given : String) {c : Char}
    (hc : c ∈ (normalize supply given).1.toList) : isAllowed c = true := by
  by_cases h : letters given.toList = []
  · have htext : (normalize supply given).1 = "pool-" ++ toString supply.next.toNat :=
      congrArg Prod.fst (normalize_of_letters_eq_nil h supply)
    rw [htext, String.toList_append, Nat.toString_eq_repr, Nat.toList_repr] at hc
    rcases List.mem_append.1 hc with hc | hc
    · have hpool : "pool-".toList.all isAllowed = true := by decide
      exact List.all_eq_true.1 hpool c hc
    · exact isAllowed_of_isDigit (Nat.isDigit_of_mem_toDigits (by decide) (by decide) hc)
  · rw [normalize_of_letters_ne_nil h, String.toList_ofList] at hc
    exact isAllowed_of_mem_letters hc

end EntityStore.Name
