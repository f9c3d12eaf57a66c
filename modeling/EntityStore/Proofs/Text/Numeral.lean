import EntityStore.Text.Blank
import EntityStore.Text.Numeral
import Mathlib.Data.List.TakeWhile

/-! Which texts stand for numbers. Reading a text without the white space around it finds a number
exactly if the text is a numeral in white space, and the decimal text of a number is read as it. -/

namespace EntityStore

namespace Blank
variable {s lead core trail : List Char}

theorem trim_append (hlead : ∀ c ∈ lead, isBlank c = true) (htrail : ∀ c ∈ trail, isBlank c = true)
    (hne : core ≠ []) (hcore : ∀ c ∈ core, isBlank c = false) :
    trim (lead ++ (core ++ trail)) = core := by
  have hkept {t : List Char} : (core ++ t).dropWhile isBlank = core ++ t := by
    obtain ⟨c, rest, rfl⟩ := List.exists_cons_of_ne_nil hne
    simp [hcore c (List.mem_cons_self ..)]
  have hrev : core.reverse.dropWhile isBlank = core.reverse := by
    rw [List.dropWhile_eq_self_iff]
    intro hl
    simpa using hcore _ (List.mem_reverse.1 (List.getElem_mem hl))
  rw [trim, List.dropWhile_append_of_pos hlead, hkept, List.reverse_append,
    List.dropWhile_append_of_pos (by simpa using htrail), hrev, List.reverse_reverse]

theorem exists_eq_append_trim (s : List Char) : ∃ lead trail, s = lead ++ (trim s ++ trail) ∧
    (∀ c ∈ lead, isBlank c = true) ∧ ∀ c ∈ trail, isBlank c = true := by
  refine ⟨s.takeWhile isBlank, ((s.dropWhile isBlank).reverse.takeWhile isBlank).reverse, ?_,
    fun c hc => List.mem_takeWhile_imp hc,
    fun c hc => List.mem_takeWhile_imp (List.mem_reverse.1 hc)⟩
  rw [trim, ← List.reverse_append, List.takeWhile_append_dropWhile, List.reverse_reverse,
    List.takeWhile_append_dropWhile]

end Blank

namespace Numeral
variable {s cs : List Char} {n m : Nat}

/-- A numeral in white space: at most one plus sign and then digits, whose value fits into a word.
-/
structure Denotes (s : List Char) (n : Nat) : Prop where
  parts : ∃ lead sign digits trail, s = lead ++ (sign ++ digits ++ trail) ∧
    (∀ c ∈ lead, Blank.isBlank c = true) ∧ (∀ c ∈ trail, Blank.isBlank c = true) ∧
    (sign = [] ∨ sign = ['+']) ∧ digits ≠ [] ∧ (∀ c ∈ digits, c.isDigit = true) ∧
    Nat.ofDigitChars 10 digits 0 = n
  lt : n < UInt32.size

theorem digit?_eq (c : Char) :
    digit? c = if c.isDigit then some (c.toNat - '0'.toNat) else none := by
  have h : ('0' ≤ c ∧ c ≤ '9') ↔ c.isDigit = true := by
    rw [Char.isDigit, Bool.and_eq_true, decide_eq_true_iff, decide_eq_true_iff]
    rfl
  simp only [digit?, h]

theorem readFrom_eq_some_iff : readFrom n cs = some m ↔
    (∀ c ∈ cs, c.isDigit = true) ∧ Nat.ofDigitChars 10 cs n = m := by
  induction cs generalizing n with
  | nil => simp [readFrom]
  | cons c cs ih =>
    rw [readFrom, digit?_eq, List.forall_mem_cons, Nat.ofDigitChars_cons]
    by_cases hc : c.isDigit = true
    · simp [hc, ih]
    · simp [hc]

theorem digits?_eq_some_iff : digits? cs = some m ↔
    cs ≠ [] ∧ (∀ c ∈ cs, c.isDigit = true) ∧ Nat.ofDigitChars 10 cs 0 = m := by
  cases cs with
  | nil => simp [digits?]
  | cons c cs =>
    rw [digits?, readFrom_eq_some_iff, and_iff_right (List.cons_ne_nil c cs)]

theorem unsigned_of_isDigit (hs : ∀ c ∈ s, c.isDigit = true) : unsigned s = s := by
  unfold unsigned
  split
  · exact absurd (hs '+' (List.mem_cons_self ..)) (by decide)
  · rfl

theorem exists_sign_append_unsigned (s : List Char) :
    ∃ sign, (sign = [] ∨ sign = ['+']) ∧ s = sign ++ unsigned s := by
  unfold unsigned
  split
  · exact ⟨['+'], .inr rfl, rfl⟩
  · exact ⟨[], .inl rfl, rfl⟩

theorem isBlank_of_isDigit {c : Char} (h : c.isDigit = true) : Blank.isBlank c = false := by
  rw [Char.isDigit, Bool.and_eq_true, decide_eq_true_iff, decide_eq_true_iff] at h
  have h0 : 48 ≤ c.toNat := h.1
  have h9 : c.toNat ≤ 57 := h.2
  have hranges : ∀ r ∈ Blank.ranges, r.2 < 48 ∨ 57 < r.1 := by decide
  refine List.any_eq_false.2 fun r hr => ?_
  rw [Bool.and_eq_true, decide_eq_true_iff, decide_eq_true_iff]
  have := hranges r hr
  omega

/-- A text is read as a number exactly if it stands for it. -/
theorem read?_trim_eq_some_iff : read? (Blank.trim s) = some n ↔ Denotes s n := by
  rw [read?, Option.filter_eq_some_iff, decide_eq_true_iff, digits?_eq_some_iff]
  constructor
  · rintro ⟨⟨hne, hdigits, hvalue⟩, hlt⟩
    obtain ⟨lead, trail, hs, hlead, htrail⟩ := Blank.exists_eq_append_trim s
    obtain ⟨sign, hsign, htrim⟩ := exists_sign_append_unsigned (Blank.trim s)
    refine ⟨⟨lead, sign, unsigned (Blank.trim s), trail, ?_, hlead, htrail, hsign, hne, hdigits,
      hvalue⟩, hlt⟩
    rw [← htrim]
    exact hs
  · rintro ⟨⟨lead, sign, digits, trail, hs, hlead, htrail, hsign, hne, hdigits, hvalue⟩, hlt⟩
    have hcore : ∀ c ∈ sign ++ digits, Blank.isBlank c = false := by
      intro c hc
      rcases List.mem_append.1 hc with hc | hc
      · rcases hsign with rfl | rfl
        · cases hc
        · rw [List.mem_singleton.1 hc]
          rfl
      · exact isBlank_of_isDigit (hdigits c hc)
    have htrim : Blank.trim s = sign ++ digits :=
      hs ▸ Blank.trim_append hlead htrail (List.append_ne_nil_of_right_ne_nil sign hne) hcore
    have hunsigned : unsigned (Blank.trim s) = digits := by
      rw [htrim]
      rcases hsign with rfl | rfl
      · exact unsigned_of_isDigit hdigits
      · rfl
    rw [hunsigned]
    exact ⟨⟨hne, hdigits, hvalue⟩, hlt⟩

theorem denotes_toString (h : n < UInt32.size) : Denotes (toString n).toList n := by
  rw [Nat.toString_eq_repr, Nat.toList_repr]
  refine ⟨⟨[], [], Nat.toDigits 10 n, [], ?_, nofun, nofun, .inl rfl, ?_, fun c hc => ?_, ?_⟩, h⟩
  · simp
  · exact Nat.toDigits_ne_nil
  · exact Nat.isDigit_of_mem_toDigits (by decide) (by decide) hc
  · exact Nat.ofDigitChars_ten_toDigits

end Numeral
end EntityStore
