import EntityStore.Proofs.ClassIndex.Numbering

/-! The invariant of a class index. As long as the raw table is used, every key with a code stands
at its slot, so an empty slot tells that a key has no code. -/

namespace EntityStore

namespace RawTable
variable {κ : Type} {r : RawTable κ} {slot : Nat}

theorem code?_record {old : UInt32} (h : r.code? slot = some old) (code : UInt32) (key : κ)
    (s : Nat) : (r.record slot code key).code? s = if s = slot then some code else r.code? s := by
  have hlt : slot < r.size := by
    by_contra hlt
    simp [code?, hlt] at h
  unfold code? record
  simp only [Std.TreeMap.getD_insert, Std.LawfulEqCmp.compare_eq_iff_eq]
  by_cases hs : s = slot
  · simp [hs, hlt]
  · simp [hs, Ne.symm hs]

theorem key?_record (r : RawTable κ) (slot : Nat) (code : UInt32) (key : κ) (c : UInt32) :
    (r.record slot code key).key? c = if c = code then some key else r.key? c := by
  unfold key? record
  simp only [Array.getElem?_setIfInBounds, Array.size_append, Array.size_replicate]
  by_cases hc : c = code
  · subst hc
    have hlt : c.toNat < r.keys.size + (c.toNat + 1 - r.keys.size) := by omega
    simp [hlt]
  · have hne : code.toNat ≠ c.toNat := fun h => hc (UInt32.toNat_inj.1 h).symm
    rw [if_neg hne, if_neg hc, Array.getElem?_append]
    split
    · rfl
    · rename_i hge
      rw [Array.getElem?_eq_none (Nat.le_of_not_lt hge), Array.getElem?_replicate]
      split <;> rfl

end RawTable

namespace ClassIndex
variable {κ : Type} [BEq κ] [Hashable κ]

/-- The index `x` stands for the numbering `r`. -/
structure Numbers (x : ClassIndex κ) (r : Numbering κ) : Prop where
  closed : x.closed = r.closed
  lt : r.keys.length < UInt32.size
  counter : x.counter.toNat = r.keys.length
  codes : ∀ key, x.codes.get? key = r.code? key
  code_of_key : ∀ {code key}, x.raw.key? code = some key → r.code? key = some code
  raw : x.exact = false → ∀ {key code}, r.code? key = some code →
    x.raw.code? (x.slotOf key) = some code

theorem numbers_empty {x : ClassIndex κ} {hashBits : Nat} (h2 : 2 ≤ hashBits) (h24 : hashBits ≤ 24)
    (hx : x = { hashBits, two_le := h2, le_twentyFour := h24 }) : x.Numbers {} where
  closed := by rw [hx]
  lt := Nat.two_pow_pos 32
  counter := by rw [hx]; rfl
  codes _ := by rw [hx]; rfl
  code_of_key h := by
    rw [hx] at h
    cases h
  raw _ _ _ h := by cases h

section
variable {x : ClassIndex κ} {r : Numbering κ} {key : κ}

theorem Numbers.exactGet_eq (h : x.Numbers r) (key : κ) : x.exactGet key = r.get key := by
  unfold exactGet KeyMap.getD Numbering.get
  rw [h.codes]

theorem Numbers.counter_add_one (h : x.Numbers r) : x.counter + 1 = .ofNat (r.keys.length + 1) := by
  rw [← h.counter]
  simp

theorem slotOf_congr [LawfulHashable κ] (x : ClassIndex κ) {k l : κ} (h : (k == l) = true) :
    x.slotOf k = x.slotOf l := by
  unfold slotOf
  rw [hash_eq h]

variable [EquivBEq κ]

theorem Numbers.get_eq_exactGet (h : x.Numbers r) (key : κ) : x.get key = x.exactGet key := by
  unfold get
  split
  · rfl
  · rename_i hexact
    -- A slot without a code settles it only because every key that has a code has it there.
    have hraw {code : UInt32} (hc : r.code? key = some code) :
        x.raw.code? (x.slotOf key) = some code := h.raw (by simpa using hexact) hc
    have hzero (hr : ∀ code, r.code? key ≠ some code) : 0 = x.exactGet key := by
      rw [h.exactGet_eq, Numbering.get, Option.eq_none_iff_forall_ne_some.2 hr]
      rfl
    split
    · rename_i hslot
      refine hzero fun code hc => ?_
      rw [hraw hc] at hslot
      cases hslot
    · rename_i code hslot
      split
      · rename_i hcode
        refine hzero fun c hc => ?_
        rw [hraw hc] at hslot
        cases hslot
        exact Numbering.code?_ne_zero h.lt hc hcode
      · split
        · rename_i hkey
          obtain ⟨k, hk, heq⟩ := (Option.any_eq_true _ _).1 hkey
          have hc := h.code_of_key hk
          rw [Numbering.code?_congr r heq] at hc
          rw [h.exactGet_eq, Numbering.get, hc]
          rfl
        · rfl

theorem Numbers.get_eq (h : x.Numbers r) (key : κ) : x.get key = r.get key :=
  (h.get_eq_exactGet key).trans (h.exactGet_eq key)

variable [LawfulHashable κ]

theorem Numbers.assign (h : x.Numbers r) (ho : r.closed = false) (hnew : r.code? key = none)
    (hlt : (r.push key).keys.length < UInt32.size) (raw : RawTable κ) (exact : Bool)
    (hkey : ∀ {code k}, raw.key? code = some k → (r.push key).code? k = some code)
    (hraw : exact = false → ∀ {k code}, (r.push key).code? k = some code →
      raw.code? (x.slotOf k) = some code) :
    ({ x with raw, exact }.assign key).Numbers (r.push key) where
  closed := h.closed
  lt := hlt
  counter := by
    show (x.counter + 1).toNat = _
    rw [h.counter_add_one]
    have hlen : (r.push key).keys.length = r.keys.length + 1 := by simp [Numbering.push]
    rw [hlen] at hlt ⊢
    exact UInt32.toNat_ofNat_of_lt' hlt
  codes k := by
    show (x.codes.insert key (x.counter + 1)).get? k = _
    rw [KeyMap.get?_insert, Numbering.code?_push ho hnew, h.codes, h.counter_add_one]
  code_of_key := hkey
  raw := hraw

/-- A key that has no code gets the next one, whether its raw slot is free or not. -/
theorem Numbers.add (h : x.Numbers r) (key : κ) (hlt : (r.add key).2.keys.length < UInt32.size) :
    (x.add key).result = (r.add key).1 ∧ (x.add key).state.Numbers (r.add key).2 := by
  unfold ClassIndex.add Numbering.add at *
  by_cases ho : r.closed = true
  · rw [if_pos ho, if_pos (h.closed.trans ho)]
    exact ⟨rfl, h⟩
  · rw [if_neg ho] at hlt ⊢
    rw [if_neg (h.closed ▸ ho), h.codes]
    have ho : r.closed = false := by simpa using ho
    cases hc : r.code? key with
    | some code => exact ⟨rfl, h⟩
    | none =>
      rw [hc] at hlt
      have hold {k : κ} {code : UInt32} (hk : r.code? k = some code) :
          (r.push key).code? k = some code := Numbering.code?_push_of_some ho hc hk
      simp only [h.counter_add_one]
      split
      · rename_i hexact
        refine ⟨rfl, h.assign ho hc hlt x.raw x.exact (fun hk => hold (h.code_of_key hk)) ?_⟩
        intro hf
        rw [hexact] at hf
        cases hf
      · rename_i hexact
        have hexact : x.exact = false := by simpa using hexact
        split
        · rename_i hfree
          refine ⟨rfl, h.assign ho hc hlt _ x.exact (fun {code k} hk => ?_) fun _ k code hk => ?_⟩
          · rw [RawTable.key?_record] at hk
            split at hk
            · rename_i heq
              cases hk
              rw [Numbering.code?_push ho hc, if_pos BEq.rfl, heq]
            · exact hold (h.code_of_key hk)
          · rw [RawTable.code?_record hfree]
            rw [Numbering.code?_push ho hc] at hk
            split at hk
            · rename_i heq
              cases hk
              rw [if_pos (x.slotOf_congr heq)]
            · -- The slot of a key with a code holds this code, which is not 0.
              rw [h.raw hexact hk, if_neg]
              intro hslot
              have hzero := h.raw hexact hk
              rw [hslot, hfree] at hzero
              exact Numbering.code?_ne_zero h.lt hk (Option.some.inj hzero).symm
        · -- The slot is taken, so from now on nothing is asked of the raw table.
          refine ⟨rfl, h.assign ho hc hlt x.raw true (fun hk => hold (h.code_of_key hk)) ?_⟩
          intro hf
          cases hf

end
end ClassIndex
end EntityStore
