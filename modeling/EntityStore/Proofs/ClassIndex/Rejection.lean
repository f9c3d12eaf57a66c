import EntityStore.Proofs.Layout.Create

/-! Refused lists of keys. A list is resolved to codes before it is looked at for repeated keys, so
a list that is refused for one leaves its new keys with codes. A closed index gives none. -/

namespace EntityStore
namespace Numbering
variable {κ : Type} [BEq κ] {r : Numbering κ} {keys : List κ}

theorem known_iff_get_ne_zero (hlt : r.keys.length < UInt32.size) (key : κ) :
    (∃ code, r.code? key = some code) ↔ r.get key ≠ 0 := by
  constructor
  · rintro ⟨code, hc⟩
    rw [get_eq_of_code? hc]
    exact code?_ne_zero hlt hc
  · intro hget
    cases hc : r.code? key with
    | some code => exact ⟨code, rfl⟩
    | none =>
      rw [get, hc] at hget
      exact absurd rfl hget

variable [EquivBEq κ]

theorem bind_getOrAddAll_error_iff {α : Type} {f : List UInt32 → Except IndexError α}
    (hlt : (r.getOrAddAll keys).2.keys.length < UInt32.size)
    (hf : ∀ codes, codes.length = keys.length → ((∃ e, f codes = .error e) ↔ ¬ codes.Nodup)) :
    (∃ e, (r.getOrAddAll keys).1.bind f = .error e) ↔
      keys ≠ [] ∧ (r.closed = true ∨ ¬ Distinct keys) := by
  cases ho : r.closed with
  | true =>
    rw [getOrAddAll_of_closed ho]
    cases keys with
    | nil =>
      have hnil : ¬ ∃ e, f [] = .error e := (hf [] rfl).not.2 (not_not.2 List.nodup_nil)
      exact ⟨fun herror => absurd herror hnil, fun h => absurd rfl h.1⟩
    | cons key keys => exact ⟨fun _ => ⟨List.cons_ne_nil _ _, .inl rfl⟩, fun _ => ⟨_, rfl⟩⟩
  | false =>
    rw [getOrAddAll_eq ho] at hlt ⊢
    have hnodup := nodup_map_get_iff hlt fun _ hk => known_of_mem ho hk
    refine (hf _ (List.length_map _)).trans ((not_congr hnodup).trans ⟨fun hd => ?_, fun h => ?_⟩)
    · refine ⟨?_, .inr hd⟩
      rintro rfl
      exact hd .nil
    · exact h.2.resolve_left Bool.false_ne_true

/-- Resolving a list changes a numbering exactly if it is open and one of the keys is new. -/
theorem getOrAddAll_keeps_iff (hlt : (r.getOrAddAll keys).2.keys.length < UInt32.size) :
    (r.getOrAddAll keys).2.keys.length = r.keys.length ∧
      (∀ key, (r.getOrAddAll keys).2.get key = r.get key) ↔
    r.closed = true ∨ ∀ key ∈ keys, r.get key ≠ 0 := by
  have hle := (r.keys_prefix_getOrAddAll keys).length_le
  constructor
  · rintro ⟨-, hget⟩
    cases ho : r.closed with
    | true => exact .inl rfl
    | false =>
      refine .inr fun key hk => ?_
      rw [← hget]
      rw [getOrAddAll_eq ho] at hlt ⊢
      exact (known_iff_get_ne_zero hlt key).1 (known_of_mem ho hk)
  · intro h
    have hsame : (r.getOrAddAll keys).2 = r := by
      rcases h with hc | hknown
      · rw [getOrAddAll_of_closed hc]
      · have hlt' := Nat.lt_of_le_of_lt hle hlt
        rw [getOrAddAll_of_known fun key hk => (known_iff_get_ne_zero hlt' key).2 (hknown key hk)]
    rw [hsame]
    exact ⟨rfl, fun _ => rfl⟩

end Numbering

namespace ClassIndex
open EntityStore.Numbering
variable {κ : Type} [BEq κ] [Hashable κ] {x : ClassIndex κ} {r : Numbering κ} {keys : List κ}

def SameCodes (x y : ClassIndex κ) : Prop :=
  y.counter = x.counter ∧ ∀ key, y.get key = x.get key

/-- When a list of keys is refused, and what the two calls that may refuse it do to the index:
whether they refuse it or not, it stays as it was exactly if it is closed or no key of the list is
new. -/
structure Rejects (x : ClassIndex κ) (keys : List κ) : Prop where
  setHash_error_iff : (∃ e, (x.setHash keys).result = .error e) ↔
    keys ≠ [] ∧ (x.closed = true ∨ ¬ Distinct keys)
  layout_error_iff : (∃ e, (Layout.create x keys).result = .error e) ↔
    keys ≠ [] ∧ (x.closed = true ∨ ¬ Distinct keys)
  setHash_sameCodes_iff : x.SameCodes (x.setHash keys).state ↔
    x.closed = true ∨ ∀ key ∈ keys, x.get key ≠ 0
  layout_sameCodes_iff : x.SameCodes (Layout.create x keys).state ↔
    x.closed = true ∨ ∀ key ∈ keys, x.get key ≠ 0

variable [EquivBEq κ] [LawfulHashable κ]

theorem Numbers.sameCodes_iff (h : x.Numbers r)
    (hlt : (r.getOrAddAll keys).2.keys.length < UInt32.size) :
    x.SameCodes (x.getOrAddAll keys).state ↔ x.closed = true ∨ ∀ key ∈ keys, x.get key ≠ 0 := by
  obtain ⟨-, hstate⟩ := h.getOrAddAll keys hlt
  have hcounter : (x.getOrAddAll keys).state.counter = x.counter ↔
      (r.getOrAddAll keys).2.keys.length = r.keys.length := by
    rw [← UInt32.toNat_inj, hstate.counter, h.counter]
  unfold SameCodes
  simp only [hcounter, hstate.get_eq, h.get_eq, h.closed]
  exact getOrAddAll_keeps_iff hlt

theorem Numbers.rejects (h : x.Numbers r)
    (hlt : (r.getOrAddAll keys).2.keys.length < UInt32.size) : x.Rejects keys := by
  obtain ⟨hresult, -⟩ := h.getOrAddAll keys hlt
  refine
    { setHash_error_iff := ?_
      layout_error_iff := ?_
      setHash_sameCodes_iff := h.sameCodes_iff hlt
      layout_sameCodes_iff := h.sameCodes_iff hlt }
  · rw [(h.setHash keys hlt).1, h.closed]
    refine bind_getOrAddAll_error_iff hlt fun codes _ => ?_
    have hnone := firstRepeated?_eq_none_iff [] codes
    cases hf : firstRepeated? [] codes with
    | none => simp [(hnone.1 hf).1]
    | some code =>
      have hnodup : ¬ codes.Nodup := fun hnodup => by
        rw [hnone.2 ⟨hnodup, by simp⟩] at hf
        cases hf
      exact ⟨fun _ => hnodup, fun _ => ⟨_, rfl⟩⟩
  · show (∃ e, (x.getOrAddAll keys).result.bind _ = .error e) ↔ _
    rw [hresult, h.closed]
    refine bind_getOrAddAll_error_iff hlt fun codes hlen => ?_
    have hnone := Layout.repeatedCode?_sortBy_eq_none_iff hlen
    cases hf : Layout.repeatedCode? (sortBy (fun a b => decide (a.1 ≤ b.1)) (codes.zip keys)) with
    | none => simp [hf, hnone.1 hf]
    | some code =>
      have hnodup : ¬ codes.Nodup := fun hnodup => by
        rw [hnone.2 hnodup] at hf
        cases hf
      exact ⟨fun _ => hnodup, fun _ => ⟨.duplicateType code, by simp only [hf]⟩⟩

/-- At any time of any run, as long as there are codes left, a list that is refused for a repeated
key leaves codes behind unless all its keys had one. -/
theorem rejects_of_run {hashBits : Nat} (h2 : 2 ≤ hashBits) (h24 : hashBits ≤ 24) :
    ∃ (x : ClassIndex κ) (log : List Event), ClassIndex.create hashBits = .ok (x, log) ∧
      ∀ (ops : List (Op κ)) (keys : List κ),
        ((({} : Numbering κ).run ops).2.getOrAddAll keys).2.keys.length < UInt32.size →
        (x.run ops).2.Rejects keys := by
  obtain ⟨x, log, hx, hempty⟩ := exists_create (κ := κ) h2 h24
  refine ⟨x, log, hx, fun ops keys hlt => ?_⟩
  have hbound : (({} : Numbering κ).run ops).2.keys.length < UInt32.size :=
    Nat.lt_of_le_of_lt (keys_prefix_getOrAddAll _ keys).length_le hlt
  obtain ⟨-, h⟩ := hempty.run ops hbound
  exact h.rejects hlt

/-- A new index refuses a key given twice, and is another one afterwards. -/
theorem rejects_of_run_twice :
    ∃ (x : ClassIndex Key) (log : List Event), ClassIndex.create 8 = .ok (x, log) ∧
      (∃ e, (x.setHash [.word32 1, .word32 1]).result = .error e) ∧
      ¬ x.SameCodes (x.setHash [.word32 1, .word32 1]).state := by
  obtain ⟨x, log, hx, h⟩ := rejects_of_run (κ := Key) (by decide : 2 ≤ 8) (by decide)
  have hr : x.Rejects [.word32 1, .word32 1] := h [] _ (by decide)
  have hn := numbers_of_create hx
  have hnew : x.get (.word32 1) = 0 := hn.get_eq _
  refine ⟨x, log, hx, hr.setHash_error_iff.2 ⟨by decide, .inr (by decide)⟩, fun hsame => ?_⟩
  rcases hr.setHash_sameCodes_iff.1 hsame with hc | hknown
  · rw [hn.closed] at hc
    cases hc
  · exact hknown _ (List.mem_cons_self ..) hnew

/-- The code that a refused key is left with. -/
theorem code_of_refused_key :
    ∃ (x : ClassIndex Key) (log : List Event), ClassIndex.create 8 = .ok (x, log) ∧
      (x.counter = 0 ∧ x.get (.word32 1) = 0) ∧
      ((x.setHash [.word32 1, .word32 1]).result = .error (.duplicateType 1) ∧
        (x.setHash [.word32 1, .word32 1]).state.counter = 1 ∧
        (x.setHash [.word32 1, .word32 1]).state.get (.word32 1) = 1) ∧
      (Layout.create x [.word32 1, .word32 1]).result = .error (.duplicateType 1) ∧
        (Layout.create x [.word32 1, .word32 1]).state.counter = 1 ∧
        (Layout.create x [.word32 1, .word32 1]).state.get (.word32 1) = 1 :=
  ⟨_, _, rfl, by decide +kernel, by decide +kernel, by decide +kernel⟩

end ClassIndex
end EntityStore
