import EntityStore.Proofs.ClassIndex.Extension
import EntityStore.Proofs.ClassIndex.Warning
import Mathlib.Algebra.Ring.Nat
import Mathlib.Data.List.Induction

/-! When a class index gives its raw table up. As long as it has not, the keys with codes stand at
distinct slots, so it does on the first key that meets another one there, and no later than when
there are more keys than slots. -/

namespace EntityStore

namespace ClassIndex
variable {κ : Type} [BEq κ] [Hashable κ] {x : ClassIndex κ} {r : Numbering κ} {key : κ}
  {forced : Prop} {hashBits : Nat} {ops : List (Op κ)}

/-! ### The flag -/

/-- Two distinct keys agree on the top bits of their hash. -/
def Meet (hashBits : Nat) (a b : κ) : Prop :=
  (a == b) = false ∧ (hash a).toNat >>> (64 - hashBits) = (hash b).toNat >>> (64 - hashBits)

def Collide (hashBits : Nat) (keys : List κ) : Prop := ∃ a ∈ keys, ∃ b ∈ keys, Meet hashBits a b

theorem Collide.mono {keys keys' : List κ} (h : Collide hashBits keys)
    (hsub : keys ⊆ keys') : Collide hashBits keys' := by
  obtain ⟨a, ha, b, hb, hm⟩ := h
  exact ⟨a, hsub ha, b, hsub hb, hm⟩

theorem length_le_of_not_collide (h64 : hashBits ≤ 64) {keys : List κ}
    (hd : Numbering.Distinct keys) (hc : ¬ Collide hashBits keys) :
    keys.length ≤ 2 ^ hashBits := by
  let slot (k : κ) : Nat := (hash k).toNat >>> (64 - hashBits)
  -- Two distinct keys at one slot would collide, so the slots are as many as the keys.
  have hnodup : (keys.map slot).Nodup := by
    refine List.pairwise_map.2 (hd.imp_of_mem fun {a b} ha hb hab heq => ?_)
    exact hc ⟨a, ha, b, hb, hab, heq⟩
  have hsub : keys.map slot ⊆ List.range (2 ^ hashBits) := by
    intro n hn
    obtain ⟨k, -, rfl⟩ := List.mem_map.1 hn
    rw [List.mem_range]
    show (hash k).toNat >>> (64 - hashBits) < 2 ^ hashBits
    rw [Nat.shiftRight_eq_div_pow, Nat.div_lt_iff_lt_mul (Nat.two_pow_pos _), ← Nat.pow_add,
      Nat.add_sub_cancel' h64]
    exact (hash k).toNat_lt
  simpa using (List.subperm_of_subset hnodup hsub).length_le

/-- The index `x` knows the keys of `r`, and its flag is set if it was told so or if two of them
meet. While the flag is not set a slot that is taken holds the code of one of the keys. -/
structure Flagged (x : ClassIndex κ) (r : Numbering κ) (hashBits : Nat) (forced : Prop) : Prop where
  hashBits_eq : x.hashBits = hashBits
  closed : x.closed = r.closed
  counter : x.counter = .ofNat r.keys.length
  codes : ∀ key, x.codes.get? key = r.code? key
  distinct : Numbering.Distinct r.keys
  exact_iff : x.exact = true ↔ forced ∨ Collide hashBits r.keys
  numbers : x.exact = false → x.Numbers r
  size : x.closed = false → x.raw.size = 1 <<< x.hashBits
  taken : x.exact = false → ∀ {slot code}, x.raw.code? slot = some code → code ≠ 0 →
    ∃ k ∈ r.keys, x.slotOf k = slot

theorem Flagged.of_iff {forced' : Prop} (h : x.Flagged r hashBits forced)
    (hiff : forced ↔ forced') : x.Flagged r hashBits forced' :=
  { h with
    exact_iff := h.exact_iff.trans (or_congr_left hiff)
    numbers := h.numbers
    taken := h.taken }

theorem Flagged.length_le (h : x.Flagged r hashBits forced) (he : x.exact = false) :
    r.keys.length ≤ 2 ^ 24 := by
  obtain rfl := h.hashBits_eq
  have hc : ¬ Collide x.hashBits r.keys := fun hc => by
    rw [h.exact_iff.2 (.inr hc)] at he
    cases he
  have hle := length_le_of_not_collide (Nat.le_trans x.le_twentyFour (by decide)) h.distinct hc
  exact Nat.le_trans hle (Nat.pow_le_pow_right (by decide) x.le_twentyFour)

theorem Flagged.counter_add_one (h : x.Flagged r hashBits forced) :
    x.counter + 1 = .ofNat (r.keys.length + 1) := by
  rw [h.counter, UInt32.ofNat_add]
  rfl

theorem flagged_of_create {log : List Event}
    (h : ClassIndex.create hashBits = .ok (x, log)) : x.Flagged {} hashBits False := by
  have hnumbers := numbers_of_create h
  unfold create at h
  split at h
  · cases h
    refine
      { hashBits_eq := rfl
        closed := rfl
        counter := rfl
        codes := hnumbers.codes
        distinct := .nil
        exact_iff := ⟨fun he => (by cases he), ?_⟩
        numbers := fun _ => hnumbers
        size := fun _ => rfl
        taken := fun _ slot code hcode hne => ?_ }
    · rintro (hf | ⟨a, ha, -⟩)
      · cases hf
      · cases ha
    · simp only [RawTable.code?] at hcode
      split at hcode
      · exact absurd (Option.some.inj hcode).symm hne
      · cases hcode
  · cases h

theorem Flagged.close (h : x.Flagged r hashBits forced) :
    x.close.state.Flagged r.close hashBits forced := by
  unfold ClassIndex.close Numbering.close
  split
  · rename_i hc
    have hr : { r with closed := true } = r := by
      rw [← h.closed.symm.trans hc]
    rw [hr]
    exact h
  · rename_i ho
    refine
      { hashBits_eq := h.hashBits_eq
        closed := rfl
        counter := h.counter
        codes := fun _ => rfl
        distinct := h.distinct
        exact_iff := h.exact_iff
        numbers := fun he => ?_
        size := fun ho => by cases ho
        taken := fun _ slot code hcode => ?_ }
    · have hnumbers := (h.numbers he).close
      rwa [ClassIndex.close, if_neg ho] at hnumbers
    · simp [RawTable.code?] at hcode

theorem Flagged.exists_meet (h : x.Flagged r hashBits forced) (ho : x.closed = false)
    (he : x.exact = false) (hnew : x.codes.get? key = none)
    (htaken : x.raw.code? (x.slotOf key) ≠ some 0) :
    ∃ k ∈ r.keys, Meet hashBits k key := by
  obtain rfl := h.hashBits_eq
  have hlt : x.slotOf key < x.raw.size := h.size ho ▸ x.slotOf_lt key
  have hcode : x.raw.code? (x.slotOf key) = some (x.raw.slots.getD (x.slotOf key) 0) := if_pos hlt
  obtain ⟨k, hk, hslot⟩ := h.taken he hcode fun hzero => htaken (hzero ▸ hcode)
  rw [h.codes, Numbering.code?_eq_none_iff (h.closed ▸ ho)] at hnew
  exact ⟨k, hk, hnew k hk, hslot⟩

variable [EquivBEq κ]

theorem collide_push_iff : Collide hashBits (r.push key).keys ↔
    Collide hashBits r.keys ∨ ∃ k ∈ r.keys, Meet hashBits k key := by
  constructor
  · rintro ⟨a, ha, b, hb, hm⟩
    rcases List.mem_append.1 ha with ha | ha <;> rcases List.mem_append.1 hb with hb | hb
    · exact .inl ⟨a, ha, b, hb, hm⟩
    · exact .inr ⟨a, ha, List.mem_singleton.1 hb ▸ hm⟩
    · obtain ⟨hne, hslot⟩ := List.mem_singleton.1 ha ▸ hm
      exact .inr ⟨b, hb, BEq.comm.trans hne, hslot.symm⟩
    · rw [List.mem_singleton.1 ha, List.mem_singleton.1 hb] at hm
      exact absurd BEq.rfl (Bool.eq_false_iff.1 hm.1)
  · rintro (hc | ⟨k, hk, hm⟩)
    · exact hc.mono (List.subset_append_left _ _)
    · have hkey : key ∈ r.keys ++ [key] := List.mem_append_right _ (List.mem_singleton_self key)
      exact ⟨k, List.mem_append_left _ hk, key, hkey, hm⟩

theorem Flagged.not_meet (h : x.Flagged r hashBits forced) (ho : x.closed = false)
    (he : x.exact = false) (hfree : x.raw.code? (x.slotOf key) = some 0) {k : κ} (hk : k ∈ r.keys) :
    ¬ Meet hashBits k key := by
  obtain rfl := h.hashBits_eq
  rintro ⟨-, hslot⟩
  have hslot : x.slotOf k = x.slotOf key := hslot
  have hnumbers := h.numbers he
  cases hc : r.code? k with
  | none =>
    have hne := (Numbering.code?_eq_none_iff (h.closed ▸ ho)).1 hc k hk
    exact absurd BEq.rfl (Bool.eq_false_iff.1 hne)
  | some code =>
    have hcode := hnumbers.raw he hc
    rw [hslot, hfree] at hcode
    exact Numbering.code?_ne_zero hnumbers.lt hc (Option.some.inj hcode).symm

theorem Flagged.getOrAdd_eq (h : x.Flagged r hashBits forced) (key : κ) :
    x.getOrAdd key = x.add key := by
  unfold getOrAdd
  split
  · rfl
  · rename_i hne
    have hget : x.get key = x.exactGet key := by
      cases he : x.exact with
      | true => exact if_pos he
      | false => exact (h.numbers he).get_eq_exactGet key
    rw [hget, exactGet, KeyMap.getD] at hne ⊢
    cases hk : x.codes.get? key with
    | none =>
      rw [hk] at hne
      exact absurd rfl hne
    | some code =>
      have ho : ¬ x.closed = true := fun hc => by
        rw [h.codes, Numbering.code?, if_pos (h.closed ▸ hc)] at hk
        cases hk
      rw [ClassIndex.add, if_neg ho, hk]
      rfl

variable [LawfulHashable κ]

theorem Flagged.assign (h : x.Flagged r hashBits forced) (ho : x.closed = false)
    (hnew : x.codes.get? key = none) {raw : RawTable κ} {exact : Bool}
    (hexact : exact = true ↔ forced ∨ Collide hashBits (r.push key).keys)
    (hnumbers : exact = false → ({ x with raw, exact }.assign key).Numbers (r.push key))
    (hsize : raw.size = x.raw.size)
    (htaken : exact = false → ∀ {slot code}, raw.code? slot = some code → code ≠ 0 →
      ∃ k ∈ (r.push key).keys, x.slotOf k = slot) :
    ({ x with raw, exact }.assign key).Flagged (r.push key) hashBits forced where
  hashBits_eq := h.hashBits_eq
  closed := h.closed
  counter := by
    show x.counter + 1 = .ofNat (r.keys ++ [key]).length
    rw [h.counter_add_one, List.length_append, List.length_singleton]
  codes k := by
    rw [h.codes] at hnew
    show (x.codes.insert key (x.counter + 1)).get? k = _
    rw [KeyMap.get?_insert, Numbering.code?_push (h.closed ▸ ho) hnew, h.codes, h.counter_add_one]
  distinct := by
    rw [h.codes, Numbering.code?_eq_none_iff (h.closed ▸ ho)] at hnew
    refine List.pairwise_append.2 ⟨h.distinct, List.pairwise_singleton _ _, fun k hk l hl => ?_⟩
    rw [List.mem_singleton.1 hl]
    exact hnew k hk
  exact_iff := hexact
  numbers := hnumbers
  size _ := hsize.trans (h.size ho)
  taken := htaken

theorem Flagged.numbers_add (h : x.Flagged r hashBits forced) (he : x.exact = false) (key : κ) :
    (x.add key).state.Numbers (r.add key).2 := by
  have hone : (r.add key).2.keys.length ≤ r.keys.length + 1 := by
    unfold Numbering.add
    split
    · exact Nat.le_succ _
    · split
      · exact Nat.le_succ _
      · exact Nat.le_of_eq List.length_append
  have hle := Nat.le_trans hone (Nat.succ_le_succ (h.length_le he))
  exact ((h.numbers he).add key (Nat.lt_of_le_of_lt hle (by decide))).2

theorem Flagged.add (h : x.Flagged r hashBits forced) (key : κ) :
    (x.add key).result = (r.add key).1 ∧
      (x.add key).state.Flagged (r.add key).2 hashBits forced := by
  have hnumbers (he : x.exact = false) := h.numbers_add he key
  have hadds := x.adds key
  generalize x.add key = o at hadds hnumbers
  unfold Numbering.add at hnumbers ⊢
  rw [← h.closed, ← h.codes] at hnumbers ⊢
  cases hadds with
  | closed hc =>
    rw [if_pos hc]
    exact ⟨rfl, h⟩
  | known ho hk =>
    rw [if_neg (by simp [ho]), hk]
    exact ⟨rfl, h⟩
  | mapped ho hnew he =>
    rw [if_neg (by simp [ho]), hnew]
    refine ⟨congrArg _ h.counter_add_one, h.assign ho hnew ?_ ?_ rfl ?_⟩
    · have hsub : r.keys ⊆ (r.push key).keys := List.subset_append_left _ _
      exact ⟨fun _ => (h.exact_iff.1 he).imp_right (·.mono hsub), fun _ => he⟩
    · exact fun hf => nomatch he.symm.trans hf
    · exact fun hf => nomatch he.symm.trans hf
  | placed ho hnew he hfree =>
    rw [if_neg (by simp [ho]), hnew] at hnumbers ⊢
    refine ⟨congrArg _ h.counter_add_one, h.assign ho hnew ?_ (fun _ => hnumbers he) rfl ?_⟩
    · -- A key that this one met would stand at its slot, which is free.
      have hnone : ¬ ∃ k ∈ r.keys, Meet hashBits k key := by
        rintro ⟨k, hk, hm⟩
        exact h.not_meet ho he hfree hk hm
      rw [collide_push_iff, or_iff_left hnone]
      exact h.exact_iff
    · intro _ slot code hcode hne
      rw [RawTable.code?_record hfree] at hcode
      split at hcode
      · rename_i hslot
        exact ⟨key, List.mem_append_right _ (List.mem_singleton_self key), hslot.symm⟩
      · obtain ⟨k, hk, hslot⟩ := h.taken he hcode hne
        exact ⟨k, List.mem_append_left _ hk, hslot⟩
  | collides ho hnew he htaken =>
    rw [if_neg (by simp [ho]), hnew]
    refine ⟨congrArg _ h.counter_add_one, h.assign ho hnew ?_ nofun rfl nofun⟩
    exact iff_of_true rfl (.inr (collide_push_iff.2 (.inr (h.exists_meet ho he hnew htaken))))

theorem Flagged.getOrAddAll (h : x.Flagged r hashBits forced) (keys : List κ) :
    (x.getOrAddAll keys).state.Flagged (r.getOrAddAll keys).2 hashBits forced ∧
      (x.getOrAddAll keys).state = (x.run (keys.map .add)).2 ∧
      (x.getOrAddAll keys).log = x.logs (keys.map .add) := by
  induction keys generalizing x r with
  | nil => exact ⟨h, rfl, rfl⟩
  | cons key keys ih =>
    obtain ⟨hresult, hstate⟩ := h.add key
    have hrun : (x.run ((key :: keys).map .add)).2 =
      ((x.add key).state.run (keys.map .add)).2 := rfl
    have hlogs : x.logs ((key :: keys).map .add) =
      (x.add key).log ++ (x.add key).state.logs (keys.map .add) := rfl
    rw [ClassIndex.getOrAddAll, Numbering.getOrAddAll, Numbering.getOrAdd_eq_add, h.getOrAdd_eq,
      hrun, hlogs]
    cases hc : x.closed with
    | true =>
      have hadd : x.add key = ⟨x, .error .closed, []⟩ := if_pos hc
      have hadd' : r.add key = (.error .closed, r) := if_pos (h.closed ▸ hc)
      -- The batch stops at the first key. To go on would change nothing either.
      obtain ⟨hsame, hnone⟩ := adds_of_closed hc keys
      rw [hadd, hadd']
      exact ⟨h, hsame.symm, hnone.symm⟩
    | false =>
      obtain ⟨code, hadd, -⟩ := Numbering.add_spec (h.closed ▸ hc) key
      rw [hadd] at hresult hstate ⊢
      generalize x.add key = o at hresult hstate
      obtain ⟨y, res, log⟩ := o
      obtain rfl : res = .ok code := hresult
      obtain ⟨hlast, hstates, hlogs⟩ := ih hstate
      exact ⟨hlast, hstates, congrArg (log ++ ·) hlogs⟩

theorem Flagged.step (h : x.Flagged r hashBits forced) (op : Op κ) :
    (x.step op).2.Flagged (r.step op).2 hashBits (forced ∨ op = .useExactMap) := by
  have hof {y : ClassIndex κ} {s : Numbering κ} (hy : y.Flagged s hashBits forced)
      (hop : op ≠ .useExactMap) : y.Flagged s hashBits (forced ∨ op = .useExactMap) :=
    hy.of_iff (or_iff_left hop).symm
  cases op with
  | add key => exact hof (h.add key).2 nofun
  | get key => exact hof h nofun
  | getOrAdd key =>
    refine hof ?_ nofun
    show (x.getOrAdd key).state.Flagged (r.getOrAdd key).2 hashBits forced
    rw [h.getOrAdd_eq, Numbering.getOrAdd_eq_add]
    exact (h.add key).2
  | getOrAddAll keys => exact hof (h.getOrAddAll keys).1 nofun
  | setHash keys => exact hof (h.getOrAddAll keys).1 nofun
  | useExactMap =>
    exact
      { h with
        exact_iff := iff_of_true rfl (.inl (.inr rfl))
        numbers := nofun
        taken := nofun }
  | close => exact hof h.close nofun

theorem Flagged.run (h : x.Flagged r hashBits forced) (ops : List (Op κ)) :
    (x.run ops).2.Flagged (r.run ops).2 hashBits (forced ∨ .useExactMap ∈ ops) := by
  induction ops generalizing x r forced with
  | nil => exact h.of_iff (or_iff_left List.not_mem_nil).symm
  | cons op ops ih =>
    refine (ih (h.step op)).of_iff ?_
    rw [List.mem_cons, or_assoc, eq_comm (a := op)]

end ClassIndex

/-! ### Keys with codes -/

namespace Numbering
variable {κ : Type} [BEq κ] {r : Numbering κ} {key : κ}

theorem isSome_code?_iff :
    (r.code? key).isSome ↔ r.closed = false ∧ ∃ k ∈ r.keys, (k == key) = true := by
  cases ho : r.closed with
  | true => simp [code?, ho]
  | false =>
    rw [← Option.ne_none_iff_isSome, ne_eq, code?_eq_none_iff ho]
    simp

theorem run_append (r : Numbering κ) (ops more : List (ClassIndex.Op κ)) :
    (r.run (ops ++ more)).2 = ((r.run ops).2.run more).2 := by
  induction ops generalizing r with
  | nil => rfl
  | cons op ops ih => exact ih (r.step op).2

theorem keys_step_of_closed [EquivBEq κ] {op : ClassIndex.Op κ}
    (hc : (r.step op).2.closed = true) : (r.step op).2.keys = r.keys := by
  cases hr : r.closed with
  | true => rw [step_of_closed hr]
  | false =>
    by_cases hop : op = .close
    · rw [hop]
      rfl
    · obtain ⟨keys, -, hs⟩ := step_eq_learnAll hr op hop
      rw [hs, closed_learnAll, hr] at hc
      cases hc

end Numbering

namespace ClassIndex
variable {κ : Type} [BEq κ] [Hashable κ] {x : ClassIndex κ} {key : κ} {hashBits : Nat}
  {ops more : List (Op κ)}

theorem run_append (x : ClassIndex κ) (ops more : List (Op κ)) :
    (x.run (ops ++ more)).2 = ((x.run ops).2.run more).2 := by
  induction ops generalizing x with
  | nil => rfl
  | cons op ops ih => exact ih (x.step op).2

def Assigned (x : ClassIndex κ) (ops : List (Op κ)) (key : κ) : Prop :=
  ∃ part, part <+: ops ∧ ((x.run part).2.codes.get? key).isSome

variable [EquivBEq κ] [LawfulHashable κ]

theorem Flagged.isSome_codes_iff (h : x.Flagged {} hashBits False) (ops : List (Op κ)) (key : κ) :
    ((x.run ops).2.codes.get? key).isSome ↔ (({} : Numbering κ).run ops).2.closed = false ∧
      ∃ k ∈ (({} : Numbering κ).run ops).2.keys, (k == key) = true := by
  rw [(h.run ops).codes, Numbering.isSome_code?_iff]

theorem Flagged.assigned_iff (h : x.Flagged {} hashBits False) (ops : List (Op κ)) (key : κ) :
    x.Assigned ops key ↔ ∃ k ∈ (({} : Numbering κ).run ops).2.keys, (k == key) = true := by
  constructor
  · rintro ⟨part, ⟨rest, rfl⟩, hsome⟩
    obtain ⟨-, k, hk, heq⟩ := (h.isSome_codes_iff part key).1 hsome
    rw [Numbering.run_append]
    exact ⟨k, (Numbering.keys_prefix_run _ rest).subset hk, heq⟩
  · -- A key has its code at the latest after the step that numbers it: closing, which takes the
    -- codes away, numbers none.
    rintro ⟨k, hk, heq⟩
    induction ops using List.reverseRecOn with
    | nil => cases hk
    | append_singleton ops op ih =>
      by_cases hold : k ∈ (({} : Numbering κ).run ops).2.keys
      · obtain ⟨part, hpart, hsome⟩ := ih hold
        exact ⟨part, hpart.trans (List.prefix_append ops [op]), hsome⟩
      · refine ⟨_, List.prefix_refl _, (h.isSome_codes_iff _ key).2 ⟨?_, k, hk, heq⟩⟩
        rw [Numbering.run_append] at hk ⊢
        by_contra hc
        rw [Bool.not_eq_false] at hc
        exact hold (Numbering.keys_step_of_closed hc ▸ hk)

theorem Meet.congr {a a' b b' : κ} (ha : (a' == a) = true) (hb : (b' == b) = true) :
    Meet hashBits a' b' ↔ Meet hashBits a b := by
  unfold Meet
  rw [hash_eq ha, hash_eq hb, BEq.congr_left ha, BEq.congr_right hb]

theorem Flagged.collide_iff (h : x.Flagged {} hashBits False) (ops : List (Op κ)) :
    Collide hashBits (({} : Numbering κ).run ops).2.keys ↔
      ∃ a b, x.Assigned ops a ∧ x.Assigned ops b ∧ Meet hashBits a b := by
  simp only [h.assigned_iff]
  constructor
  · rintro ⟨a, ha, b, hb, hm⟩
    exact ⟨a, b, ⟨a, ha, BEq.rfl⟩, ⟨b, hb, BEq.rfl⟩, hm⟩
  · rintro ⟨a, b, ⟨k, hk, hka⟩, ⟨l, hl, hlb⟩, hm⟩
    exact ⟨k, hk, l, hl, (Meet.congr hka hlb).2 hm⟩

/-- After a run an open index that uses its raw table is asked to add a key without a code that
meets a key with a code. -/
def FirstMeets (x : ClassIndex κ) (hashBits : Nat) (ops : List (Op κ)) (key : κ) : Prop :=
  (x.run ops).2.closed = false ∧ (x.run ops).2.exact = false ∧ ¬ x.Assigned ops key ∧
    ∃ k, x.Assigned ops k ∧ Meet hashBits k key

theorem Flagged.add_cases (h : x.Flagged {} hashBits False) (ops : List (Op κ)) (key : κ) :
    (x.FirstMeets hashBits ops key ∧ ((x.run ops).2.add key).state.exact = true ∧
      ((x.run ops).2.add key).log =
        [.slotCollision ((x.run ops).2.slotOf key) ((x.run ops).2.counter + 1)]) ∨
    ¬ x.FirstMeets hashBits ops key ∧ ((x.run ops).2.add key).log = [] ∧
      ((x.run ops).2.add key).state.exact = (x.run ops).2.exact := by
  have hrun := h.run ops
  have hadds := (x.run ops).2.adds key
  generalize (x.run ops).2.add key = o at hadds
  unfold FirstMeets
  cases hadds with
  | closed hc => simp [hc]
  | known ho hk =>
    have hassigned : x.Assigned ops key := ⟨ops, List.prefix_refl ops, by rw [hk]; rfl⟩
    exact .inr ⟨fun hm => hm.2.2.1 hassigned, rfl, rfl⟩
  | mapped ho hnew he =>
    refine .inr ⟨fun hm => ?_, rfl, rfl⟩
    rw [he] at hm
    exact nomatch hm.2.1
  | placed ho hnew he hfree =>
    refine .inr ⟨?_, rfl, rfl⟩
    rintro ⟨-, -, -, k, hk, hm⟩
    obtain ⟨l, hl, heq⟩ := (h.assigned_iff ops k).1 hk
    exact hrun.not_meet ho he hfree hl ((Meet.congr heq BEq.rfl).2 hm)
  | collides ho hnew he htaken =>
    obtain ⟨k, hk, hm⟩ := hrun.exists_meet ho he hnew htaken
    refine .inl ⟨⟨ho, he, fun hassigned => ?_, k, ?_, hm⟩, rfl, rfl⟩
    · obtain ⟨l, hl, heq⟩ := (h.assigned_iff ops key).1 hassigned
      rw [hrun.codes, Numbering.code?_eq_none_iff (hrun.closed ▸ ho)] at hnew
      rw [hnew l hl] at heq
      cases heq
    · exact (h.assigned_iff ops k).2 ⟨k, hk, BEq.rfl⟩

/-- When an index turns to the exact map: when it is told to, or else on the first key that meets
another one, which is when it warns. -/
structure FlipsOnMeeting (x : ClassIndex κ) (hashBits : Nat) (ops : List (Op κ)) : Prop where
  exact_iff : (x.run ops).2.exact = true ↔ .useExactMap ∈ ops ∨
    ∃ a b, x.Assigned ops a ∧ x.Assigned ops b ∧ Meet hashBits a b
  probe : ∀ key, (x.run (ops ++ [.get key])).2 = (x.run ops).2
  stays : (x.run ops).2.exact = true → ∀ more, (x.run (ops ++ more)).2.exact = true ∧
    warnings ((x.run ops).2.logs more) = 0
  once : warnings (x.logs ops) ≤ 1
  warns : ∀ key, x.FirstMeets hashBits ops key → ((x.run ops).2.add key).state.exact = true ∧
    ((x.run ops).2.add key).log =
      [.slotCollision ((x.run ops).2.slotOf key) ((x.run ops).2.counter + 1)]
  silent : ∀ key, ¬ x.FirstMeets hashBits ops key → ((x.run ops).2.add key).log = [] ∧
    ((x.run ops).2.add key).state.exact = (x.run ops).2.exact
  getOrAdd : ∀ key, (x.run ops).2.getOrAdd key = (x.run ops).2.add key
  batch : ∀ keys, ((x.run ops).2.getOrAddAll keys).state = (x.run (ops ++ keys.map .add)).2 ∧
    ((x.run ops).2.getOrAddAll keys).log = (x.run ops).2.logs (keys.map .add)
  setHash : ∀ keys, ((x.run ops).2.setHash keys).state = (x.run (ops ++ keys.map .add)).2 ∧
    ((x.run ops).2.setHash keys).log = (x.run ops).2.logs (keys.map .add)
  crowded : ∀ keys, Numbering.Distinct keys → (∀ k ∈ keys, x.Assigned ops k) →
    2 ^ hashBits < keys.length → (x.run ops).2.exact = true

theorem Flagged.flipsOnMeeting (h : x.Flagged {} hashBits False) (ops : List (Op κ)) :
    x.FlipsOnMeeting hashBits ops := by
  have hrun := h.run ops
  have hiff : (x.run ops).2.exact = true ↔ .useExactMap ∈ ops ∨
      ∃ a b, x.Assigned ops a ∧ x.Assigned ops b ∧ Meet hashBits a b := by
    rw [hrun.exact_iff, h.collide_iff, false_or]
  have hbatch (keys : List κ) := (hrun.getOrAddAll keys).2
  refine
    { exact_iff := hiff
      probe := fun key => run_append x ops [.get key]
      stays := fun he more => ?_
      once := ?_
      warns := fun key hm => ?_
      silent := fun key hm => ?_
      getOrAdd := hrun.getOrAdd_eq
      batch := fun keys => ?_
      setHash := fun keys => ?_
      crowded := fun keys hd hks hlt => ?_ }
  · rw [run_append]
    exact exact_run he more
  · have hle := x.warnings_run ops
    have hlast := Bool.toNat_le (x.run ops).2.exact
    omega
  · exact ((h.add_cases ops key).resolve_right fun hs => hs.1 hm).2
  · exact ((h.add_cases ops key).resolve_left fun hw => hm hw.1).2
  · rw [run_append]
    exact hbatch keys
  · rw [run_append]
    exact hbatch keys
  · by_contra he
    have hle : keys.length ≤ 2 ^ hashBits := by
      refine length_le_of_not_collide ?_ hd fun ⟨a, ha, b, hb, hm⟩ => ?_
      · obtain rfl := h.hashBits_eq
        exact Nat.le_trans x.le_twentyFour (by decide)
      · exact he (hiff.2 (.inr ⟨a, b, hks a ha, hks b hb, hm⟩))
    exact absurd hlt (Nat.not_lt.2 hle)

/-- Whatever the hash and the width, a class index gives its raw table up exactly when it is told to
or when two keys with codes meet in it. -/
theorem flipsOnMeeting_of_run {hashBits : Nat} (h2 : 2 ≤ hashBits) (h24 : hashBits ≤ 24) :
    ∃ (x : ClassIndex κ) (log : List Event), ClassIndex.create hashBits = .ok (x, log) ∧
      ∀ ops : List (Op κ), x.FlipsOnMeeting hashBits ops := by
  obtain ⟨x, log, hx, -⟩ := exists_create (κ := κ) h2 h24
  exact ⟨x, log, hx, fun ops => (flagged_of_create hx).flipsOnMeeting ops⟩

/-- Of two keys with one hash the second makes the index warn, and asking for it before does not. -/
theorem flipsOnMeeting_of_run_bucket :
    ∃ (x : ClassIndex Key) (log : List Event), ClassIndex.create 4 = .ok (x, log) ∧
      x.FlipsOnMeeting 4 [.add (.bucket 7 1), .get (.bucket 7 2), .add (.bucket 7 2)] ∧
      (x.run [.add (.bucket 7 1), .get (.bucket 7 2)]).2.exact = false ∧
      (x.run [.add (.bucket 7 1), .get (.bucket 7 2), .add (.bucket 7 2)]).2.exact = true ∧
      warnings (x.logs [.add (.bucket 7 1), .get (.bucket 7 2), .add (.bucket 7 2)]) = 1 := by
  obtain ⟨x, log, hx, h⟩ := flipsOnMeeting_of_run (κ := Key) (by decide : 2 ≤ 4) (by decide)
  refine ⟨x, log, hx, h _, ?_⟩
  cases hx
  decide +kernel

end ClassIndex
end EntityStore
