import EntityStore.Proofs.ClassIndex.Run
import Mathlib.Data.List.Nodup
import Mathlib.Data.List.Perm.Subperm

/-! How a numbering grows. Numbers are kept for good, so what was known of keys and their codes
stays true; and as long as there are fewer than `2 ^ 32` keys, no two of them get one code. -/

namespace EntityStore

def ClassIndex.Op.keys {κ : Type} : ClassIndex.Op κ → List κ
  | .add key | .get key | .getOrAdd key => [key]
  | .getOrAddAll keys | .setHash keys => keys
  | .useExactMap | .close => []

namespace Numbering
variable {κ : Type} {r s : Numbering κ} {types keys : List κ} {key : κ} {code : UInt32}
  {op : ClassIndex.Op κ}

/-- An open numbering of distinct keys, all of which stand in a list. -/
structure Within (r : Numbering κ) (types : List κ) : Prop where
  isOpen : r.closed = false
  nodup : r.keys.Nodup
  subset : r.keys ⊆ types

theorem within_empty : ({} : Numbering κ).Within types := ⟨rfl, .nil, List.nil_subset _⟩

theorem Within.length_le (h : r.Within types) : r.keys.length ≤ types.length :=
  (h.nodup.subperm h.subset).length_le

variable [BEq κ]

def Extends (r s : Numbering κ) : Prop :=
  ∀ ⦃key code⦄, r.code? key = some code → s.code? key = some code

theorem Extends.refl (r : Numbering κ) : r.Extends r := fun _ _ => id

theorem Extends.trans {t : Numbering κ} (h : r.Extends s) (h' : s.Extends t) : r.Extends t :=
  fun _ _ hc => h' (h hc)

theorem get_eq_of_code? (h : r.code? key = some code) : r.get key = code := by
  unfold get
  rw [h]
  rfl

theorem Extends.get_eq (h : r.Extends s) (hk : ∃ code, r.code? key = some code) :
    r.get key = s.get key := by
  obtain ⟨code, hc⟩ := hk
  rw [get_eq_of_code? hc, get_eq_of_code? (h hc)]

theorem getOrAddAll_of_known (hks : ∀ key ∈ keys, ∃ code, r.code? key = some code) :
    r.getOrAddAll keys = (.ok (keys.map r.get), r) := by
  induction keys with
  | nil => rfl
  | cons key keys ih =>
    obtain ⟨code, hc⟩ := hks key (List.mem_cons_self ..)
    rw [getOrAddAll, getOrAdd, hc]
    simp only [ih fun k hk => hks k (List.mem_cons_of_mem _ hk), List.map_cons, get_eq_of_code? hc]
    rfl

theorem getOrAdd_eq_add (r : Numbering κ) (key : κ) : r.getOrAdd key = r.add key := by
  unfold getOrAdd add
  cases hc : r.code? key with
  | none => rfl
  | some code =>
    have ho : ¬ r.closed = true := fun ho => by
      rw [code?, if_pos ho] at hc
      cases hc
    rw [if_neg ho]

theorem getOrAddAll_of_closed (hc : r.closed = true) (keys : List κ) :
    r.getOrAddAll keys = (if keys.isEmpty then .ok [] else .error .closed, r) := by
  cases keys with
  | nil => rfl
  | cons key keys =>
    rw [getOrAddAll, getOrAdd_eq_add, add, if_pos hc]
    rfl

theorem step_of_closed (hc : r.closed = true) : (r.step op).2 = r := by
  have hadd (key : κ) : (r.add key).2 = r := by rw [add, if_pos hc]
  have hbatch (keys : List κ) : (r.getOrAddAll keys).2 = r := by rw [getOrAddAll_of_closed hc]
  cases op with
  | add key => exact hadd key
  | getOrAdd key =>
    show (r.getOrAdd key).2 = r
    rw [getOrAdd_eq_add, hadd]
  | getOrAddAll keys => exact hbatch keys
  | setHash keys => exact hbatch keys
  | get key => rfl
  | useExactMap => rfl
  | close =>
    show { r with closed := true } = r
    rw [← hc]

theorem code?_inj (hlt : r.keys.length < UInt32.size) [EquivBEq κ] {a b : κ}
    (ha : r.code? a = some code) (hb : r.code? b = some code) : (a == b) = true := by
  unfold code? at ha hb
  split at ha
  · cases ha
  · rename_i ho
    rw [if_neg ho] at hb
    obtain ⟨i, hi, hia⟩ := Option.map_eq_some_iff.1 ha
    obtain ⟨j, hj, hjb⟩ := Option.map_eq_some_iff.1 hb
    obtain ⟨hi, hai, -⟩ := List.findIdx?_eq_some_iff_getElem.1 hi
    obtain ⟨hj, hbj, -⟩ := List.findIdx?_eq_some_iff_getElem.1 hj
    have hij : i + 1 = j + 1 := by
      have heq := congrArg UInt32.toNat (hia.trans hjb.symm)
      have hwi : i + 1 < UInt32.size := by show i + 1 < UInt32.size; omega
      have hwj : j + 1 < UInt32.size := by show j + 1 < UInt32.size; omega
      rwa [UInt32.toNat_ofNat_of_lt' hwi, UInt32.toNat_ofNat_of_lt' hwj] at heq
    obtain rfl := Nat.succ.inj hij
    exact BEq.trans (BEq.symm hai) hbj

/-! ### Open numberings

An open numbering takes every key, so its answers are the numbers that the keys have afterwards. -/

/-- What an open numbering becomes when a key is asked for. -/
def learn (r : Numbering κ) (key : κ) : Numbering κ :=
  if (r.code? key).isSome then r else r.push key

def learnAll (r : Numbering κ) (keys : List κ) : Numbering κ := keys.foldl learn r

theorem learn_of_code? (h : r.code? key = some code) : r.learn key = r := by
  rw [learn, h]
  rfl

theorem learn_of_new (h : r.code? key = none) : r.learn key = r.push key := by
  rw [learn, h]
  rfl

@[simp] theorem closed_learn (r : Numbering κ) (key : κ) : (r.learn key).closed = r.closed := by
  unfold learn
  split <;> rfl

@[simp] theorem closed_learnAll (r : Numbering κ) (keys : List κ) :
    (r.learnAll keys).closed = r.closed := by
  induction keys generalizing r with
  | nil => rfl
  | cons key keys ih => exact (ih (r.learn key)).trans (r.closed_learn key)

def Distinct (keys : List κ) : Prop := keys.Pairwise fun a b => (a == b) = false

instance (keys : List κ) : Decidable (Distinct keys) :=
  inferInstanceAs (Decidable (keys.Pairwise _))

theorem distinct_iff_nodup [LawfulBEq κ] : Distinct keys ↔ keys.Nodup :=
  List.Pairwise.iff fun _ _ => beq_eq_false_iff_ne

section
variable [EquivBEq κ]

theorem extends_learn (ho : r.closed = false) (key : κ) : r.Extends (r.learn key) := by
  intro k code hk
  cases hc : r.code? key with
  | some c => rwa [learn_of_code? hc]
  | none =>
    rw [learn_of_new hc]
    exact code?_push_of_some ho hc hk

theorem add_spec (ho : r.closed = false) (key : κ) :
    ∃ code, r.add key = (.ok code, r.learn key) ∧ (r.learn key).code? key = some code := by
  unfold add
  rw [if_neg (by simp [ho])]
  cases hc : r.code? key with
  | some code =>
    rw [learn_of_code? hc]
    exact ⟨code, rfl, hc⟩
  | none =>
    rw [learn_of_new hc]
    refine ⟨_, rfl, ?_⟩
    rw [code?_push ho hc, if_pos BEq.rfl]

theorem extends_learnAll (ho : r.closed = false) (keys : List κ) : r.Extends (r.learnAll keys) := by
  induction keys generalizing r with
  | nil => exact Extends.refl r
  | cons key keys ih =>
    have hrest : (r.learn key).closed = false := (r.closed_learn key).trans ho
    exact (extends_learn ho key).trans (ih hrest)

theorem known_of_mem (ho : r.closed = false) (hk : key ∈ keys) :
    ∃ code, (r.learnAll keys).code? key = some code := by
  induction keys generalizing r with
  | nil => cases hk
  | cons k keys ih =>
    have hrest : (r.learn k).closed = false := (r.closed_learn k).trans ho
    rcases List.mem_cons.1 hk with rfl | hk
    · obtain ⟨code, -, hc⟩ := add_spec ho key
      exact ⟨code, extends_learnAll hrest keys hc⟩
    · exact ih hrest hk

theorem getOrAddAll_eq (ho : r.closed = false) (keys : List κ) :
    r.getOrAddAll keys = (.ok (keys.map (r.learnAll keys).get), r.learnAll keys) := by
  induction keys generalizing r with
  | nil => rfl
  | cons key keys ih =>
    have hrest : (r.learn key).closed = false := (r.closed_learn key).trans ho
    obtain ⟨code, hadd, hc⟩ := add_spec ho key
    have hget : (r.learnAll (key :: keys)).get key = code :=
      get_eq_of_code? (extends_learnAll hrest keys hc)
    rw [getOrAddAll, getOrAdd_eq_add, hadd]
    simp only [ih hrest, List.map_cons, hget]
    rfl

theorem nodup_map_get_iff (hlt : r.keys.length < UInt32.size)
    (hks : ∀ key ∈ keys, ∃ code, r.code? key = some code) :
    (keys.map r.get).Nodup ↔ Distinct keys := by
  unfold Distinct List.Nodup
  rw [List.pairwise_map]
  refine List.Pairwise.iff_of_mem fun {a b} ha hb => ?_
  obtain ⟨code, hca⟩ := hks a ha
  obtain ⟨code', hcb⟩ := hks b hb
  rw [get_eq_of_code? hca, get_eq_of_code? hcb, ← Bool.not_eq_true]
  refine not_congr ⟨fun heq => ?_, fun heq => ?_⟩
  · exact code?_inj hlt hca (heq ▸ hcb)
  · rw [code?_congr r heq, hcb] at hca
    exact (Option.some.inj hca).symm

theorem step_eq_learnAll (ho : r.closed = false) (op : ClassIndex.Op κ) (hop : op ≠ .close) :
    ∃ keys, keys ⊆ op.keys ∧ (r.step op).2 = r.learnAll keys := by
  have hadd (key : κ) : (r.add key).2 = r.learn key := by
    obtain ⟨code, hadd, -⟩ := add_spec ho key
    rw [hadd]
  have hbatch (keys : List κ) : (r.getOrAddAll keys).2 = r.learnAll keys := by
    rw [getOrAddAll_eq ho]
  cases op with
  | add key => exact ⟨[key], List.Subset.refl _, hadd key⟩
  | getOrAdd key =>
    refine ⟨[key], List.Subset.refl _, ?_⟩
    show (r.getOrAdd key).2 = r.learn key
    rw [getOrAdd_eq_add, hadd]
  | getOrAddAll keys => exact ⟨keys, List.Subset.refl _, hbatch keys⟩
  | setHash keys => exact ⟨keys, List.Subset.refl _, hbatch keys⟩
  | get key => exact ⟨[], List.nil_subset _, rfl⟩
  | useExactMap => exact ⟨[], List.nil_subset _, rfl⟩
  | close => exact absurd rfl hop

theorem extends_step (ho : (r.step op).2.closed = false) :
    r.closed = false ∧ r.Extends (r.step op).2 := by
  have hop : op ≠ .close := by
    rintro rfl
    cases ho
  cases hr : r.closed with
  | true =>
    rw [step_of_closed hr, hr] at ho
    cases ho
  | false =>
    obtain ⟨keys, -, hs⟩ := step_eq_learnAll hr op hop
    rw [hs]
    exact ⟨rfl, extends_learnAll hr keys⟩

theorem extends_run {ops : List (ClassIndex.Op κ)} (ho : (r.run ops).2.closed = false) :
    r.closed = false ∧ r.Extends (r.run ops).2 := by
  induction ops generalizing r with
  | nil => exact ⟨ho, Extends.refl r⟩
  | cons op ops ih =>
    obtain ⟨hstep, hrest⟩ := ih ho
    obtain ⟨hr, hop⟩ := extends_step hstep
    exact ⟨hr, hop.trans hrest⟩

end

variable [LawfulBEq κ]

theorem Within.mem_of_code? (h : r.Within types) (hc : r.code? key = some code) : key ∈ types := by
  unfold code? at hc
  rw [if_neg (by simp [h.isOpen])] at hc
  obtain ⟨i, hi, -⟩ := Option.map_eq_some_iff.1 hc
  obtain ⟨hi, heq, -⟩ := List.findIdx?_eq_some_iff_getElem.1 hi
  apply h.subset
  rw [← eq_of_beq heq]
  exact List.getElem_mem hi

theorem Within.not_mem_of_code? (h : r.Within types) (hc : r.code? key = none) :
    key ∉ r.keys := by
  intro hmem
  simpa using (code?_eq_none_iff h.isOpen).1 hc key hmem

theorem Within.code?_inj (h : r.Within types) (hlt : types.length < UInt32.size) {a b : κ}
    (ha : r.code? a = some code) (hb : r.code? b = some code) : a = b :=
  eq_of_beq (Numbering.code?_inj (Nat.lt_of_le_of_lt h.length_le hlt) ha hb)

theorem Within.learn (h : r.Within types) (hk : key ∈ types) : (r.learn key).Within types := by
  cases hc : r.code? key with
  | some code => rwa [learn_of_code? hc]
  | none =>
    rw [learn_of_new hc]
    refine ⟨h.isOpen, ?_, ?_⟩
    · refine List.nodup_append.2 ⟨h.nodup, List.nodup_singleton key, fun a ha b hb hab => ?_⟩
      rw [List.mem_singleton.1 hb] at hab
      exact h.not_mem_of_code? hc (hab ▸ ha)
    · exact List.append_subset.2 ⟨h.subset, by simpa using hk⟩

theorem Within.learnAll (h : r.Within types) (hks : keys ⊆ types) :
    (r.learnAll keys).Within types := by
  induction keys generalizing r with
  | nil => exact h
  | cons key keys ih =>
    obtain ⟨hk, hks⟩ := List.cons_subset.1 hks
    exact ih (h.learn hk) hks

theorem Within.getOrAddAll_spec (h : r.Within types) (hks : keys ⊆ types) :
    ∃ s, r.getOrAddAll keys = (.ok (keys.map s.get), s) ∧ s.Within types ∧ r.Extends s ∧
      ∀ key ∈ keys, ∃ code, s.code? key = some code :=
  ⟨r.learnAll keys, getOrAddAll_eq h.isOpen keys, h.learnAll hks, extends_learnAll h.isOpen keys,
    fun _ hk => known_of_mem h.isOpen hk⟩

theorem Within.nodup_map_get_iff (h : r.Within types) (hlt : types.length < UInt32.size)
    (hks : ∀ key ∈ keys, ∃ code, r.code? key = some code) :
    (keys.map r.get).Nodup ↔ keys.Nodup := by
  have hbound := Nat.lt_of_le_of_lt h.length_le hlt
  exact (Numbering.nodup_map_get_iff hbound hks).trans distinct_iff_nodup

theorem Within.setHash_spec (h : r.Within types) (hlt : types.length < UInt32.size)
    (hks : keys ⊆ types) :
    ∃ s, (r.setHash keys).2 = s ∧ s.Within types ∧ r.Extends s ∧
      (∀ key ∈ keys, ∃ code, s.code? key = some code) ∧
      (keys.Nodup → (r.setHash keys).1 = .ok (canonicalHash (sortCodes (keys.map s.get)))) ∧
      (¬ keys.Nodup → ∃ e, (r.setHash keys).1 = .error e) := by
  obtain ⟨s, hs, hsw, hrs, hknown⟩ := h.getOrAddAll_spec hks
  have hiff := hsw.nodup_map_get_iff hlt hknown
  have hnone := firstRepeated?_eq_none_iff [] (keys.map s.get)
  unfold setHash
  rw [hs]
  refine ⟨s, rfl, hsw, hrs, hknown, fun hnodup => ?_, fun hnodup => ?_⟩
  · have hr := hnone.2 ⟨hiff.2 hnodup, by simp⟩
    simp only [Except.bind, hr]
  · cases hr : firstRepeated? [] (keys.map s.get) with
    | none => exact absurd (hiff.1 (hnone.1 hr).1) hnodup
    | some code =>
      refine ⟨.duplicateType code, ?_⟩
      simp only [Except.bind, hr]

theorem Within.setHash_of_known (h : r.Within types) (hlt : types.length < UInt32.size)
    (hks : keys ⊆ types) (hknown : ∀ key ∈ keys, ∃ code, r.code? key = some code)
    (hnodup : keys.Nodup) :
    (r.setHash keys).1 = .ok (canonicalHash (sortCodes (keys.map r.get))) := by
  obtain ⟨s, -, -, hrs, -, hok, -⟩ := h.setHash_spec hlt hks
  have hcodes : keys.map r.get = keys.map s.get :=
    List.map_congr_left fun key hk => hrs.get_eq (hknown key hk)
  rw [hok hnodup, hcodes]

theorem Within.step (h : r.Within types) (op : ClassIndex.Op κ) (hop : op ≠ .close)
    (hks : op.keys ⊆ types) : (r.step op).2.Within types ∧ r.Extends (r.step op).2 := by
  obtain ⟨keys, hsub, hs⟩ := step_eq_learnAll h.isOpen op hop
  rw [hs]
  exact ⟨h.learnAll (List.Subset.trans hsub hks), extends_learnAll h.isOpen keys⟩

end Numbering
end EntityStore
