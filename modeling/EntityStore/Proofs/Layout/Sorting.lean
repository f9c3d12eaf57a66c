import EntityStore.Proofs.Layout.Canonical
import Mathlib.Data.List.Sort

/-! Sorting by a layout. Components are sorted by the positions that their types have in the layout,
those of other types having one behind all of them. The sort keeps the order of components of one
rank, so it is known up to that order by what the ranks are. -/

namespace EntityStore

section
variable {α : Type} {le : α → α → Bool} {p : α → Bool}

theorem insertSorted_eq_orderedInsert (le : α → α → Bool) (a : α) (xs : List α) :
    insertSorted le a xs = xs.orderedInsert (fun a b => le a b = true) a := by
  induction xs with
  | nil => rfl
  | cons b rest ih =>
    unfold insertSorted
    rw [List.orderedInsert_cons, ih]

theorem sortBy_eq_insertionSort (le : α → α → Bool) (xs : List α) :
    sortBy le xs = xs.insertionSort fun a b => le a b = true := by
  induction xs with
  | nil => rfl
  | cons a rest ih => rw [sortBy, ih, insertSorted_eq_orderedInsert, List.insertionSort_cons]

/-- Stability: what may stand in any order keeps the order that it has. -/
theorem filter_sortBy (xs : List α) (h : ∀ a b, p a = true → p b = true → le a b = true) :
    (sortBy le xs).filter p = xs.filter p := by
  have hpair : (xs.filter p).Pairwise fun a b => le a b = true := by
    refine List.pairwise_iff_forall_sublist.2 fun {a b} hab => h a b ?_ ?_
    · exact (List.mem_filter.1 (hab.subset (List.mem_cons_self ..))).2
    · exact (List.mem_filter.1 (hab.subset (by simp))).2
  have hsub : (xs.filter p).Sublist (sortBy le xs) :=
    sortBy_eq_insertionSort le xs ▸ List.sublist_insertionSort hpair List.filter_sublist
  have hkept : (xs.filter p).Sublist ((sortBy le xs).filter p) := by
    simpa using hsub.filter p
  exact (hkept.eq_of_length ((sortBy_perm le xs).filter p).length_eq.symm).symm

theorem eq_filter_append_filter {xs : List α} (h : xs.Pairwise fun a b => p b = true → p a = true) :
    xs = xs.filter p ++ xs.filter fun a => !p a := by
  induction xs with
  | nil => rfl
  | cons a xs ih =>
    obtain ⟨ha, hxs⟩ := List.pairwise_cons.1 h
    cases hp : p a with
    | true => simpa [hp] using ih hxs
    | false =>
      have hnone (b : α) (hb : b ∈ xs) : p b = false := by
        by_contra hpb
        rw [ha b hb (by simpa using hpb)] at hp
        cases hp
      have hfirst : xs.filter p = [] := List.filter_eq_nil_iff.2 fun b hb => by simp [hnone b hb]
      have hlast : xs.filter (fun b => !p b) = xs :=
        List.filter_eq_self.2 fun b hb => by simp [hnone b hb]
      simp [hp, hfirst, hlast]

end

namespace Layout
variable {κ α : Type} [BEq κ] {l : Layout κ} {t u : κ} {type : α → κ} {cs : List α}

theorem pairwise_sort (l : Layout κ) (type : α → κ) (cs : List α) :
    (l.sort type cs).Pairwise fun a b => l.rank (type a) ≤ l.rank (type b) := by
  refine (pairwise_sortBy (fun a b => ?_) (fun a b c => ?_) cs).imp of_decide_eq_true
  · simpa using Nat.le_total (l.rank (type a)) (l.rank (type b))
  · simpa using Nat.le_trans

/-- The components of types in the layout, in the order of the layout. -/
def known (l : Layout κ) (type : α → κ) (cs : List α) : List α :=
  (l.sort type cs).filter fun c => l.contains (type c)

theorem pairwise_known (l : Layout κ) (type : α → κ) (cs : List α) :
    (l.known type cs).Pairwise fun a b => l.rank (type a) ≤ l.rank (type b) :=
  (l.pairwise_sort type cs).filter _

theorem sort_eq_self (h : cs.Pairwise fun a b => l.rank (type a) ≤ l.rank (type b)) :
    l.sort type cs = cs :=
  sortBy_eq_self (h.imp decide_eq_true)

theorem isSorted_iff_pairwise : l.isSorted type cs = true ↔
    cs.Pairwise fun a b => l.rank (type a) ≤ l.rank (type b) := by
  have htrans : IsTrans α fun a b => l.rank (type a) ≤ l.rank (type b) :=
    ⟨fun _ _ _ => Nat.le_trans⟩
  rw [← List.isChain_iff_pairwise]
  induction cs with
  | nil => simp [isSorted]
  | cons a cs ih =>
    cases cs with
    | nil => simp [isSorted]
    | cons b cs =>
      unfold isSorted
      rw [Bool.and_eq_true, decide_eq_true_iff, List.isChain_cons_cons]
      exact and_congr_right' ih

theorem isSorted_iff : l.isSorted type cs = true ↔ l.sort type cs = cs := by
  rw [isSorted_iff_pairwise]
  exact ⟨sort_eq_self, fun h => h ▸ l.pairwise_sort type cs⟩

variable [LawfulBEq κ]

/-! ### Ranks -/

theorem rank_of_not_mem (ht : t ∉ l.types) : l.rank t = l.size := by
  rw [rank, offsetOf?_eq_none_iff.2 ht]
  rfl

theorem getElem?_rank (ht : t ∈ l.types) : l.types[l.rank t]? = some t := by
  cases h : l.offsetOf? t with
  | none => exact absurd ht (offsetOf?_eq_none_iff.1 h)
  | some i =>
    have hrank : l.rank t = i := by
      rw [rank, h]
      rfl
    unfold offsetOf? at h
    obtain ⟨hi, heq, -⟩ := List.findIdx?_eq_some_iff_getElem.1 h
    rw [hrank, List.getElem?_eq_getElem hi, eq_of_beq heq]

theorem rank_lt_size_iff : l.rank t < l.size ↔ t ∈ l.types := by
  constructor
  · intro h
    by_contra ht
    exact absurd h (Nat.not_lt.2 (Nat.le_of_eq (rank_of_not_mem ht).symm))
  · intro ht
    exact (List.getElem?_eq_some_iff.1 (getElem?_rank ht)).1

theorem eq_of_rank_eq (ht : t ∈ l.types) (h : l.rank t = l.rank u) : t = u := by
  have hu : u ∈ l.types := rank_lt_size_iff.1 (h ▸ rank_lt_size_iff.2 ht)
  exact Option.some.inj ((getElem?_rank ht).symm.trans (h ▸ getElem?_rank hu))

theorem rank_getElem (hl : l.types.Nodup) {i : Nat} (hi : i < l.types.length) :
    l.rank l.types[i] = i := by
  rw [rank, (offsetOf?_eq_some_iff hl).2 (List.getElem?_eq_getElem hi)]
  rfl

theorem Arranges.pairwise_rank {code : κ → UInt32} {types : List κ} (h : l.Arranges code types) :
    l.types.Pairwise fun a b => l.rank a ≤ l.rank b := by
  refine List.pairwise_iff_getElem.2 fun i j hi hj hij => ?_
  rw [rank_getElem h.nodup hi, rank_getElem h.nodup hj]
  exact Nat.le_of_lt hij

theorem Arranges.code_le_of_rank_le {code : κ → UInt32} {types : List κ}
    (h : l.Arranges code types) (ht : t ∈ l.types) (hu : u ∈ l.types) (hle : l.rank t ≤ l.rank u) :
    code t ≤ code u := by
  rcases Nat.lt_or_eq_of_le hle with hlt | heq
  · obtain ⟨hi, hti⟩ := List.getElem?_eq_some_iff.1 (getElem?_rank ht)
    obtain ⟨hj, huj⟩ := List.getElem?_eq_some_iff.1 (getElem?_rank hu)
    have hcode := List.pairwise_iff_getElem.1 h.pairwise _ _ hi hj hlt
    rw [hti, huj] at hcode
    exact UInt32.le_of_lt hcode
  · rw [eq_of_rank_eq ht heq]
    exact UInt32.le_refl _

/-! ### Sorted components -/

theorem filter_sort_of_type (t : κ) :
    (l.sort type cs).filter (type · == t) = cs.filter (type · == t) := by
  refine filter_sortBy cs fun a b ha hb => ?_
  rw [eq_of_beq ha, eq_of_beq hb]
  exact decide_eq_true (Nat.le_refl _)

theorem contains_eq_false_iff : l.contains t = false ↔ t ∉ l.types := by
  rw [← contains_iff, Bool.not_eq_true]

theorem mem_known {c : α} : c ∈ l.known type cs ↔ c ∈ cs ∧ type c ∈ l.types := by
  unfold known
  rw [List.mem_filter, contains_iff]
  exact and_congr_left' (sortBy_perm _ cs).mem_iff

theorem filter_known {t : κ} (ht : t ∈ l.types) :
    (l.known type cs).filter (type · == t) = cs.filter (type · == t) := by
  rw [known, List.filter_filter, ← filter_sort_of_type (l := l)]
  refine List.filter_congr fun c _ => ?_
  refine Bool.and_eq_left_iff_imp.2 fun heq => (contains_iff l _).2 ?_
  rwa [eq_of_beq heq]

theorem sort_eq_append :
    l.sort type cs = l.known type cs ++ cs.filter fun c => !l.contains (type c) := by
  have hlast : (l.sort type cs).filter (fun c => !l.contains (type c)) =
      cs.filter fun c => !l.contains (type c) := by
    refine filter_sortBy cs fun a b ha hb => ?_
    rw [Bool.not_eq_true', contains_eq_false_iff] at ha hb
    rw [rank_of_not_mem ha, rank_of_not_mem hb]
    exact decide_eq_true (Nat.le_refl _)
  rw [← hlast]
  refine eq_filter_append_filter ((l.pairwise_sort type cs).imp fun {a b} hab hb => ?_)
  rw [contains_iff, ← rank_lt_size_iff] at hb ⊢
  exact Nat.lt_of_le_of_lt hab hb

variable {code : κ → UInt32} {types : List κ}

theorem Arranges.pairwise_code (h : l.Arranges code types) :
    (l.known type cs).Pairwise fun a b => code (type a) ≤ code (type b) :=
  (l.pairwise_known type cs).imp_of_mem fun ha hb hab =>
    h.code_le_of_rank_le (mem_known.1 ha).2 (mem_known.1 hb).2 hab

theorem sort_eq_sort {cs' : List α} (hcs : (cs.map type).Nodup)
    (hout : ∀ a ∈ cs, ∀ b ∈ cs, l.contains (type a) = false → l.contains (type b) = false →
      type a = type b)
    (hperm : cs'.Perm cs) : l.sort type cs' = l.sort type cs := by
  have hsorted : (l.sort type cs').Perm (l.sort type cs) :=
    (sortBy_perm _ cs').trans (hperm.trans (sortBy_perm _ cs).symm)
  refine hsorted.eq_of_pairwise (fun a b ha hb hab hba => ?_) (l.pairwise_sort type cs')
    (l.pairwise_sort type cs)
  replace ha : a ∈ cs := hperm.mem_iff.1 ((sortBy_perm _ cs').mem_iff.1 ha)
  replace hb : b ∈ cs := (sortBy_perm _ cs).mem_iff.1 hb
  have hrank : l.rank (type a) = l.rank (type b) := Nat.le_antisymm hab hba
  refine List.inj_on_of_nodup_map hcs ha hb ?_
  by_cases hat : type a ∈ l.types
  · exact eq_of_rank_eq hat hrank
  · by_cases hbt : type b ∈ l.types
    · exact (eq_of_rank_eq hbt hrank.symm).symm
    · exact hout a ha b hb (contains_eq_false_iff.2 hat) (contains_eq_false_iff.2 hbt)

theorem Arranges.map_type_known (h : l.Arranges code types)
    (hone : ∀ t ∈ l.types, (cs.filter (type · == t)).length = 1) :
    (l.known type cs).map type = l.types := by
  have hperm : ((l.known type cs).map type).Perm l.types := by
    refine List.perm_iff_count.2 fun t => ?_
    by_cases ht : t ∈ l.types
    · rw [List.count_eq_one_of_mem h.nodup ht, List.count_eq_countP, List.countP_map,
        ← hone t ht, ← filter_known ht, ← List.countP_eq_length_filter]
      rfl
    · rw [List.count_eq_zero_of_not_mem ht, List.count_eq_zero]
      intro hmem
      obtain ⟨c, hc, rfl⟩ := List.mem_map.1 hmem
      exact ht (mem_known.1 hc).2
  have hsorted : ((l.known type cs).map type).Pairwise fun a b => l.rank a ≤ l.rank b :=
    List.pairwise_map.2 (l.pairwise_known type cs)
  refine hperm.eq_of_pairwise (fun a b _ hb hab hba => ?_) hsorted h.pairwise_rank
  exact (eq_of_rank_eq hb (Nat.le_antisymm hba hab)).symm

theorem Arranges.getElem?_sort (h : l.Arranges code types)
    (hone : ∀ t ∈ l.types, (cs.filter (type · == t)).length = 1) {t : κ} (ht : t ∈ l.types) :
    ∃ i c, l.offsetOf? t = some i ∧ cs.filter (type · == t) = [c] ∧
      (l.sort type cs)[i]? = some c := by
  obtain ⟨i, hi⟩ := List.mem_iff_getElem?.1 ht
  obtain ⟨c, hc⟩ := List.length_eq_one_iff.1 (hone t ht)
  have hoffset := (offsetOf?_eq_some_iff h.nodup).2 hi
  rw [← h.map_type_known hone, List.getElem?_map, Option.map_eq_some_iff] at hi
  obtain ⟨d, hd, rfl⟩ := hi
  -- The component that stands there has the type, and there is but one that does.
  have hdc : d ∈ cs.filter (type · == type d) :=
    List.mem_filter.2 ⟨(mem_known.1 (List.mem_of_getElem? hd)).1, BEq.rfl⟩
  rw [hc, List.mem_singleton] at hdc
  refine ⟨i, c, hoffset, hc, ?_⟩
  rw [sort_eq_append, List.getElem?_append_left (List.getElem?_eq_some_iff.1 hd).1, hd, hdc]

/-- Sorting by a layout is the stable sort by the codes of its types. -/
structure SortsStably (l : Layout κ) (code : κ → UInt32) (type : α → κ) (cs : List α) : Prop where
  perm : (l.sort type cs).Perm cs
  parts : ∃ known, l.sort type cs = known ++ cs.filter (fun c => !l.contains (type c)) ∧
    (∀ c ∈ known, l.contains (type c) = true) ∧
    known.Pairwise fun a b => code (type a) ≤ code (type b)
  stable : ∀ t, (l.sort type cs).filter (type · == t) = cs.filter (type · == t)
  isSorted_iff : l.isSorted type cs = true ↔ l.sort type cs = cs
  idem : l.sort type (l.sort type cs) = l.sort type cs
  canonical : (cs.map type).Nodup →
    (∀ a ∈ cs, ∀ b ∈ cs, l.contains (type a) = false → l.contains (type b) = false →
      type a = type b) →
    ∀ cs', cs'.Perm cs → l.sort type cs' = l.sort type cs
  offset : (∀ t ∈ l.types, (cs.filter (type · == t)).length = 1) → ∀ t ∈ l.types, ∃ i c,
    l.offsetOf? t = some i ∧ cs.filter (type · == t) = [c] ∧ (l.sort type cs)[i]? = some c

theorem Arranges.sortsStably (h : l.Arranges code types) (type : α → κ) (cs : List α) :
    l.SortsStably code type cs where
  perm := sortBy_perm _ cs
  parts := ⟨l.known type cs, sort_eq_append, fun _ hc => (List.mem_filter.1 hc).2, h.pairwise_code⟩
  stable := filter_sort_of_type
  isSorted_iff := Layout.isSorted_iff
  idem := sort_eq_self (l.pairwise_sort type cs)
  canonical hcs hout _ hperm := sort_eq_sort hcs hout hperm
  offset hone _ ht := h.getElem?_sort hone ht

/-- Whatever has been asked of a class index, each layout that it makes sorts components stably by
the codes of their types. -/
theorem sortsStably_of_run [Hashable κ] {hashBits : Nat} (h2 : 2 ≤ hashBits) (h24 : hashBits ≤ 24) :
    ∃ (x : ClassIndex κ) (log : List Event), ClassIndex.create hashBits = .ok (x, log) ∧
      ∀ (ops : List (ClassIndex.Op κ)) (types : List κ) (l : Layout κ),
        (create (x.run ops).2 types).result = .ok l →
        ∀ {α : Type} (type : α → κ) (cs : List α),
          l.SortsStably (create (x.run ops).2 types).state.get type cs := by
  obtain ⟨x, log, hx, -⟩ := ClassIndex.exists_create (κ := κ) h2 h24
  refine ⟨x, log, hx, fun ops types l hl α type cs => ?_⟩
  exact (((ClassIndex.flagged_of_create hx).run ops).arranges hl).sortsStably type cs

/-- A component outside the layout, and two of one type in it. -/
theorem sortsStably_of_run_bucket :
    ∃ (x : ClassIndex Key) (log : List Event), ClassIndex.create 4 = .ok (x, log) ∧
      ∃ l, (create x [.bucket 7 1, .bucket 7 2]).result = .ok l ∧
        l.SortsStably (create x [.bucket 7 1, .bucket 7 2]).state.get Prod.fst
          [(Key.word32 3, 0), (.bucket 7 2, 1), (.bucket 7 1, 2), (.bucket 7 2, 3)] ∧
        l.sort Prod.fst [(Key.word32 3, 0), (.bucket 7 2, 1), (.bucket 7 1, 2), (.bucket 7 2, 3)] =
          [(.bucket 7 1, 2), (.bucket 7 2, 1), (.bucket 7 2, 3), (.word32 3, 0)] := by
  obtain ⟨x, log, hx, h⟩ := sortsStably_of_run (κ := Key) (by decide : 2 ≤ 4) (by decide)
  cases hx
  refine ⟨_, _, rfl, ⟨[.bucket 7 1, .bucket 7 2], [1, 2]⟩, ?_, h [] _ _ ?_ _ _, ?_⟩
  · decide +kernel
  · decide +kernel
  · decide +kernel

end Layout
end EntityStore
