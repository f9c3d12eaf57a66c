import EntityStore.Layout
import EntityStore.Proofs.ClassIndex.Extension

/-! What a layout contains, and layouts of types that have codes already. -/

namespace EntityStore.Layout
variable {κ : Type}

theorem not_mem_of_ne {a b : UInt32} {codes : List UInt32}
    (h : (a :: b :: codes).Pairwise (· ≤ ·)) (hab : a ≠ b) : a ∉ b :: codes := by
  obtain ⟨ha, hrest⟩ := List.pairwise_cons.1 h
  have hlt : a < b := UInt32.lt_of_le_of_ne (ha b (List.mem_cons_self ..)) hab
  intro hmem
  rcases List.mem_cons.1 hmem with heq | hmem
  · exact hab heq
  · exact absurd hlt (UInt32.not_lt.2 ((List.pairwise_cons.1 hrest).1 a hmem))

theorem repeatedCode?_eq_none_iff {pairs : List (UInt32 × κ)}
    (h : (pairs.map (·.1)).Pairwise (· ≤ ·)) :
    repeatedCode? pairs = none ↔ (pairs.map (·.1)).Nodup := by
  induction pairs with
  | nil => simp [repeatedCode?]
  | cons a rest ih =>
    cases rest with
    | nil => simp [repeatedCode?]
    | cons b rest =>
      obtain ⟨-, hrest⟩ := List.pairwise_cons.1 h
      unfold repeatedCode?
      by_cases hab : a.1 = b.1
      · rw [if_pos hab]
        simp [hab]
      · rw [if_neg hab, ih hrest]
        have hnot : a.1 ∉ (b :: rest).map (·.1) := not_mem_of_ne h hab
        exact ⟨fun hr => List.nodup_cons.2 ⟨hnot, hr⟩, fun hr => (List.nodup_cons.1 hr).2⟩

theorem repeatedCode?_eq_none {pairs : List (UInt32 × κ)}
    (h : (pairs.map (·.1)).Pairwise (· < ·)) : repeatedCode? pairs = none :=
  (repeatedCode?_eq_none_iff (h.imp UInt32.le_of_lt)).2 (h.imp UInt32.ne_of_lt)

theorem pairwise_sortBy_fst (pairs : List (UInt32 × κ)) :
    ((sortBy (fun a b => decide (a.1 ≤ b.1)) pairs).map (·.1)).Pairwise (· ≤ ·) := by
  refine List.pairwise_map.2 ((pairwise_sortBy (fun a b => ?_) (fun a b c => ?_) _).imp ?_)
  · simpa using UInt32.le_total a.1 b.1
  · simpa using UInt32.le_trans
  · exact of_decide_eq_true

theorem repeatedCode?_sortBy_eq_none_iff {codes : List UInt32} {types : List κ}
    (hlen : codes.length = types.length) :
    repeatedCode? (sortBy (fun a b => decide (a.1 ≤ b.1)) (codes.zip types)) = none ↔
      codes.Nodup := by
  have hle := pairwise_sortBy_fst (codes.zip types)
  have hfst : (codes.zip types).map (·.1) = codes := List.map_fst_zip (Nat.le_of_eq hlen)
  have hperm := (sortBy_perm (fun a b => decide (a.1 ≤ b.1)) (codes.zip types)).map (·.1)
  rw [hfst] at hperm
  exact (repeatedCode?_eq_none_iff hle).trans hperm.nodup_iff

theorem sortBy_zip {codes : List UInt32} {types : List κ} (h : codes.Pairwise (· < ·))
    (hlen : codes.length = types.length) :
    sortBy (fun a b => decide (a.1 ≤ b.1)) (codes.zip types) = codes.zip types := by
  have hmap : (codes.zip types).map (·.1) = codes := List.map_fst_zip (Nat.le_of_eq hlen)
  have hpairs : ((codes.zip types).map (·.1)).Pairwise (· < ·) := by rwa [hmap]
  apply sortBy_eq_self
  refine (List.pairwise_map.1 hpairs).imp fun hab => ?_
  exact decide_eq_true (UInt32.le_of_lt hab)

theorem contains_iff [BEq κ] [LawfulBEq κ] (l : Layout κ) (type : κ) :
    l.contains type = true ↔ type ∈ l.types := by
  unfold contains offsetOf?
  rw [List.findIdx?_isSome, List.any_eq_true]
  simp

variable [BEq κ] [EquivBEq κ] [Hashable κ] [LawfulHashable κ] {x : ClassIndex κ} {r : Numbering κ}
  {types : List κ}

theorem create_of_ascending (h : x.Numbers r)
    (hknown : ∀ type ∈ types, ∃ code, r.code? type = some code)
    (hasc : (types.map r.get).Pairwise (· < ·)) :
    ∃ y log, Layout.create x types = ⟨y, .ok ⟨types, types.map r.get⟩, log⟩ ∧ y.Numbers r := by
  have hall := Numbering.getOrAddAll_of_known hknown
  have hx := h.getOrAddAll types
  rw [hall] at hx
  obtain ⟨hresult, hstate⟩ := hx h.lt
  have hlen : (types.map r.get).length = types.length := List.length_map _
  have hfst : ((types.map r.get).zip types).map (·.1) = types.map r.get :=
    List.map_fst_zip (Nat.le_of_eq hlen)
  have hsnd : ((types.map r.get).zip types).map (·.2) = types :=
    List.map_snd_zip (Nat.le_of_eq hlen.symm)
  refine ⟨(x.getOrAddAll types).state, (x.getOrAddAll types).log, ?_, hstate⟩
  unfold Layout.create Outcome.map
  rw [hresult]
  simp only [Except.bind, sortBy_zip hasc hlen]
  rw [repeatedCode?_eq_none (by rwa [hfst]), hfst, hsnd]

end EntityStore.Layout
