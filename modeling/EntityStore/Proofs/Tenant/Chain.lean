import EntityStore.Proofs.Tenant.Access
import Mathlib.Data.List.Nodup

/-! The chain of a tenant as the list of its chunks, linked both ways. Linking and unlinking are
local changes of this list, and everything else that happens leaves it alone. -/

namespace EntityStore.Tenant
variable {t u : Tenant}

/-- The chunks of a list stand one behind the other, between the neighbours `p` and `n`. -/
def Linked (t : Tenant) : (p : Option Nat) → List Nat → (n : Option Nat) → Prop
  | _, [], _ => True
  | p, i :: is, n =>
    (∃ c, t.heldChunk? i = some c ∧ c.prev = p ∧ c.next = is.head?.or n) ∧ t.Linked (some i) is n

/-- The list is the chain: it leads from chunk 0 to the tail through all chunks in use. -/
structure IsChain (t : Tenant) (is : List Nat) : Prop where
  nodup : is.Nodup
  mem_iff : ∀ i, i ∈ is ↔ ∃ c, t.heldChunk? i = some c ∧ c.parked = false
  head : is.head? = some 0
  last : is.getLast? = some t.tail
  linked : t.Linked none is none

theorem linked_append {p n : Option Nat} {is js : List Nat} :
    t.Linked p (is ++ js) n ↔
      t.Linked p is (js.head?.or n) ∧ t.Linked (is.getLast?.or p) js n := by
  induction is generalizing p with
  | nil => simp [Linked]
  | cons i is ih =>
    have hlast : (i :: is).getLast?.or p = is.getLast?.or (some i) := by
      rw [List.getLast?_cons]
      cases is.getLast? <;> rfl
    rw [List.cons_append, Linked, Linked, ih, hlast, List.head?_append, Option.or_assoc, and_assoc]

theorem Linked.congr {p n : Option Nat} {is : List Nat} (h : t.Linked p is n)
    (hu : ∀ i ∈ is, ∀ c, t.heldChunk? i = some c →
      ∃ d, u.heldChunk? i = some d ∧ d.prev = c.prev ∧ d.next = c.next) : u.Linked p is n := by
  induction is generalizing p with
  | nil => trivial
  | cons i is ih =>
    obtain ⟨⟨c, hc, hp, hn⟩, hrest⟩ := h
    obtain ⟨d, hd, hdp, hdn⟩ := hu i (List.mem_cons_self ..) c hc
    exact ⟨⟨d, hd, hdp.trans hp, hdn.trans hn⟩,
      ih hrest fun j hj => hu j (List.mem_cons_of_mem _ hj)⟩

theorem mem_without {i : Nat} (is js : List Nat) (h : (is ++ i :: js).Nodup) (j : Nat) :
    j ∈ is ++ js ↔ j ∈ is ++ i :: js ∧ j ≠ i := by
  have hperm : (is ++ i :: js).Perm (i :: (is ++ js)) := List.perm_middle
  obtain ⟨hi, -⟩ := List.nodup_cons.1 (hperm.nodup_iff.1 h)
  rw [hperm.mem_iff, List.mem_cons]
  constructor
  · intro hj
    exact ⟨.inr hj, fun heq => hi (heq ▸ hj)⟩
  · rintro ⟨hj, hne⟩
    exact hj.resolve_left hne

namespace IsChain
variable {is : List Nat}

theorem not_parked_zero (h : t.IsChain is) : ∃ c, t.heldChunk? 0 = some c ∧ c.parked = false :=
  (h.mem_iff 0).1 (List.mem_of_mem_head? h.head)

theorem not_parked_tail (h : t.IsChain is) :
    ∃ c, t.heldChunk? t.tail = some c ∧ c.parked = false :=
  (h.mem_iff _).1 (List.mem_of_getLast? h.last)

theorem exists_neighbours (h : t.IsChain is) {i : Nat} (hi : i ∈ is) (h0 : i ≠ 0)
    (ht : i ≠ t.tail) : ∃ pre p n post, is = pre ++ p :: i :: n :: post := by
  obtain ⟨before, after, rfl⟩ := List.append_of_mem hi
  rcases List.eq_nil_or_concat before with rfl | ⟨pre, p, rfl⟩
  · exact absurd (by simpa using h.head) h0
  · cases after with
    | nil => exact absurd (by simpa using h.last) ht
    | cons n post => exact ⟨pre, p, n, post, by simp⟩

theorem congr (h : t.IsChain is) (htail : u.tail = t.tail)
    (hu : ∀ i, (u.heldChunk? i).map (fun c => (c.prev, c.next, c.parked)) =
      (t.heldChunk? i).map fun c => (c.prev, c.next, c.parked)) : u.IsChain is where
  nodup := h.nodup
  mem_iff i := by
    rw [h.mem_iff]
    have := hu i
    cases ht : t.heldChunk? i <;> cases hui : u.heldChunk? i <;> simp_all
  head := h.head
  last := htail ▸ h.last
  linked := h.linked.congr fun i _ c hc => by
    have hd := hu i
    rw [hc] at hd
    obtain ⟨d, hd, heq⟩ := Option.map_eq_some_iff.1 hd
    simp only [Prod.mk.injEq] at heq
    exact ⟨d, hd, heq.1, heq.2.1⟩

end IsChain
end EntityStore.Tenant
