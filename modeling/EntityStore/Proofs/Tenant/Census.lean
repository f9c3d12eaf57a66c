import EntityStore.Proofs.Tenant.Run
import Mathlib.Algebra.BigOperators.Group.Finset.Piecewise
import Mathlib.Algebra.BigOperators.Group.Finset.Sigma
import Mathlib.Algebra.Ring.Nat

/-! The live slots of a tenant, counted. The sum of what the chunks count is the number of
identifiers in use. -/

namespace EntityStore

namespace Ledger
variable {schema : IdSchema} {m : Ledger} {id : UInt32}

/-- The slots in use, each as a chunk index and an offset. -/
def slots (schema : IdSchema) (m : Ledger) : Finset (Nat × Nat) :=
  (Finset.range schema.maxChunks ×ˢ Finset.range schema.capacity).filter fun p =>
    (m (schema.encode p.1 p.2)).isSome

theorem mem_slots {p : Nat × Nat} : p ∈ slots schema m ↔
    (p.1 < schema.maxChunks ∧ p.2 < schema.capacity) ∧ (m (schema.encode p.1 p.2)).isSome := by
  rw [slots, Finset.mem_filter, Finset.mem_product, Finset.mem_range, Finset.mem_range]

theorem decode_mem_slots (hid : IdSchema.isDetached id = false) :
    schema.decode id ∈ slots schema m ↔ (m id).isSome := by
  rw [mem_slots, schema.encode_decode hid]
  exact and_iff_right ⟨schema.decode_fst_lt id, schema.decode_snd_lt id⟩

theorem encode_ne {p : Nat × Nat} (hp : p.1 < schema.maxChunks ∧ p.2 < schema.capacity)
    (hne : p ≠ schema.decode id) : schema.encode p.1 p.2 ≠ id := by
  rintro rfl
  exact hne (schema.decode_encode hp.1 hp.2).symm

theorem slots_update_some (hid : IdSchema.isDetached id = false)
    (r : Option ItemId × Option ItemId) :
    slots schema (Function.update m id (some r)) = insert (schema.decode id) (slots schema m) := by
  ext p
  rw [Finset.mem_insert]
  by_cases hp : p = schema.decode id
  · rw [hp, decode_mem_slots hid, Function.update_self]
    simp
  · rw [mem_slots, mem_slots, or_iff_right hp]
    refine and_congr_right fun hlt => ?_
    rw [Function.update_of_ne (encode_ne hlt hp)]

end Ledger

open Ledger

theorem Chunk.WF.live_eq_card {c : Chunk} (h : c.WF) :
    c.live = ((Finset.range c.capacity).filter fun o => (c.content? o).isSome).card := by
  have hnodup : c.allocated.Nodup := List.nodup_range.filter _
  rw [← h.length_allocated, ← List.toFinset_card_of_nodup hnodup]
  congr 1
  ext o
  rw [List.mem_toFinset, h.mem_allocated, Finset.mem_filter, Finset.mem_range]
  constructor
  · intro hl
    exact ⟨h.lt_capacity_of_isLive hl, by rw [content?_of_isLive hl]; rfl⟩
  · rintro ⟨-, hs⟩
    obtain ⟨r, hr⟩ := Option.isSome_iff_exists.1 hs
    exact isLive_of_content? hr

theorem sum_range_elim {α : Type} (f : α → Nat) (xs : List α) {n : Nat} (hn : xs.length ≤ n) :
    ∑ i ∈ Finset.range n, (xs[i]?).elim 0 f = (xs.map f).sum := by
  induction xs generalizing n with
  | nil => simp
  | cons x xs ih =>
    obtain ⟨k, rfl⟩ := Nat.exists_eq_add_of_le' hn
    rw [List.length_cons, ← Nat.add_assoc, Finset.sum_range_succ', List.map_cons, List.sum_cons,
      ← ih (n := k + xs.length) (Nat.le_add_left ..), Nat.add_comm]
    rfl

namespace Tenant
variable {t u : Tenant} {id : UInt32}

def liveCount (t : Tenant) : Nat := (t.chunks.toList.map (·.live)).sum

theorem WF.card_slots (h : t.WF) : (slots t.schema t.ledger).card = t.liveCount := by
  have hchunk (i : Nat) (hi : i ∈ Finset.range t.schema.maxChunks) :
      ∑ o ∈ Finset.range t.schema.capacity,
        (if (t.ledger (t.schema.encode i o)).isSome then 1 else 0) =
      (t.chunks.toList[i]?).elim 0 (·.live) := by
    rw [← Finset.card_filter]
    have hslot (o : Nat) (ho : o ∈ Finset.range t.schema.capacity) :
        (t.ledger (t.schema.encode i o)).isSome ↔ (t.slot? i o).isSome := by
      rw [ledger_encode (Finset.mem_range.1 hi) (Finset.mem_range.1 ho)]
    rw [Finset.filter_congr hslot, Array.getElem?_toList]
    cases hc : t.heldChunk? i with
    | none =>
      rw [show t.chunks[i]? = none from hc]
      simp [slot?, hc]
    | some c =>
      rw [show t.chunks[i]? = some c from hc]
      simp only [slot?_eq hc, Option.elim_some]
      rw [(h.chunk_wf hc).live_eq_card, h.chunk_capacity hc]
  rw [slots, Finset.card_filter, Finset.sum_product, Finset.sum_congr rfl hchunk]
  exact sum_range_elim _ _ h.size_le

theorem Becomes.liveCount_add_one (h : t.WF) {r : Option ItemId × Option ItemId}
    (hb : t.Becomes (Function.update t.ledger id (some r)) u)
    (hid : IdSchema.isDetached id = false) (hm : t.ledger id = none) :
    u.liveCount = t.liveCount + 1 := by
  rw [← h.card_slots, ← hb.wf.card_slots, hb.schema, hb.ledger, slots_update_some hid,
    Finset.card_insert_of_notMem]
  rw [decode_mem_slots hid, hm]
  simp

end Tenant
end EntityStore
