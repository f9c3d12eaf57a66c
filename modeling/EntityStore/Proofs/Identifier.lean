import EntityStore.Identifier
import Mathlib.Tactic.Common

/-! Identifiers without the detached tag are the pairs of a chunk index and an offset. -/

namespace EntityStore.IdSchema
variable (s : IdSchema)

theorem isDetached_iff {id : UInt32} : isDetached id = true ↔ detachedBit ≤ id.toNat := by
  unfold isDetached
  rw [decide_eq_true_iff]

theorem toNat_lt_of_not_isDetached {id : UInt32} (h : isDetached id = false) :
    id.toNat < detachedBit := by
  refine Nat.lt_of_not_le fun hle => ?_
  rw [isDetached_iff.2 hle] at h
  cases h

theorem not_isDetached_of_toNat_lt {id : UInt32} (h : id.toNat < detachedBit) :
    isDetached id = false := by
  rw [← Bool.not_eq_true, isDetached_iff, Nat.not_le]
  exact h

theorem packed_lt (i offset : Nat) :
    i % s.maxChunks * s.capacity + offset % s.capacity < detachedBit := by
  have hi : i % s.maxChunks + 1 ≤ s.maxChunks := Nat.mod_lt _ s.maxChunks_pos
  have ho : offset % s.capacity < s.capacity := Nat.mod_lt _ s.capacity_pos
  calc i % s.maxChunks * s.capacity + offset % s.capacity
      < (i % s.maxChunks + 1) * s.capacity := by rw [Nat.succ_mul]; omega
    _ ≤ s.maxChunks * s.capacity := Nat.mul_le_mul_right _ hi
    _ = detachedBit := s.maxChunks_mul_capacity

theorem toNat_encode (i offset : Nat) :
    (s.encode i offset).toNat = i % s.maxChunks * s.capacity + offset % s.capacity := by
  exact UInt32.toNat_ofNat_of_lt' (Nat.lt_trans (s.packed_lt i offset) (by decide))

theorem address_eq_of_not_isDetached {id : UInt32} (h : isDetached id = false) :
    address id = id.toNat :=
  Nat.mod_eq_of_lt (toNat_lt_of_not_isDetached h)

theorem isDetached_encode (i offset : Nat) : isDetached (s.encode i offset) = false := by
  rw [← Bool.not_eq_true, isDetached_iff, toNat_encode, Nat.not_le]
  exact s.packed_lt i offset

theorem decode_fst_lt (id : UInt32) : (s.decode id).1 < s.maxChunks := by
  refine Nat.div_lt_of_lt_mul ?_
  rw [Nat.mul_comm, s.maxChunks_mul_capacity]
  exact address_lt id

theorem decode_snd_lt (id : UInt32) : (s.decode id).2 < s.capacity := Nat.mod_lt _ s.capacity_pos

theorem decode_encode {i offset : Nat} (hi : i < s.maxChunks) (ho : offset < s.capacity) :
    s.decode (s.encode i offset) = (i, offset) := by
  unfold decode
  rw [address_eq_of_not_isDetached (s.isDetached_encode i offset), toNat_encode,
    Nat.mod_eq_of_lt hi, Nat.mod_eq_of_lt ho, Nat.mul_comm, Nat.mul_add_div s.capacity_pos,
    Nat.mul_add_mod, Nat.div_eq_of_lt ho, Nat.mod_eq_of_lt ho, Nat.add_zero]

theorem encode_decode {id : UInt32} (h : isDetached id = false) :
    s.encode (s.decode id).1 (s.decode id).2 = id := by
  apply UInt32.toNat_inj.1
  rw [toNat_encode, Nat.mod_eq_of_lt (s.decode_fst_lt id), Nat.mod_eq_of_lt (s.decode_snd_lt id)]
  unfold decode
  rw [Nat.mul_comm, Nat.div_add_mod, address_eq_of_not_isDetached h]

theorem lt_of_decode {a b : UInt32} (ha : isDetached a = false) (hb : isDetached b = false)
    (h : Prod.Lex (· < ·) (· < ·) (s.decode a) (s.decode b)) : a < b := by
  rw [UInt32.lt_iff_toNat_lt, ← address_eq_of_not_isDetached ha, ← address_eq_of_not_isDetached hb]
  rw [Prod.lex_def] at h
  rcases h with hchunk | ⟨hchunk, hoffset⟩
  · exact Nat.lt_of_div_lt_div hchunk
  · have hchunk : address a / s.capacity = address b / s.capacity := hchunk
    rw [← Nat.div_add_mod (address a) s.capacity, ← Nat.div_add_mod (address b) s.capacity, hchunk]
    exact Nat.add_lt_add_left hoffset _

theorem toNat_detach (id : UInt32) : (detach id).toNat = detachedBit + address id := by
  refine UInt32.toNat_ofNat_of_lt' ?_
  calc detachedBit + address id < detachedBit + detachedBit := Nat.add_lt_add_left (address_lt id) _
    _ = UInt32.size := by decide

theorem isDetached_detach (id : UInt32) : isDetached (detach id) = true := by
  rw [isDetached_iff, toNat_detach]
  exact Nat.le_add_right ..

theorem toNat_ofNat_decode_fst (id : UInt32) :
    (UInt32.ofNat (s.decode id).1).toNat = (s.decode id).1 ∧ (s.decode id).1 < detachedBit := by
  have hle : (s.decode id).1 ≤ address id := Nat.div_le_self ..
  have hlt := Nat.lt_of_le_of_lt hle (address_lt id)
  exact ⟨UInt32.toNat_ofNat_of_lt' (Nat.lt_trans hlt (by decide)), hlt⟩

end EntityStore.IdSchema
