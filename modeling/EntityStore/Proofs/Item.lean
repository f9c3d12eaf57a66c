import EntityStore.Item
import Mathlib.Tactic.Common

/-! What headers say. An item may be registered as an item and as the state of another one, and its
header tells about both in the same way. -/

namespace EntityStore

namespace ChunkRef

theorem toNat_pack (r : ChunkRef) :
    (pack (some r)).toNat = r.tenant.toNat * UInt32.size + r.chunk.toNat := by
  have ht := r.tenant.toNat_lt
  have hc := r.chunk.toNat_lt
  refine UInt64.toNat_ofNat_of_lt' ?_
  simp only [UInt32.size, UInt64.size]
  omega

theorem unpack_pack {r : ChunkRef} (h : r.chunk.toNat + 1 < UInt32.size) :
    unpack (pack (some r)) = some r := by
  have hsize : 0 < UInt32.size := by decide
  have hne : pack (some r) ≠ nowhere := fun heq => by
    have hall : (pack (some r)).toNat = UInt64.size - 1 := congrArg UInt64.toNat heq
    rw [toNat_pack] at hall
    simp only [UInt32.size, UInt64.size] at h hall
    omega
  rw [unpack, if_neg hne, toNat_pack, Nat.mul_comm, Nat.mul_add_div hsize, Nat.mul_add_mod,
    Nat.div_eq_of_lt (Nat.lt_of_succ_lt h), Nat.mod_eq_of_lt (Nat.lt_of_succ_lt h), Nat.add_zero,
    UInt32.ofNat_toNat, UInt32.ofNat_toNat]

end ChunkRef

inductive Role where
  | item
  | state

namespace Role

def entry : Role → Option ItemId × Option ItemId → Option ItemId
  | item, content => content.1
  | state, content => content.2

@[simp] theorem entry_none (role : Role) : role.entry (none, none) = none := by
  cases role <;> rfl

def id : Role → Header → UInt32
  | item, h => h.id
  | state, h => h.stateId

def chunk : Role → Header → Option ChunkRef
  | item, h => h.chunk
  | state, h => h.stateChunk

/-- Where an item is registered in this role, as its header says. -/
def place (role : Role) (h : Header) : UInt32 × Option ChunkRef := (role.id h, role.chunk h)

end Role

namespace Items
variable {items : Items} {x : ItemId} {role : Role} {content : Option ItemId × Option ItemId}
  {id : UInt32} {r : Option ChunkRef}

/-- Records an identifier and a chunk on all that is registered at a slot. -/
def mark (items : Items) (content : Option ItemId × Option ItemId) (id : UInt32)
    (r : Option ChunkRef) : Items :=
  (items.modify? content.1 (·.place id r)).modify? content.2 (·.placeState id r)

theorem header_create (items : Items) (x : ItemId) : items.create.2.header x = items.header x := by
  simp only [create, header, Array.getD_eq_getD_getElem?, Array.getElem?_push]
  split
  · rename_i hx
    rw [hx, Array.getElem?_eq_none (Nat.le_refl _)]
    rfl
  · rfl

theorem size_modify? (items : Items) (i : Option ItemId) (f : Header → Header) :
    (items.modify? i f).headers.size = items.headers.size := by
  cases i with
  | none => rfl
  | some i => exact Array.size_modify

theorem header_modify? (items : Items) (i : Option ItemId) (f : Header → Header) (x : ItemId) :
    (items.modify? i f).header x =
      if i = some x ∧ x < items.headers.size then f (items.header x) else items.header x := by
  cases i with
  | none => simp [modify?]
  | some i =>
    simp only [modify?, modify, header, Array.getD_eq_getD_getElem?, Array.getElem?_modify,
      Option.some.injEq]
    by_cases hi : i = x
    · subst hi
      by_cases hlt : i < items.headers.size <;> simp [hlt]
    · simp [hi]

theorem place_mark (items : Items) (content : Option ItemId × Option ItemId) (id : UInt32)
    {r : Option ChunkRef} (hr : ChunkRef.unpack (ChunkRef.pack r) = r) (role : Role) (x : ItemId) :
    role.place ((items.mark content id r).header x) =
      if role.entry content = some x ∧ x < items.headers.size then (id, r)
      else role.place (items.header x) := by
  unfold mark
  rw [header_modify?, header_modify?, size_modify?]
  cases role with
  | item =>
    have hplace (h : Header) : Role.item.place (h.place id r) = (id, r) := Prod.ext rfl hr
    have hother (h : Header) : Role.item.place (h.placeState id r) = Role.item.place h := rfl
    rw [apply_ite Role.item.place, hother, ite_self, apply_ite Role.item.place, hplace]
    rfl
  | state =>
    have hplace (h : Header) : Role.state.place (h.placeState id r) = (id, r) := Prod.ext rfl hr
    have hother (h : Header) : Role.state.place (h.place id r) = Role.state.place h := rfl
    rw [apply_ite Role.state.place, hplace, apply_ite Role.state.place, hother, ite_self]
    rfl

theorem place_of_size_le (h : items.headers.size ≤ x) (role : Role) :
    role.place (items.header x) = (IdSchema.detach 0, none) := by
  rw [header, Array.getD_eq_getD_getElem?, Array.getElem?_eq_none h]
  cases role <;> rfl

end Items
end EntityStore
