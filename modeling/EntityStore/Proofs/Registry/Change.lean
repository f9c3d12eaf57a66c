import EntityStore.Pool
import EntityStore.Proofs.Tenant.Placement

/-! A pool together with the items that its tenants share. Any step leaves what look-ups and headers
say as it is, or fills one slot of one tenant, or clears one. -/

namespace EntityStore

/-- A pool with all items that were ever made. -/
structure Registry where
  pool : Pool
  items : Items := {}

namespace Registry

/-- A tenant by number, whether it is still a member of the pool or not. -/
def tenant? (r : Registry) (n : Nat) : Option Tenant := r.pool.tenants[n]?

def count (r : Registry) : Nat := r.pool.tenants.size

def IsOpen (r : Registry) (n : Nat) : Prop := ∃ t, r.tenant? n = some t ∧ t.closed = false

def get? (r : Registry) (role : Role) (n : Nat) (id : UInt32) : Option ItemId :=
  (r.tenant? n).bind fun t => role.get? t id

def place (r : Registry) (role : Role) (x : ItemId) : UInt32 × Option ChunkRef :=
  role.place (r.items.header x)

def put (r : Registry) (n : Nat) (u : Tenant) (items : Items) : Registry :=
  { pool := { r.pool with tenants := r.pool.tenants.setIfInBounds n u }, items }

structure Sound (schema : IdSchema) (r : Registry) : Prop where
  pool : r.pool.schema = schema
  id : ∀ {n t}, r.tenant? n = some t → t.id = .ofNat n
  schema : ∀ {n t}, r.tenant? n = some t → t.schema = schema
  wf : ∀ {n t}, r.tenant? n = some t → t.closed = false → t.WF

/-- Headers say the same in `s` as in `r`, and so do look-ups, except in tenants that were closed.
-/
structure Keeps (r s : Registry) : Prop where
  count_le : r.count ≤ s.count
  place : ∀ role x, s.place role x = r.place role x
  found : ∀ {role n id x}, s.get? role n id = some x → r.get? role n id = some x
  stays : ∀ {n}, s.IsOpen n → n < r.count →
    r.IsOpen n ∧ ∀ role id, s.get? role n id = r.get? role n id

/-- One slot, which held `old`, holds `new`, and no headers change but theirs. -/
structure Writes (r s : Registry) (n : Nat) (id : UInt32) (old new : Role → Option ItemId) :
    Prop where
  count_eq : s.count = r.count
  lt_count : n < r.count
  of_open : ∀ {m}, s.IsOpen m → r.IsOpen m
  before : ∀ role, r.get? role n id = old role
  get? : ∀ role m id', s.get? role m id' = if m = n ∧ id' = id then new role else r.get? role m id'
  place : ∀ role x, old role ≠ some x → new role ≠ some x → s.place role x = r.place role x

/-- What a step does to look-ups and headers. Filling a slot records it on the items, and clearing
one makes their headers name no chunk. -/
inductive Change (schema : IdSchema) (r s : Registry) : Prop
  | keeps (h : r.Keeps s)
  | fills {n : Nat} {id : UInt32} {new : Role → Option ItemId}
    (h : r.Writes s n id (fun _ => none) new)
    (hplace : ∀ role x, new role = some x →
      s.place role x = (id, some ⟨.ofNat n, .ofNat (schema.decode id).1⟩))
  | clears {n : Nat} {id : UInt32} {old : Role → Option ItemId}
    (h : r.Writes s n id old fun _ => none)
    (hplace : ∀ role x, old role = some x → (s.place role x).2 = none)

variable {schema : IdSchema} {r s : Registry} {role : Role} {n m : Nat} {id : UInt32} {t u : Tenant}
  {items : Items} {x : ItemId}

theorem lt_count (h : r.tenant? n = some t) : n < r.count := (Array.getElem?_eq_some_iff.1 h).1

theorem get?_eq (h : r.tenant? n = some t) (role : Role) (id : UInt32) :
    r.get? role n id = role.get? t id := by
  rw [get?, h, Option.bind_some]

theorem exists_of_get? (h : r.get? role n id = some x) :
    ∃ t, r.tenant? n = some t ∧ role.get? t id = some x := Option.bind_eq_some_iff.1 h

theorem tenant?_put (h : r.tenant? n = some t) (u : Tenant) (items : Items) (m : Nat) :
    (r.put n u items).tenant? m = if m = n then some u else r.tenant? m := by
  have hn : n < r.pool.tenants.size := lt_count h
  unfold tenant? put
  rw [Array.getElem?_setIfInBounds]
  by_cases hmn : m = n
  · rw [if_pos hmn.symm, if_pos hmn, if_pos (hmn ▸ hn)]
  · rw [if_neg (Ne.symm hmn), if_neg hmn]

theorem get?_put (h : r.tenant? n = some t) (u : Tenant) (items : Items) (role : Role) (m : Nat)
    (id : UInt32) :
    (r.put n u items).get? role m id = if m = n then role.get? u id else r.get? role m id := by
  unfold get?
  rw [tenant?_put h]
  split <;> rfl

theorem count_put (r : Registry) (n : Nat) (u : Tenant) (items : Items) :
    (r.put n u items).count = r.count := Array.size_setIfInBounds ..

theorem Keeps.refl (r : Registry) : r.Keeps r where
  count_le := Nat.le_refl _
  place _ _ := rfl
  found h := h
  stays h _ := ⟨h, fun _ _ => rfl⟩

theorem Keeps.trans {s' : Registry} (h : r.Keeps s) (h' : s.Keeps s') : r.Keeps s' where
  count_le := Nat.le_trans h.count_le h'.count_le
  place role x := (h'.place role x).trans (h.place role x)
  found hx := h.found (h'.found hx)
  stays ho hn := by
    obtain ⟨ho', hget'⟩ := h'.stays ho (Nat.lt_of_lt_of_le hn h.count_le)
    obtain ⟨ho'', hget⟩ := h.stays ho' hn
    exact ⟨ho'', fun role id => (hget' role id).trans (hget role id)⟩

theorem Change.count_le (h : Change schema r s) : r.count ≤ s.count := by
  cases h with
  | keeps h => exact h.count_le
  | fills h => exact Nat.le_of_eq h.count_eq.symm
  | clears h => exact Nat.le_of_eq h.count_eq.symm

/-! ### A call on one tenant -/

theorem isOpen_of_put (ht : r.tenant? n = some t) (hc : t.closed = false)
    (ho : (r.put n u items).IsOpen m) : r.IsOpen m := by
  obtain ⟨v, hv, hvc⟩ := ho
  rw [tenant?_put ht] at hv
  split at hv
  · rename_i hmn
    exact ⟨t, hmn ▸ ht, hc⟩
  · exact ⟨v, hv, hvc⟩

theorem writes_put (ht : r.tenant? n = some t) (hwf : t.WF)
    {content content' : Option (Option ItemId × Option ItemId)} (hbefore : t.ledger id = content)
    (hb : t.Becomes (Function.update t.ledger id content') u)
    (hplace : ∀ role : Role, ∀ x, content.bind role.entry ≠ some x →
      content'.bind role.entry ≠ some x → role.place (items.header x) = r.place role x) :
    r.Writes (r.put n u items) n id (fun role => content.bind role.entry)
      fun role => content'.bind role.entry where
  count_eq := r.count_put n u items
  lt_count := lt_count ht
  of_open := isOpen_of_put ht hwf.isOpen
  before role := by rw [get?_eq ht, role.get?_eq hwf, hbefore]
  get? role m id' := by
    rw [get?_put ht]
    by_cases hmn : m = n
    · subst hmn
      rw [if_pos rfl, role.get?_eq hb.wf, hb.ledger, get?_eq ht, role.get?_eq hwf]
      by_cases hid : id' = id
      · rw [if_pos ⟨rfl, hid⟩, hid, Function.update_self]
      · rw [if_neg fun h => hid h.2, Function.update_of_ne hid]
    · rw [if_neg hmn, if_neg fun h => hmn h.1]
  place := hplace

theorem Sound.put (h : Sound schema r) (ht : r.tenant? n = some t) (hid : u.id = t.id)
    (hschema : u.schema = t.schema) (hwf : u.closed = false → u.WF) (items : Items) :
    Sound schema (r.put n u items) := by
  have hcases {m : Nat} {v : Tenant} (hv : (r.put n u items).tenant? m = some v) :
      m = n ∧ v = u ∨ r.tenant? m = some v := by
    rw [tenant?_put ht] at hv
    split at hv
    · exact .inl ⟨‹_›, (Option.some.inj hv).symm⟩
    · exact .inr hv
  refine ⟨h.pool, fun hv => ?_, fun hv => ?_, fun hv => ?_⟩
  · rcases hcases hv with ⟨rfl, rfl⟩ | hv
    · exact hid.trans (h.id ht)
    · exact h.id hv
  · rcases hcases hv with ⟨rfl, rfl⟩ | hv
    · exact hschema.trans (h.schema ht)
    · exact h.schema hv
  · rcases hcases hv with ⟨rfl, rfl⟩ | hv
    · exact hwf
    · exact h.wf hv

theorem keeps_put_closed (ht : r.tenant? n = some t) (hc : u.closed = true) :
    r.Keeps (r.put n u r.items) where
  count_le := Nat.le_of_eq (r.count_put n u r.items).symm
  place _ _ := rfl
  found {role m id x} hx := by
    rw [get?_put ht] at hx
    split at hx
    · rw [role.get?_of_closed hc] at hx
      cases hx
    · exact hx
  stays {m} ho _ := by
    obtain ⟨v, hv, hvc⟩ := ho
    rw [tenant?_put ht] at hv
    split at hv
    · cases hv
      rw [hc] at hvc
      cases hvc
    · rename_i hmn
      refine ⟨⟨v, hv, hvc⟩, fun role id => ?_⟩
      rw [get?_put ht, if_neg hmn]

theorem keeps_put_same (ht : r.tenant? n = some t) (hwf : t.WF) (hb : t.Becomes t.ledger u) :
    r.Keeps (r.put n u r.items) := by
  have hget (role : Role) (m : Nat) (id : UInt32) :
      (r.put n u r.items).get? role m id = r.get? role m id := by
    rw [get?_put ht]
    split
    · rename_i hmn
      rw [hmn, get?_eq ht, role.get?_eq hb.wf, role.get?_eq hwf, hb.ledger]
    · rfl
  refine ⟨Nat.le_of_eq (r.count_put n u r.items).symm, fun _ _ => rfl, fun hx => ?_, fun ho _ => ?_⟩
  · rwa [hget] at hx
  · exact ⟨isOpen_of_put ht hwf.isOpen ho, fun role id => hget role _ id⟩

theorem Sound.change_put (h : Sound schema r) (ht : r.tenant? n = some t)
    (hm : t.Moves r.items u items) : Change schema r (r.put n u items) := by
  cases hm with
  | rests hid hschema hc => exact .keeps (keeps_put_closed ht hc)
  | keeps hwf hb => exact .keeps (keeps_put_same ht hwf hb)
  | fills hwf content id hfree hknown hb =>
    rw [h.id ht, h.schema ht]
    have hmark := r.items.place_mark content id (ChunkRef.unpack_pack_decode schema (.ofNat n) id)
    refine .fills (writes_put ht hwf hfree hb fun role x _ hx => ?_) fun role x hx => ?_
    · rw [hmark, if_neg fun hx' => hx hx'.1]
      rfl
    · exact (hmark role x).trans (if_pos ⟨hx, hknown hx⟩)
  | clears hwf content id hheld hb =>
    have hmark := r.items.place_mark content (IdSchema.detach id) (r := none) rfl
    refine .clears (writes_put ht hwf hheld hb fun role x hx _ => ?_) fun role x hx => ?_
    · rw [hmark, if_neg fun hx' => hx hx'.1]
      rfl
    · have hplace := hmark role x
      -- An item that does not exist has no header to change, and reads as registered nowhere.
      by_cases hlt : x < r.items.headers.size
      · rw [if_pos ⟨hx, hlt⟩] at hplace
        exact congrArg Prod.snd hplace
      · rw [if_neg fun hx' => hlt hx'.2, Items.place_of_size_le (Nat.le_of_not_lt hlt)] at hplace
        exact congrArg Prod.snd hplace

end Registry
end EntityStore
