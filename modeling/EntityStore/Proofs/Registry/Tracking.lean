import EntityStore.Proofs.Registry.Run

/-! What a header is worth. An item may be registered more often than its header can tell, and
freeing one of the slots makes the header forget the others. So a header that names a chunk is right
about it, and a slot is named by the header of its item only if the item has no other. -/

namespace EntityStore.Registry

/-- A header that names a chunk names a tenant of the pool and, as long as this tenant is open, the
slot that the item stands in. -/
def Held (schema : IdSchema) (r : Registry) : Prop :=
  ∀ role x id ref, r.place role x = (id, some ref) →
    ref.tenant.toNat < r.count ∧ (r.IsOpen ref.tenant.toNat →
      r.get? role ref.tenant.toNat id = some x ∧ ref.chunk = .ofNat (schema.decode id).1)

/-- No item stands in two slots. -/
def Single (role : Role) (r : Registry) : Prop :=
  ∀ n id m id' x, r.get? role n id = some x → r.get? role m id' = some x → n = m ∧ id = id'

/-- Every item that stands in a slot has a header that says so. -/
def Recorded (schema : IdSchema) (role : Role) (r : Registry) : Prop :=
  ∀ n id x, r.get? role n id = some x →
    r.place role x = (id, some ⟨.ofNat n, .ofNat (schema.decode id).1⟩)

variable {schema : IdSchema} {r s : Registry} {role : Role} {n : Nat} {id : UInt32}
  {old new : Role → Option ItemId} {x : ItemId} {ref : ChunkRef}

theorem Keeps.held (h : r.Keeps s) (hr : Held schema r) : Held schema s := by
  intro role x id ref hx
  rw [h.place] at hx
  obtain ⟨hlt, hopen⟩ := hr role x id ref hx
  refine ⟨Nat.lt_of_lt_of_le hlt h.count_le, fun ho => ?_⟩
  obtain ⟨ho, hget⟩ := h.stays ho hlt
  rw [hget]
  exact hopen ho

theorem Writes.held (h : r.Writes s n id old new) (hr : Held schema r) (hold : old role ≠ some x)
    (hnew : new role ≠ some x) {id' : UInt32} (hx : s.place role x = (id', some ref)) :
    ref.tenant.toNat < s.count ∧ (s.IsOpen ref.tenant.toNat →
      s.get? role ref.tenant.toNat id' = some x ∧ ref.chunk = .ofNat (schema.decode id').1) := by
  rw [h.place role x hold hnew] at hx
  obtain ⟨hlt, hopen⟩ := hr role x id' ref hx
  refine ⟨h.count_eq.symm ▸ hlt, fun ho => ?_⟩
  obtain ⟨hget, hchunk⟩ := hopen (h.of_open ho)
  have hne : ¬ (ref.tenant.toNat = n ∧ id' = id) := by
    rintro ⟨hn, rfl⟩
    rw [hn, h.before] at hget
    exact hold hget
  refine ⟨?_, hchunk⟩
  rw [h.get?, if_neg hne]
  exact hget

theorem Change.held (h : Change schema r s) (hs : s.count ≤ UInt32.size) (hr : Held schema r) :
    Held schema s := by
  intro role x id ref hx
  cases h with
  | keeps h => exact h.held hr role x id ref hx
  | @fills n id' new h hplace =>
    by_cases hnew : new role = some x
    · have hlt : n < s.count := h.count_eq.symm ▸ h.lt_count
      have htoNat : (UInt32.ofNat n).toNat = n :=
        UInt32.toNat_ofNat_of_lt' (Nat.lt_of_lt_of_le hlt hs)
      have hsame := hx.symm.trans (hplace role x hnew)
      cases hsame
      rw [htoNat]
      refine ⟨hlt, fun _ => ⟨?_, rfl⟩⟩
      rw [h.get?, if_pos ⟨rfl, rfl⟩, hnew]
    · exact h.held hr nofun hnew hx
  | @clears n id' old h hplace =>
    by_cases hold : old role = some x
    · have hnone := hplace role x hold
      rw [hx] at hnone
      cases hnone
    · exact h.held hr hold nofun hx

theorem Change.recorded (h : Change schema r s) (hr : Single role r) (hs : Single role s)
    (hrec : Recorded schema role r) : Recorded schema role s := by
  intro m id x hx
  cases h with
  | keeps h =>
    rw [h.place]
    exact hrec m id x (h.found hx)
  | @fills n id' new h hplace =>
    by_cases hnew : new role = some x
    · -- The header of an item in the new slot names this slot, so `x` must not stand in another.
      have hwritten : s.get? role n id' = some x := by rw [h.get?, if_pos ⟨rfl, rfl⟩, hnew]
      obtain ⟨rfl, rfl⟩ := hs m id n id' x hx hwritten
      exact hplace role x hnew
    · rw [h.place role x nofun hnew]
      rw [h.get?] at hx
      split at hx
      · exact absurd hx hnew
      · exact hrec m id x hx
  | @clears n id' old h hplace =>
    rw [h.get?] at hx
    split at hx
    · cases hx
    · rename_i hne
      -- Otherwise the freed slot's item would have stood in two slots before.
      have hold : old role ≠ some x := by
        intro hold
        exact hne (hr m id n id' x hx ((h.before role).trans hold))
      rw [h.place role x hold nofun]
      exact hrec m id x hx

/-! ### Runs -/

theorem sound_create (schema : IdSchema) : Sound schema (create schema) :=
  ⟨rfl, nofun, nofun, nofun⟩

theorem held_create (schema : IdSchema) : Held schema (create schema) := by
  intro role x id ref hx
  have hnone := (create schema).items.place_of_size_le (Nat.zero_le x) role
  have hnone := hx.symm.trans hnone
  cases hnone

theorem sound_run (schema : IdSchema) (ops : List Op) :
    Sound schema ((create schema).run ops) := by
  induction ops using List.reverseRecOn with
  | nil => exact sound_create schema
  | append_singleton ops op ih =>
    rw [run_concat]
    exact (ih.step op).1

theorem held_run (schema : IdSchema) (ops : List Op)
    (h : ((create schema).run ops).count ≤ UInt32.size) :
    Held schema ((create schema).run ops) := by
  induction ops using List.reverseRecOn with
  | nil => exact held_create schema
  | append_singleton ops op ih =>
    rw [run_concat] at h ⊢
    have hchange := ((sound_run schema ops).step op).2
    have hbefore := Nat.le_trans hchange.count_le h
    exact hchange.held h (ih hbefore)

theorem recorded_run (schema : IdSchema) (ops : List Op)
    (h : ∀ part, part <+: ops → Single role ((create schema).run part)) :
    Recorded schema role ((create schema).run ops) := by
  induction ops using List.reverseRecOn with
  | nil =>
    intro n id x hx
    cases hx
  | append_singleton ops op ih =>
    have hchange := ((sound_run schema ops).step op).2
    have hsingle := h ops (List.prefix_append ..)
    have hsingle' := h (ops ++ [op]) (List.prefix_refl _)
    rw [run_concat] at hsingle' ⊢
    refine hchange.recorded hsingle hsingle' (ih fun part hpart => ?_)
    exact h part (hpart.trans (List.prefix_append ..))

/-- What a header that names a chunk guarantees: it names a tenant of the pool, and if that is open,
the header's identifier leads to the item itself. So freeing an item frees no other's slot. -/
structure Tracks (schema : IdSchema) (r : Registry) : Prop where
  known : ∀ role x ref, Role.chunk role (r.items.header x) = some ref →
    ∃ t, r.tenant? ref.tenant.toNat = some t ∧ t.id = ref.tenant
  held : ∀ role x n t chunk, r.tenant? n = some t → t.closed = false →
    Role.chunk role (r.items.header x) = some ⟨t.id, chunk⟩ →
    IdSchema.isDetached (role.id (r.items.header x)) = false ∧
      (schema.decode (role.id (r.items.header x))).1 = chunk.toNat ∧
      role.get? t (role.id (r.items.header x)) = some x
  freesOwn : ∀ n t x, r.tenant? n = some t → t.FreesOwn r.items x

theorem Held.tracks (hr : Held schema r) (h : Sound schema r) (hcount : r.count ≤ UInt32.size) :
    Tracks schema r := by
  have hfound (role : Role) (x : ItemId) (n : Nat) (t : Tenant) (chunk : UInt32)
      (ht : r.tenant? n = some t) (ho : t.closed = false)
      (hchunk : role.chunk (r.items.header x) = some ⟨t.id, chunk⟩) :
      role.get? t (role.id (r.items.header x)) = some x ∧
        chunk = .ofNat (schema.decode (role.id (r.items.header x))).1 := by
    have htoNat : t.id.toNat = n := by
      rw [h.id ht]
      exact UInt32.toNat_ofNat_of_lt' (Nat.lt_of_lt_of_le (lt_count ht) hcount)
    obtain ⟨-, hopen⟩ := hr role x _ _ (Prod.ext rfl hchunk)
    obtain ⟨hget, heq⟩ := hopen (htoNat.symm ▸ ⟨t, ht, ho⟩)
    rw [htoNat, get?_eq ht] at hget
    exact ⟨hget, heq⟩
  refine ⟨?_, ?_, ?_⟩
  · intro role x ref hchunk
    obtain ⟨hlt, -⟩ := hr role x _ ref (Prod.ext rfl hchunk)
    have ht : r.tenant? ref.tenant.toNat = some r.pool.tenants[ref.tenant.toNat] :=
      Array.getElem?_eq_getElem hlt
    refine ⟨_, ht, ?_⟩
    rw [h.id ht, UInt32.ofNat_toNat]
  · intro role x n t chunk ht ho hchunk
    obtain ⟨hget, rfl⟩ := hfound role x n t chunk ht ho hchunk
    exact ⟨Role.not_isDetached_of_get? hget, (schema.toNat_ofNat_decode_fst _).1.symm, hget⟩
  · intro n t x ht
    cases ho : t.closed with
    | true => exact Tenant.freesOwn_of_closed ho r.items x
    | false =>
      refine (h.wf ht ho).freesOwn fun howns => ?_
      unfold Tenant.owns at howns
      split at howns
      · rename_i ref hchunk
        obtain ⟨htenant, -⟩ := Bool.and_eq_true_iff.1 howns
        obtain ⟨tenant, chunk⟩ := ref
        obtain rfl : tenant = t.id := eq_of_beq htenant
        exact (hfound .item x n t chunk ht ho hchunk).1
      · cases howns

/-- In every state that a pool can reach the headers are right about the slots they name. They name
all slots in use as long as no item has ever stood in two of them. -/
theorem tracks_of_run (schema : IdSchema) (ops : List Op)
    (h : ((create schema).run ops).count < UInt32.size) :
    Tracks schema ((create schema).run ops) ∧
      ∀ role, (∀ part, part <+: ops → Single role ((create schema).run part)) →
        Recorded schema role ((create schema).run ops) := by
  have hcount := Nat.le_of_lt h
  exact ⟨(held_run schema ops hcount).tracks (sound_run schema ops) hcount,
    fun role hsingle => recorded_run schema ops hsingle⟩

/-- An item that was registered twice stands in both slots, and its header names the second. -/
theorem tracks_of_run_twice :
    let r := (create ⟨2, by decide, by decide⟩).run
      [.newTenant, .newItem, .call 0 (.register 0 none), .call 0 (.register 0 none)]
    r.count < UInt32.size ∧ Tracks ⟨2, by decide, by decide⟩ r ∧
      r.get? .item 0 0 = some 0 ∧ r.get? .item 0 1 = some 0 ∧
      r.place .item 0 = (1, some ⟨0, 0⟩) := by
  have hcount : ((create ⟨2, by decide, by decide⟩).run
      [.newTenant, .newItem, .call 0 (.register 0 none), .call 0 (.register 0 none)]).count <
        UInt32.size := by decide +kernel
  refine ⟨hcount, (tracks_of_run _ _ hcount).1, ?_⟩
  decide +kernel

end EntityStore.Registry
