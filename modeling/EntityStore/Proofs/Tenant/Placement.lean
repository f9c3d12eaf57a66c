import EntityStore.Proofs.Tenant.Closing

/-! Where items are registered. A call on a tenant changes what one slot holds and, in the same
step, what the headers of these items say, so that headers and slots can be compared afterwards. -/

namespace EntityStore

/-- What a look-up finds in this role. -/
def Role.get? : Role → Tenant → UInt32 → Option ItemId
  | item, t => t.get?
  | state, t => t.stateItem?

theorem Role.get?_eq {t : Tenant} (h : t.WF) (role : Role) (id : UInt32) :
    role.get? t id = (t.ledger id).bind role.entry := by
  cases role with
  | item => exact h.get?_eq id
  | state => exact h.stateItem?_eq id

theorem Role.get?_of_closed {t : Tenant} (h : t.closed = true) (role : Role) (id : UInt32) :
    role.get? t id = none := by
  cases role with
  | item => exact Tenant.get?_of_closed h id
  | state => exact Tenant.stateItem?_of_closed h id

theorem Role.not_isDetached_of_get? {t : Tenant} {role : Role} {id : UInt32} {x : ItemId}
    (h : role.get? t id = some x) : IdSchema.isDetached id = false := by
  by_contra hd
  have hnone : t.address? id = none := by
    rw [Tenant.address?, if_pos (by simpa using hd)]
  cases role with
  | item => simp [get?, Tenant.get?, hnone] at h
  | state => simp [get?, Tenant.stateItem?, hnone] at h

theorem ChunkRef.unpack_pack_decode (schema : IdSchema) (tenant id : UInt32) :
    unpack (pack (some ⟨tenant, .ofNat (schema.decode id).1⟩)) =
      some ⟨tenant, .ofNat (schema.decode id).1⟩ := by
  obtain ⟨htoNat, hlt⟩ := schema.toNat_ofNat_decode_fst id
  refine unpack_pack ?_
  rw [htoNat]
  exact Nat.lt_of_le_of_lt hlt (by decide)

/-- Whether those who hold the items can make a call. They use items that exist, and they do not
write headers themselves. -/
def Items.admits (items : Items) : Store.Op → Bool
  | .register item stateItem =>
    item < items.headers.size && stateItem.all (· < items.headers.size)
  | .setHeaders _ => false
  | _ => true

theorem Items.lt_of_admits {items : Items} {item : ItemId} {stateItem : Option ItemId}
    (h : items.admits (.register item stateItem) = true) {role : Role} {x : ItemId}
    (hx : role.entry (some item, stateItem) = some x) : x < items.headers.size := by
  obtain ⟨hitem, hstate⟩ := Bool.and_eq_true_iff.1 h
  cases role with
  | item =>
    obtain rfl : item = x := Option.some.inj hx
    exact of_decide_eq_true hitem
  | state =>
    obtain rfl : stateItem = some x := hx
    exact of_decide_eq_true hstate

namespace Tenant
variable {t : Tenant} {items : Items} {x : ItemId}

/-- What a call makes of a tenant and of the headers: nothing that a look-up shows, or a free slot
is taken and what is registered at it is marked with the slot, or a slot is freed and what was
registered at it is marked as detached. -/
inductive Moves (t : Tenant) (items : Items) (u : Tenant) : Items → Prop
  | rests (hid : u.id = t.id) (hschema : u.schema = t.schema) (hc : u.closed = true) :
    Moves t items u items
  | keeps (hwf : t.WF) (h : t.Becomes t.ledger u) : Moves t items u items
  | fills (hwf : t.WF) (content : Option ItemId × Option ItemId) (id : UInt32)
    (hfree : t.ledger id = none)
    (hknown : ∀ {role x}, Role.entry role content = some x → x < items.headers.size)
    (h : t.Becomes (Function.update t.ledger id (some content)) u) :
    Moves t items u (items.mark content id (some ⟨t.id, .ofNat (t.schema.decode id).1⟩))
  | clears (hwf : t.WF) (content : Option ItemId × Option ItemId) (id : UInt32)
    (hheld : t.ledger id = some content) (h : t.Becomes (Function.update t.ledger id none) u) :
    Moves t items u (items.mark content (IdSchema.detach id) none)

theorem Moves.same {u : Tenant} {items' : Items} (h : t.Moves items u items') :
    u.id = t.id ∧ u.schema = t.schema ∧ (u.closed = false → u.WF) := by
  cases h with
  | rests hid hschema hc =>
    refine ⟨hid, hschema, fun ho => ?_⟩
    rw [hc] at ho
    cases ho
  | keeps hwf hb => exact ⟨hb.id, hb.schema, fun _ => hb.wf⟩
  | fills hwf content id hfree hknown hb => exact ⟨hb.id, hb.schema, fun _ => hb.wf⟩
  | clears hwf content id hheld hb => exact ⟨hb.id, hb.schema, fun _ => hb.wf⟩

theorem WF.moves_freeId (h : t.WF) (items : Items) (id : UInt32) :
    t.Moves items (t.freeId items id).state.1 (t.freeId items id).state.2 := by
  rcases h.freeId_cases items id with ⟨freed, u, log, hf, hm, hb⟩ | ⟨e, log, hf, -⟩
  · rw [hf]
    exact .clears h (freed.item, freed.stateItem) id hm hb
  · rw [hf]
    exact .keeps h (.refl h)

/-- Freeing an item gives up the slot that the item itself stands in and no other, and detaches the
item; or it is refused, and nothing has changed. -/
def FreesOwn (t : Tenant) (items : Items) (x : ItemId) : Prop :=
  (∃ u items' log, t.freeItem items x = ⟨(u, items'), .ok (some x), log⟩ ∧
    t.get? (items.header x).id = some x ∧ u.get? (items.header x).id = none ∧
    (∀ role : Role, ∀ id, id ≠ (items.header x).id → role.get? u id = role.get? t id) ∧
    IdSchema.isDetached (items'.header x).id = true ∧ (items'.header x).chunk = none) ∨
  ∃ e log, t.freeItem items x = ⟨(t, items), .error e, log⟩

theorem freesOwn_of_closed (h : t.closed = true) (items : Items) (x : ItemId) :
    t.FreesOwn items x := by
  right
  by_cases howns : t.owns (items.header x) = true
  · exact ⟨_, _, (if_pos howns).trans (freeId_of_closed h items _)⟩
  · exact ⟨_, _, if_neg howns⟩

theorem lt_of_owns (h : t.owns (items.header x) = true) : x < items.headers.size := by
  by_contra hx
  have hplace := Items.place_of_size_le (Nat.le_of_not_lt hx) .item
  have hchunk : (items.header x).chunk = none := congrArg Prod.snd hplace
  rw [owns, hchunk] at h
  cases h

theorem WF.freesOwn (h : t.WF)
    (hheld : t.owns (items.header x) = true → t.get? (items.header x).id = some x) :
    t.FreesOwn items x := by
  unfold FreesOwn freeItem
  by_cases howns : t.owns (items.header x) = true
  · left
    have hget := hheld howns
    rw [if_pos howns]
    rcases h.freeId_cases items (items.header x).id with
      ⟨freed, u, log, hf, hm, hb⟩ | ⟨e, log, -, hm⟩
    · have hitem : freed.item = some x := by
        rw [h.get?_eq, hm] at hget
        exact hget
      have hmark := items.place_mark (freed.item, freed.stateItem)
        (IdSchema.detach (items.header x).id) (r := none) rfl .item x
      rw [if_pos ⟨hitem, lt_of_owns howns⟩] at hmark
      obtain ⟨hid, hchunk⟩ := Prod.mk.inj hmark
      refine ⟨u, _, log, hitem ▸ hf, hget, ?_, ?_, ?_, hchunk⟩
      · rw [hb.wf.get?_eq, hb.ledger, Function.update_self]
        rfl
      · intro role id hne
        rw [role.get?_eq hb.wf, role.get?_eq h, hb.ledger, Function.update_of_ne hne]
      · exact (congrArg IdSchema.isDetached hid).trans (IdSchema.isDetached_detach _)
    · rw [h.get?_eq, hm] at hget
      cases hget
  · right
    rw [if_neg howns]
    exact ⟨_, _, rfl⟩

end Tenant

namespace Store
variable {s : Store} {op : Op}

theorem items_step_of_closed (h : s.tenant.closed = true) (hop : s.items.admits op = true) :
    (s.step op).1.items = s.items := by
  cases op with
  | nextId => rfl
  | register item stateItem => simp [step, Tenant.register, Tenant.allocate_of_closed h]
  | freeId id => simp [step, Tenant.freeId_of_closed h]
  | freeItem item =>
    simp only [step, Tenant.freeItem]
    split <;> simp [Tenant.freeId_of_closed h]
  | allocateIn chunk => rfl
  | setHeaders items => cases hop

theorem step_moves (h : s.tenant.closed = false → s.tenant.WF)
    (hop : s.items.admits op = true) :
    s.tenant.Moves s.items (s.step op).1.tenant (s.step op).1.items := by
  cases hc : s.tenant.closed with
  | true =>
    obtain ⟨⟨chunks, -, hchunks⟩, -⟩ := step_of_closed hc op
    rw [items_step_of_closed hc hop, hchunks]
    exact .rests rfl rfl hc
  | false =>
    have hwf := h hc
    cases op with
    | nextId =>
      rcases hwf.nextId_cases with ⟨id, u, log, hn, -, hm, hb⟩ | ⟨e, u, log, hn, hb⟩
      · simp only [step, hn]
        exact .fills hwf (none, none) id hm (by simp) hb
      · simp only [step, hn]
        exact .keeps hwf hb
    | register item stateItem =>
      rcases hwf.register_cases s.items item stateItem with
        ⟨id, u, log, hr, -, hm, hb⟩ | ⟨e, u, log, hr, hb⟩
      · simp only [step, hr]
        exact .fills hwf (some item, stateItem) id hm (Items.lt_of_admits hop) hb
      · simp only [step, hr]
        exact .keeps hwf hb
    | freeId id => exact hwf.moves_freeId s.items id
    | freeItem item =>
      simp only [step, Tenant.freeItem]
      split
      · exact hwf.moves_freeId s.items _
      · exact .keeps hwf (.refl hwf)
    | allocateIn chunk =>
      rcases hwf.allocateIn_cases chunk with ⟨offset, u, ha, hm, hb⟩ | ha
      · simp only [step, ha]
        exact .fills hwf (none, none) _ hm (by simp) hb
      · simp only [step, ha]
        exact .keeps hwf (.refl hwf)
    | setHeaders items => cases hop

end Store
end EntityStore
