import EntityStore.Proofs.Identifier
import EntityStore.Proofs.Item
import EntityStore.Proofs.Tenant.Allocation
import EntityStore.Proofs.Tenant.Release
import Mathlib.Logic.Function.Basic

/-! A tenant as the partial map from its live identifiers to what is registered at them. Every
operation changes this map at one identifier or not at all. -/

namespace EntityStore

/-- The item and the state item of each identifier that is in use. -/
abbrev Ledger := UInt32 → Option (Option ItemId × Option ItemId)

namespace Tenant

def ledger (t : Tenant) : Ledger := fun id =>
  (t.address? id).bind fun (i, offset) => t.slot? i offset

/-- The tenant `u` is what became of `t`, and `m` is its map. -/
structure Becomes (t : Tenant) (m : Ledger) (u : Tenant) : Prop where
  wf : u.WF
  id : u.id = t.id
  schema : u.schema = t.schema
  ledger : u.ledger = m

section
variable {t u : Tenant} {i offset : Nat}

theorem ledger_of_isDetached (t : Tenant) {id : UInt32} (h : IdSchema.isDetached id = true) :
    t.ledger id = none := by
  simp [ledger, address?, h]

theorem ledger_of_not_isDetached (t : Tenant) {id : UInt32} (h : IdSchema.isDetached id = false) :
    t.ledger id = t.slot? (t.schema.decode id).1 (t.schema.decode id).2 := by
  simp [ledger, address?, h]

theorem ledger_encode (hi : i < t.schema.maxChunks) (ho : offset < t.schema.capacity) :
    t.ledger (t.schema.encode i offset) = t.slot? i offset := by
  rw [t.ledger_of_not_isDetached (t.schema.isDetached_encode i offset),
    t.schema.decode_encode hi ho]

theorem ledger_update (hschema : u.schema = t.schema) (hi : i < t.schema.maxChunks)
    (ho : offset < t.schema.capacity) {r : Option (Option ItemId × Option ItemId)}
    (hslot : ∀ j o, u.slot? j o = if j = i ∧ o = offset then r else t.slot? j o) :
    u.ledger = Function.update t.ledger (t.schema.encode i offset) r := by
  funext id
  cases hd : IdSchema.isDetached id with
  | true =>
    have hne : id ≠ t.schema.encode i offset := fun heq => by
      rw [heq, t.schema.isDetached_encode] at hd
      cases hd
    rw [Function.update_of_ne hne, ledger_of_isDetached u hd, ledger_of_isDetached t hd]
  | false =>
    rw [u.ledger_of_not_isDetached hd, hschema, hslot]
    by_cases hid : id = t.schema.encode i offset
    · rw [hid, Function.update_self, t.schema.decode_encode hi ho, if_pos ⟨rfl, rfl⟩]
    · rw [Function.update_of_ne hid, t.ledger_of_not_isDetached hd, if_neg]
      rintro ⟨rfl, rfl⟩
      exact hid (t.schema.encode_decode hd).symm

theorem Sets.becomes {r : Option (Option ItemId × Option ItemId)} (h : t.Sets i offset r u)
    (hi : i < t.schema.maxChunks) (ho : offset < t.schema.capacity) :
    t.Becomes (Function.update t.ledger (t.schema.encode i offset) r) u :=
  ⟨h.wf, h.id, h.schema, ledger_update h.schema hi ho h.slot⟩

theorem Takes.lt_maxChunks (h : t.Takes i offset u) : i < t.schema.maxChunks :=
  Nat.lt_of_lt_of_le h.lt_size (h.schema ▸ h.wf.size_le)

theorem Takes.ledger_before (h : t.Takes i offset u) :
    t.ledger (t.schema.encode i offset) = none := by
  rw [ledger_encode h.lt_maxChunks h.lt_capacity]
  exact h.slot_before

end

/-! ### What look-ups say -/

section
variable {t : Tenant}

theorem WF.bind_item?_eq (h : t.WF) (i offset : Nat) :
    (t.chunk? i).bind (·.item? offset) = (t.slot? i offset).bind (·.1) := by
  rw [chunk?_eq h.isOpen, slot?]
  cases hc : t.heldChunk? i with
  | none => rfl
  | some c => exact (h.chunk_wf hc).item?_eq offset

theorem WF.bind_stateItem?_eq (h : t.WF) (i offset : Nat) :
    (t.chunk? i).bind (·.stateItem? offset) = (t.slot? i offset).bind (·.2) := by
  rw [chunk?_eq h.isOpen, slot?]
  cases hc : t.heldChunk? i with
  | none => rfl
  | some c => exact (h.chunk_wf hc).stateItem?_eq offset

theorem WF.get?_eq (h : t.WF) (id : UInt32) : t.get? id = (t.ledger id).bind (·.1) := by
  unfold get? ledger
  rw [Option.bind_assoc]
  congr 1
  funext p
  exact h.bind_item?_eq p.1 p.2

theorem WF.stateItem?_eq (h : t.WF) (id : UInt32) :
    t.stateItem? id = (t.ledger id).bind (·.2) := by
  unfold stateItem? ledger
  rw [Option.bind_assoc]
  congr 1
  funext p
  exact h.bind_stateItem?_eq p.1 p.2

theorem contains_eq (t : Tenant) (id : UInt32) : t.contains id = (t.get? id).isSome := by
  unfold contains get?
  cases t.address? id with
  | none => rfl
  | some p =>
    cases hc : t.chunk? p.1 with
    | none => simp [hc]
    | some c => simp [hc, Chunk.isOccupied_eq]

end

/-! ### What operations do -/

theorem ledger_create (id : UInt32) (schema : IdSchema) :
    (create id schema).ledger = fun _ => none := by
  funext k
  unfold ledger
  cases (create id schema).address? k with
  | none => rfl
  | some p =>
    show ((#[Chunk.create 0 schema.capacity] : Array Chunk)[p.1]?).bind _ = none
    cases hc : (#[Chunk.create 0 schema.capacity] : Array Chunk)[p.1]? with
    | none => rfl
    | some c =>
      obtain ⟨hi, rfl⟩ := Array.getElem?_eq_some_iff.1 hc
      refine Chunk.content?_of_not_isLive fun hl => ?_
      obtain hi : p.1 = 0 := Nat.lt_one_iff.1 hi
      simp only [hi] at hl
      exact Nat.not_lt_zero _ hl.1

section
variable {t u : Tenant}

theorem Becomes.refl (h : t.WF) : t.Becomes t.ledger t := ⟨h, rfl, rfl, rfl⟩

theorem WF.nextId_cases (h : t.WF) :
    (∃ id u log, t.nextId = ⟨u, .ok id, log⟩ ∧ IdSchema.isDetached id = false ∧
      t.ledger id = none ∧ t.Becomes (Function.update t.ledger id (some (none, none))) u) ∨
    ∃ e u log, t.nextId = ⟨u, .error e, log⟩ ∧ t.Becomes t.ledger u := by
  unfold nextId
  rcases h.allocate_cases with ⟨i, offset, u, log, ha, ht⟩ | ⟨e, u, ha, hwf, queue, rfl⟩
  · left
    rw [ha]
    exact ⟨_, u, log, rfl, t.schema.isDetached_encode i offset, ht.ledger_before,
      ht.becomes ht.lt_maxChunks ht.lt_capacity⟩
  · right
    rw [ha]
    exact ⟨e, _, [], rfl, hwf, rfl, rfl, rfl⟩

theorem WF.register_cases (h : t.WF) (items : Items) (item : ItemId) (stateItem : Option ItemId) :
    (∃ id u log, t.register items item stateItem =
        ⟨(u, items.mark (some item, stateItem) id (some ⟨t.id, .ofNat (t.schema.decode id).1⟩)),
          .ok id, log⟩ ∧
      IdSchema.isDetached id = false ∧ t.ledger id = none ∧
      t.Becomes (Function.update t.ledger id (some (some item, stateItem))) u) ∨
    ∃ e u log, t.register items item stateItem = ⟨(u, items), .error e, log⟩ ∧
      t.Becomes t.ledger u := by
  unfold register
  rcases h.allocate_cases with ⟨i, offset, u, log, ha, ht⟩ | ⟨e, u, ha, hwf, queue, rfl⟩
  · left
    have hslot : u.slot? i offset = some (none, none) :=
      (ht.slot i offset).trans (if_pos ⟨rfl, rfl⟩)
    have hdecode := t.schema.decode_encode ht.lt_maxChunks ht.lt_capacity
    refine ⟨t.schema.encode i offset, ?_⟩
    rw [hdecode]
    cases stateItem with
    | none =>
      have hsets := ht.toSets.trans (ht.wf.sets_put hslot item)
      simp only [ha, ht.schema, ht.id]
      exact ⟨_, _, rfl, t.schema.isDetached_encode i offset, ht.ledger_before,
        hsets.becomes ht.lt_maxChunks ht.lt_capacity⟩
    | some s =>
      have hstate := ht.wf.sets_putState hslot s
      have hslot' := (hstate.slot i offset).trans (if_pos ⟨rfl, rfl⟩)
      have hsets := (ht.toSets.trans hstate).trans (hstate.wf.sets_put hslot' item)
      simp only [ha, ht.schema, ht.id]
      exact ⟨_, _, rfl, t.schema.isDetached_encode i offset, ht.ledger_before,
        hsets.becomes ht.lt_maxChunks ht.lt_capacity⟩
  · right
    simp only [ha]
    exact ⟨e, _, _, rfl, hwf, rfl, rfl, rfl⟩

theorem WF.allocateIn_cases (h : t.WF) (i : Nat) :
    (∃ offset u, t.allocateIn i = ⟨u, some offset, []⟩ ∧
      t.ledger (t.schema.encode i offset) = none ∧
      t.Becomes (Function.update t.ledger (t.schema.encode i offset) (some (none, none))) u) ∨
    t.allocateIn i = ⟨t, none, []⟩ := by
  unfold allocateIn
  cases hc : t.heldChunk? i with
  | none =>
    right
    rw [onHeldChunk_of_none hc]
    rfl
  | some c =>
    rw [onHeldChunk_eq hc]
    cases ha : c.allocate with
    | mk r d =>
      cases r with
      | some offset =>
        left
        have ht := h.takes_setChunk hc ((h.chunk_wf hc).takes_of_allocate ha)
        exact ⟨offset, _, rfl, ht.ledger_before, ht.becomes ht.lt_maxChunks ht.lt_capacity⟩
      | none =>
        right
        obtain ⟨rfl, -⟩ := (h.chunk_wf hc).of_allocate_eq_none ha
        rw [setChunk_self hc]
        rfl

theorem WF.freeId_cases (h : t.WF) (items : Items) (id : UInt32) :
    (∃ freed u log, t.freeId items id = ⟨(u, detachItems items id freed), .ok freed.item, log⟩ ∧
      t.ledger id = some (freed.item, freed.stateItem) ∧
      t.Becomes (Function.update t.ledger id none) u) ∨
    ∃ e log, t.freeId items id = ⟨(t, items), .error e, log⟩ ∧ t.ledger id = none := by
  cases hdet : IdSchema.isDetached id with
  | true => exact .inr ⟨_, _, h.freeId_of_isDetached items hdet, t.ledger_of_isDetached hdet⟩
  | false =>
    rw [t.ledger_of_not_isDetached hdet]
    cases hc : t.heldChunk? (t.schema.decode id).1 with
    | none => exact .inr ⟨_, _, h.freeId_of_missing items hdet hc, by simp [slot?, hc]⟩
    | some c =>
      rw [slot?_eq hc]
      cases hr : c.release (t.schema.decode id).2 with
      | mk r d =>
        cases r with
        | error e =>
          obtain ⟨-, hnone, -⟩ := (h.chunk_wf hc).of_release_eq_error hr
          exact .inr ⟨_, _, h.freeId_of_refused items hdet hc hr, hnone⟩
        | ok freed =>
          have hd := (h.chunk_wf hc).frees_of_release hr
          have hb := (h.sets_afterFree hc hd).becomes (t.schema.decode_fst_lt id)
            (t.schema.decode_snd_lt id)
          rw [t.schema.encode_decode hdet] at hb
          obtain ⟨log, hf⟩ := h.freeId_of_released items hdet hc hr
          exact .inl ⟨freed, _, log, hf, hd.content_before, hb⟩

end
end Tenant
end EntityStore
