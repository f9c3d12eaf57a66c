import EntityStore.Proofs.Tenant.Pass

/-! Closed tenants. Calls are refused from then on, except that who holds a chunk can still take its
slots. What was registered in the chunks stays there and is not found by look-ups. -/

namespace EntityStore

@[simp] theorem Chunk.item?_allocate (c : Chunk) (offset : Nat) :
    c.allocate.2.item? offset = c.item? offset := by
  unfold allocate
  split
  · rfl
  · split
    · rfl
    · split <;> rfl

namespace Tenant

theorem itemAt?_allocateIn (t : Tenant) (i : Nat) (slot : Nat × Nat) :
    (t.allocateIn i).state.itemAt? slot = t.itemAt? slot := by
  show (t.onHeldChunk i Chunk.allocate).2.itemAt? slot = _
  cases hc : t.heldChunk? i with
  | none => rw [onHeldChunk_of_none hc]
  | some c =>
    rw [onHeldChunk_eq hc, itemAt?, heldChunk?_setChunk hc]
    split
    · rename_i heq
      simp [itemAt?, heq, hc]
    · rfl

theorem closed_close (t : Tenant) : t.close.state.closed = true := by
  cases h : t.closed <;> simp [close, h]

theorem close_of_closed {t : Tenant} (h : t.closed = true) : t.close = ⟨t, (), []⟩ := if_pos h

theorem id_close (t : Tenant) : t.close.state.id = t.id := by
  unfold close
  split <;> rfl

theorem schema_close (t : Tenant) : t.close.state.schema = t.schema := by
  unfold close
  split <;> rfl

theorem chunkCount_close (t : Tenant) : t.close.state.chunkCount = t.chunkCount := by
  unfold close
  split <;> rfl

theorem live_close {t : Tenant} (h : t.closed = true → t.live = 0) : t.close.state.live = 0 := by
  unfold close
  split
  · exact h ‹_›
  · rfl

theorem itemAt?_close (t : Tenant) (slot : Nat × Nat) :
    t.close.state.itemAt? slot = t.itemAt? slot := by
  unfold close
  split <;> rfl

theorem get?_of_closed {t : Tenant} (h : t.closed = true) (id : UInt32) : t.get? id = none := by
  simp [get?, chunk?, h]

theorem stateItem?_of_closed {t : Tenant} (h : t.closed = true) (id : UInt32) :
    t.stateItem? id = none := by
  simp [stateItem?, chunk?, h]

theorem freeId_of_closed {t : Tenant} (h : t.closed = true) (items : Items) (id : UInt32) :
    t.freeId items id = ⟨(t, items), .error .closed, []⟩ := by
  simp [freeId, h]

theorem allocate_of_closed {t : Tenant} (h : t.closed = true) :
    t.allocate = ⟨t, .error .closed, []⟩ := by
  simp [allocate, h]

/-- What a closed tenant answers: it refuses every call and touches no item, it shows no chunk, and
passes over it are empty. -/
structure Inert (t : Tenant) : Prop where
  closed : t.closed = true
  nextId : t.nextId = ⟨t, .error .closed, []⟩
  register : ∀ items item stateItem,
    t.register items item stateItem = ⟨(t, items), .error .closed, []⟩
  freeId : ∀ items id, t.freeId items id = ⟨(t, items), .error .closed, []⟩
  live : t.live = 0
  chunk? : ∀ i, t.chunk? i = none
  get? : ∀ id, t.get? id = none
  stateItem? : ∀ id, t.stateItem? id = none
  contains : ∀ id, t.contains id = false
  itemPass : ({} : ItemPass).next t = (none, {})
  idPass : ({} : IdPass).next t = (none, {})
  close : t.close = ⟨t, (), []⟩

theorem inert_of_closed {t : Tenant} (h : t.closed = true) (hlive : t.live = 0) : t.Inert where
  closed := h
  nextId := by
    rw [Tenant.nextId, allocate_of_closed h]
    rfl
  register items item stateItem := by rw [Tenant.register, allocate_of_closed h]
  freeId := freeId_of_closed h
  live := hlive
  chunk? _ := if_pos h
  get? := get?_of_closed h
  stateItem? := stateItem?_of_closed h
  contains id := by rw [contains_eq, get?_of_closed h, Option.isSome_none]
  itemPass := ItemPass.next_of_closed h {}
  idPass := by
    have hnone : ({} : IdPass).enter? t = none := by
      simp [IdPass.enter?, chunkAfter?, Tenant.chunk?, h]
    rw [IdPass.next]
    split
    · rename_i heq
      cases heq
    · split
      · rfl
      · rename_i q he
        rw [hnone] at he
        cases he
  close := close_of_closed h

end Tenant

theorem Store.step_of_closed {s : Store} (h : s.tenant.closed = true) (op : Op) :
    s.tenant.OnlyChunks (s.step op).1.tenant ∧
      ∀ slot, (s.step op).1.tenant.itemAt? slot = s.tenant.itemAt? slot := by
  cases op with
  | nextId => simp [step, Tenant.nextId, Tenant.allocate_of_closed h, Outcome.map]
  | register item stateItem => simp [step, Tenant.register, Tenant.allocate_of_closed h]
  | freeId id => simp [step, Tenant.freeId_of_closed h]
  | freeItem item =>
    simp only [step, Tenant.freeItem]
    split <;> simp [Tenant.freeId_of_closed h]
  | allocateIn chunk =>
    exact ⟨s.tenant.onlyChunks_onHeldChunk chunk Chunk.allocate, s.tenant.itemAt?_allocateIn chunk⟩
  | setHeaders items => exact ⟨.refl _, fun _ => rfl⟩

theorem Store.closed_step {s : Store} (h : s.tenant.closed = false → s.tenant.WF) (op : Op) :
    (s.step op).1.tenant.closed = s.tenant.closed := by
  cases hc : s.tenant.closed with
  | true =>
    obtain ⟨⟨chunks, -, hu⟩, -⟩ := step_of_closed hc op
    exact (congrArg (·.closed) hu).trans hc
  | false =>
    obtain ⟨m, -, hb⟩ := step_becomes (h hc) op
    exact hb.wf.isOpen

end EntityStore
