import EntityStore.Proofs.Tenant.Ledger

/-! Runs of an open tenant: any calls in any order, also on its chunks directly, while others may
change the headers of the items at any time. -/

namespace EntityStore

/-- A tenant with the items, whose headers it reads and writes. -/
structure Store where
  tenant : Tenant
  items : Items

namespace Store

inductive Op where
  | nextId
  | register (item : ItemId) (stateItem : Option ItemId)
  | freeId (id : UInt32)
  | freeItem (item : ItemId)
  | allocateIn (chunk : Nat)
  | setHeaders (items : Items)

inductive Answer where
  | taken (r : Except PoolError UInt32)
  | offset (r : Option Nat)
  /-- The identifier that was to be freed, with what the call returned. -/
  | freed (id : UInt32) (r : Except PoolError (Option ItemId))
  | done

def create (id : UInt32) (schema : IdSchema) (items : Items) : Store :=
  { tenant := .create id schema, items }

def step (s : Store) : Op → Store × Answer
  | .nextId =>
    let o := s.tenant.nextId
    ({ s with tenant := o.state }, .taken o.result)
  | .register item stateItem =>
    let o := s.tenant.register s.items item stateItem
    (⟨o.state.1, o.state.2⟩, .taken o.result)
  | .freeId id =>
    let o := s.tenant.freeId s.items id
    (⟨o.state.1, o.state.2⟩, .freed id o.result)
  | .freeItem item =>
    let o := s.tenant.freeItem s.items item
    (⟨o.state.1, o.state.2⟩, .freed (s.items.header item).id o.result)
  | .allocateIn chunk =>
    let o := s.tenant.allocateIn chunk
    ({ s with tenant := o.state }, .offset o.result)
  | .setHeaders items => ({ s with items }, .done)

def run (s : Store) : List Op → Store
  | [] => s
  | op :: ops => (s.step op).1.run ops

theorem run_append (s : Store) (as bs : List Op) : s.run (as ++ bs) = (s.run as).run bs := by
  induction as generalizing s with
  | nil => rfl
  | cons op ops ih => exact ih (s.step op).1

end Store

open Store

/-- What a call does to the map of the live identifiers, and what its answer says about it. -/
inductive Ledger.Step (schema : IdSchema) (m : Ledger) : Op → Answer → Ledger → Prop
  | nextId {id : UInt32} (hid : id.toNat < IdSchema.detachedBit) (hm : m id = none) :
    Step schema m .nextId (.taken (.ok id)) (Function.update m id (some (none, none)))
  | nextIdRefused {e : PoolError} : Step schema m .nextId (.taken (.error e)) m
  | register {item : ItemId} {stateItem : Option ItemId} {id : UInt32}
      (hid : id.toNat < IdSchema.detachedBit)
    (hm : m id = none) :
    Step schema m (.register item stateItem) (.taken (.ok id))
      (Function.update m id (some (some item, stateItem)))
  | registerRefused {item : ItemId} {stateItem : Option ItemId} {e : PoolError} :
    Step schema m (.register item stateItem) (.taken (.error e)) m
  | freeId {id : UInt32} {item stateItem : Option ItemId} (hm : m id = some (item, stateItem)) :
    Step schema m (.freeId id) (.freed id (.ok item)) (Function.update m id none)
  | freeIdRefused {id : UInt32} {e : PoolError} (hm : m id = none) :
    Step schema m (.freeId id) (.freed id (.error e)) m
  | freeItem {x : ItemId} {id : UInt32} {item stateItem : Option ItemId}
    (hm : m id = some (item, stateItem)) :
    Step schema m (.freeItem x) (.freed id (.ok item)) (Function.update m id none)
  | freeItemRefused {x : ItemId} {id : UInt32} {e : PoolError} :
    Step schema m (.freeItem x) (.freed id (.error e)) m
  | allocateIn {chunk offset : Nat} (hm : m (schema.encode chunk offset) = none) :
    Step schema m (.allocateIn chunk) (.offset (some offset))
      (Function.update m (schema.encode chunk offset) (some (none, none)))
  | allocateInRefused {chunk : Nat} : Step schema m (.allocateIn chunk) (.offset none) m
  | setHeaders {items : Items} : Step schema m (.setHeaders items) .done m

namespace Store

/-- One call of a tenant is one step of its map. -/
theorem step_becomes {s : Store} (h : s.tenant.WF) (op : Op) :
    ∃ m, Ledger.Step s.tenant.schema s.tenant.ledger op (s.step op).2 m ∧
      s.tenant.Becomes m (s.step op).1.tenant := by
  cases op with
  | nextId =>
    rcases h.nextId_cases with ⟨id, u, log, hn, hid, hm, hb⟩ | ⟨e, u, log, hn, hb⟩
    · simp only [step, hn]
      exact ⟨_, .nextId (IdSchema.toNat_lt_of_not_isDetached hid) hm, hb⟩
    · simp only [step, hn]
      exact ⟨_, .nextIdRefused, hb⟩
  | register item stateItem =>
    rcases h.register_cases s.items item stateItem with
      ⟨id, u, log, hr, hid, hm, hb⟩ | ⟨e, u, log, hr, hb⟩
    · simp only [step, hr]
      exact ⟨_, .register (IdSchema.toNat_lt_of_not_isDetached hid) hm, hb⟩
    · simp only [step, hr]
      exact ⟨_, .registerRefused, hb⟩
  | freeId id =>
    rcases h.freeId_cases s.items id with ⟨freed, u, log, hf, hm, hb⟩ | ⟨e, log, hf, hm⟩
    · simp only [step, hf]
      exact ⟨_, .freeId hm, hb⟩
    · simp only [step, hf]
      exact ⟨_, .freeIdRefused hm, .refl h⟩
  | freeItem item =>
    by_cases howns : s.tenant.owns (s.items.header item) = true
    · have heq : s.tenant.freeItem s.items item =
          s.tenant.freeId s.items (s.items.header item).id := if_pos howns
      rcases h.freeId_cases s.items (s.items.header item).id with
        ⟨freed, u, log, hf, hm, hb⟩ | ⟨e, log, hf, hm⟩
      · simp only [step, heq, hf]
        exact ⟨_, .freeItem hm, hb⟩
      · simp only [step, heq, hf]
        exact ⟨_, .freeItemRefused, .refl h⟩
    · simp only [step, Tenant.freeItem, howns]
      exact ⟨_, .freeItemRefused, .refl h⟩
  | allocateIn chunk =>
    rcases h.allocateIn_cases chunk with ⟨offset, u, ha, hm, hb⟩ | ha
    · simp only [step, ha]
      exact ⟨_, .allocateIn hm, hb⟩
    · simp only [step, ha]
      exact ⟨_, .allocateInRefused, .refl h⟩
  | setHeaders items => exact ⟨_, .setHeaders, .refl h⟩

theorem wf_run {s : Store} (h : s.tenant.WF) (ops : List Op) : (s.run ops).tenant.WF := by
  induction ops generalizing s with
  | nil => exact h
  | cons op ops ih =>
    obtain ⟨m, -, hb⟩ := step_becomes h op
    exact ih hb.wf

theorem schema_run {s : Store} (h : s.tenant.WF) (ops : List Op) :
    (s.run ops).tenant.schema = s.tenant.schema := by
  induction ops generalizing s with
  | nil => rfl
  | cons op ops ih =>
    obtain ⟨m, -, hb⟩ := step_becomes h op
    exact (ih hb.wf).trans hb.schema

end Store

structure Tenant.Agrees (t : Tenant) (m : Ledger) : Prop where
  get? : ∀ id, t.get? id = (m id).bind (·.1)
  stateItem? : ∀ id, t.stateItem? id = (m id).bind (·.2)
  contains : ∀ id, t.contains id = ((m id).bind (·.1)).isSome
  detached : ∀ id, IdSchema.isDetached id = true → m id = none

theorem Tenant.WF.agrees {t : Tenant} (h : t.WF) : t.Agrees t.ledger where
  get? := h.get?_eq
  stateItem? := h.stateItem?_eq
  contains id := by rw [contains_eq, h.get?_eq]
  detached _ hd := t.ledger_of_isDetached hd

/-- A tenant refines the partial map from the identifiers in use to what is registered at them: the
maps after the calls of any run are one step apart, and look-ups always agree with them. -/
theorem tenant_refines_ledger (id : UInt32) (schema : IdSchema) (items : Items) :
    ∃ m : List Op → Ledger, (∀ k, m [] k = none) ∧ ∀ ops,
      ((Store.create id schema items).run ops).tenant.Agrees (m ops) ∧
      ∀ op, Ledger.Step schema (m ops) op
        (((Store.create id schema items).run ops).step op).2 (m (ops ++ [op])) := by
  have hwf : (Store.create id schema items).tenant.WF := Tenant.wf_create id schema
  refine ⟨fun ops => ((Store.create id schema items).run ops).tenant.ledger, fun k => ?_,
    fun ops => ⟨(wf_run hwf ops).agrees, fun op => ?_⟩⟩
  · exact congrFun (Tenant.ledger_create id schema) k
  · obtain ⟨m, hstep, hb⟩ := step_becomes (wf_run hwf ops) op
    rw [schema_run hwf] at hstep
    simp only [run_append]
    exact hb.ledger ▸ hstep

end EntityStore
