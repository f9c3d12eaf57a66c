import EntityStore.Key
import EntityStore.Proofs.Bounds.ClassIndex
import EntityStore.Proofs.Bounds.Tenant
import EntityStore.Proofs.Tenant.Closing

/-! Checked runs. Whatever is asked of a tenant before and after it is closed, and of a class index
and the layouts made from it, the checked run has a result, and it is the one of the run. -/

namespace EntityStore

namespace Store

inductive Call where
  | op (op : Op)
  | close

def serve (s : Store) : Call → Store × Answer
  | .op op => s.step op
  | .close => ({ s with tenant := s.tenant.close.state }, .done)

def runCalls (s : Store) : List Call → Store × List Answer
  | [] => (s, [])
  | c :: calls =>
    let (s, answer) := s.serve c
    let (s, answers) := s.runCalls calls
    (s, answer :: answers)

def checkedStep (s : Store) : Op → Checked (Store × Answer)
  | .nextId => s.tenant.checkedNextId.map fun o => ({ s with tenant := o.state }, .taken o.result)
  | .register item stateItem =>
    (s.tenant.checkedRegister s.items item stateItem).map fun o =>
      (⟨o.state.1, o.state.2⟩, .taken o.result)
  | .freeId id =>
    (s.tenant.checkedFreeId s.items id).map fun o => (⟨o.state.1, o.state.2⟩, .freed id o.result)
  | .freeItem item =>
    (s.tenant.checkedFreeItem s.items item).map fun o =>
      (⟨o.state.1, o.state.2⟩, .freed (s.items.header item).id o.result)
  | .allocateIn chunk =>
    (s.tenant.checkedAllocateIn chunk).map fun o => ({ s with tenant := o.state }, .offset o.result)
  | .setHeaders items => some ({ s with items }, .done)

def checkedServe (s : Store) : Call → Checked (Store × Answer)
  | .op op => s.checkedStep op
  | .close => some ({ s with tenant := s.tenant.close.state }, .done)

def checkedRun (s : Store) : List Call → Checked (Store × List Answer)
  | [] => some (s, [])
  | c :: calls => do
    let (s, answer) ← s.checkedServe c
    let (s, answers) ← s.checkedRun calls
    return (s, answer :: answers)

variable {s : Store} {schema : IdSchema}

theorem checkedStep_eq (h : s.tenant.Intact schema) (op : Op) :
    s.checkedStep op = some (s.step op) ∧ (s.step op).1.tenant.Intact schema := by
  cases op with
  | nextId => exact h.checkedNextId_eq.imp_left (congrArg (Option.map _))
  | register item stateItem =>
    exact (h.checkedRegister_eq s.items item stateItem).imp_left (congrArg (Option.map _))
  | freeId id => exact (h.checkedFreeId_eq s.items id).imp_left (congrArg (Option.map _))
  | freeItem item => exact (h.checkedFreeItem_eq s.items item).imp_left (congrArg (Option.map _))
  | allocateIn chunk => exact (h.checkedAllocateIn_eq chunk).imp_left (congrArg (Option.map _))
  | setHeaders items => exact ⟨rfl, h⟩

theorem checkedServe_eq (h : s.tenant.Intact schema) (c : Call) :
    s.checkedServe c = some (s.serve c) ∧ (s.serve c).1.tenant.Intact schema := by
  cases c with
  | op op => exact checkedStep_eq h op
  | close =>
    refine ⟨rfl, ?_⟩
    show s.tenant.close.state.Intact schema
    unfold Tenant.close
    split
    · exact h
    · exact h.congr rfl rfl

theorem checkedRun_eq (h : s.tenant.Intact schema) (calls : List Call) :
    s.checkedRun calls = some (s.runCalls calls) ∧ (s.runCalls calls).1.tenant.Intact schema := by
  induction calls generalizing s with
  | nil => exact ⟨rfl, h⟩
  | cons c calls ih =>
    obtain ⟨hcall, hnext⟩ := checkedServe_eq h c
    obtain ⟨hrest, hlast⟩ := ih hnext
    refine ⟨?_, hlast⟩
    rw [checkedRun, hcall]
    simp only [Option.bind_eq_bind, Option.bind_some, hrest]
    rfl

/-- The checks of a run all hold, and afterwards the counters of every chunk that was ever made are
in their ranges, and what there is to encode of it fits into an identifier. -/
structure InBounds (s : Store) (calls : List Call) : Prop where
  checked : s.checkedRun calls = some (s.runCalls calls)
  nextOffset_le : ∀ i c, (s.runCalls calls).1.tenant.heldChunk? i = some c →
    c.nextOffset ≤ c.capacity
  live_le : ∀ i c, (s.runCalls calls).1.tenant.heldChunk? i = some c → c.live ≤ c.capacity
  encodes : ∀ i c, (s.runCalls calls).1.tenant.heldChunk? i = some c →
    c.index < s.tenant.schema.maxChunks ∧
      ∀ offset ∈ c.allocated, offset < s.tenant.schema.capacity

theorem inBounds (id : UInt32) (schema : IdSchema) (items : Items) (calls : List Call) :
    (Store.create id schema items).InBounds calls := by
  obtain ⟨hchecked, h⟩ := checkedRun_eq (s := Store.create id schema items)
    (Tenant.wf_create id schema).intact calls
  refine ⟨hchecked, fun i c hc => (h.wf hc).nextOffset_le, fun i c hc => (h.wf hc).live_le,
    fun i c hc => ?_⟩
  obtain ⟨hwf, hindex, hcapacity⟩ := h.chunk hc
  refine ⟨hindex ▸ Nat.lt_of_lt_of_le (Tenant.lt_of_heldChunk? hc) h.size_le, fun offset ho => ?_⟩
  have hlt := hwf.lt_capacity_of_isLive ((hwf.mem_allocated offset).1 ho)
  rwa [hcapacity] at hlt

end Store

/-- The checks of a run of a class index all hold, and so do those of making a layout afterwards and
of asking it for codes. -/
structure ClassIndex.InBounds {κ : Type} [BEq κ] [Hashable κ] (x : ClassIndex κ) (ops : List (Op κ))
    (types : List κ) : Prop where
  checked : x.checkedRun ops = some (x.run ops)
  layout : Layout.checkedCreate (x.run ops).2 types = some (Layout.create (x.run ops).2 types)
  codeOf : ∀ l, (Layout.create (x.run ops).2 types).result = .ok l →
    ∀ type, l.checkedCodeOf type = some (l.codeOf? type)

/-- No index is out of bounds and no counter out of its range in any run of a tenant, open or
closed, and of its chunks, nor in one of a class index that has codes for all keys. -/
theorem inBounds_of_run {κ : Type} [BEq κ] [Hashable κ] [EquivBEq κ] [LawfulHashable κ]
    (id : UInt32) (schema : IdSchema) (items : Items) (calls : List Store.Call) {hashBits : Nat}
    {x : ClassIndex κ}
    {log : List Event} (hx : ClassIndex.create hashBits = .ok (x, log))
    (ops : List (ClassIndex.Op κ)) (types : List κ)
    (hlt : ((({} : Numbering κ).run ops).2.getOrAddAll types).2.keys.length < UInt32.size) :
    (Store.create id schema items).InBounds calls ∧ x.InBounds ops types := by
  refine ⟨Store.inBounds id schema items calls, ?_⟩
  have h := ClassIndex.flagged_of_create hx
  have hle := ((({} : Numbering κ).run ops).2.keys_prefix_getOrAddAll types).length_le
  exact
    { checked := h.checkedRun_eq ops (Nat.lt_of_le_of_lt hle hlt)
      layout := Layout.checkedCreate_eq (h.run ops) types hlt
      codeOf := fun l hl => Layout.checkedCodeOf_eq hl }

/-- A slot that is freed twice, and a chunk that is allocated in after its tenant was closed; two
keys that meet at one slot, and a set that names a key twice. -/
theorem inBounds_of_run_doubleFree :
    (Store.create 1 .standard {}).InBounds
      [.op .nextId, .op (.freeId 0), .op (.freeId 0), .close, .op (.freeId 0),
        .op (.allocateIn 0)] ∧
    ∃ (x : ClassIndex Key) (log : List Event), ClassIndex.create 4 = .ok (x, log) ∧
      x.InBounds [.add (.bucket 7 1), .add (.bucket 7 2), .setHash [.bucket 7 1, .bucket 7 1]]
        [.bucket 7 2, .bucket 7 3] := by
  obtain ⟨x, log, hx, -⟩ := ClassIndex.exists_create (κ := Key) (by decide : 2 ≤ 4) (by decide)
  obtain ⟨hstore, hindex⟩ := inBounds_of_run 1 .standard {}
    [.op .nextId, .op (.freeId 0), .op (.freeId 0), .close, .op (.freeId 0), .op (.allocateIn 0)]
    hx [.add (.bucket 7 1), .add (.bucket 7 2), .setHash [.bucket 7 1, .bucket 7 1]]
    [.bucket 7 2, .bucket 7 3] (by decide)
  exact ⟨hstore, x, log, hx, hindex⟩

end EntityStore
