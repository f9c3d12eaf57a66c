import EntityStore.Proofs.Bounds.Chunk
import EntityStore.Proofs.Tenant.Allocation
import EntityStore.Tenant.Release

/-! Checked execution of a tenant. All chunks that a tenant ever made stay in order, those that are
held after it was closed too, so no check of its operations fails on any of them. -/

namespace EntityStore.Tenant
variable {t u : Tenant} {schema : IdSchema} {i offset : Nat} {c : Chunk} {ρ : Type}

/-- The chunks of a tenant are in order, whether it is open or not. -/
structure Intact (t : Tenant) (schema : IdSchema) : Prop where
  schema_eq : t.schema = schema
  size_le : t.chunks.size ≤ schema.maxChunks
  chunk : ∀ {i c}, t.heldChunk? i = some c → c.WF ∧ c.index = i ∧ c.capacity = schema.capacity

theorem WF.intact (h : t.WF) : t.Intact t.schema := by
  refine ⟨rfl, h.size_le, fun hc => ?_⟩
  have hfits := h.fits hc
  exact ⟨hfits.wf, hfits.index, hfits.capacity⟩

theorem Intact.wf (h : t.Intact schema) (hc : t.heldChunk? i = some c) : c.WF := (h.chunk hc).1

theorem Intact.congr (h : t.Intact schema) (hchunks : u.chunks = t.chunks)
    (hschema : u.schema = t.schema) : u.Intact schema := by
  refine ⟨hschema.trans h.schema_eq, hchunks ▸ h.size_le, fun hc => ?_⟩
  rw [heldChunk?, hchunks] at hc
  exact h.chunk hc

theorem Intact.setChunk (h : t.Intact schema) (hc : t.heldChunk? i = some c) {d : Chunk}
    (hd : c.Evolves d) : (t.setChunk i d).Intact schema := by
  refine ⟨h.schema_eq, (size_setChunk ..).symm ▸ h.size_le, fun he => ?_⟩
  rw [heldChunk?_setChunk hc] at he
  split at he
  · rename_i hj
    cases he
    obtain ⟨-, hindex, hcapacity⟩ := h.chunk hc
    exact ⟨hd.wf, hj ▸ hd.index.trans hindex, hd.capacity.trans hcapacity⟩
  · exact h.chunk he

theorem Intact.onHeldChunk (h : t.Intact schema) {f : Chunk → ρ × Chunk}
    (hf : ∀ {c}, t.heldChunk? i = some c → c.Evolves (f c).2) :
    (t.onHeldChunk i f).2.Intact schema := by
  cases hc : t.heldChunk? i with
  | none => rwa [onHeldChunk_of_none hc]
  | some c =>
    rw [onHeldChunk_eq hc]
    exact h.setChunk hc (hf hc)

theorem Intact.onChunk (h : t.Intact schema) {f : Chunk → ρ × Chunk}
    (hf : ∀ {c}, t.heldChunk? i = some c → c.Evolves (f c).2) :
    (t.onChunk i f).2.Intact schema := by
  unfold Tenant.onChunk
  split
  · exact h
  · exact h.onHeldChunk hf

theorem Intact.setNext (h : t.Intact schema) (i : Nat) (next : Option Nat) :
    (t.modifyChunk i (·.setNext next)).Intact schema :=
  h.onChunk fun {c} hc => (h.wf hc).evolves_links c.prev next

theorem Intact.setPrev (h : t.Intact schema) (i : Nat) (prev : Option Nat) :
    (t.modifyChunk i (·.setPrev prev)).Intact schema :=
  h.onChunk fun {c} hc => (h.wf hc).evolves_links prev c.next

theorem Intact.linkTail (h : t.Intact schema) (i : Nat) : (t.linkTail i).state.Intact schema := by
  have hlast := h.setNext t.tail (some i)
  have hnew : ((t.modifyChunk t.tail (·.setNext (some i))).modifyChunk i
      (·.link (some t.tail) none)).Intact schema :=
    hlast.onChunk fun hc => (hlast.wf hc).evolves_links _ _
  exact hnew.congr rfl rfl

theorem Intact.push (h : t.Intact schema) (hlt : t.chunks.size < t.schema.maxChunks) :
    { t with chunks := t.chunks.push (.create t.chunks.size t.schema.capacity)
             chunkCount := t.chunkCount + 1 }.Intact schema := by
  obtain rfl := h.schema_eq
  refine ⟨rfl, (Array.size_push ..).symm ▸ hlt, fun {i c} hc => ?_⟩
  replace hc : (t.chunks.push (.create t.chunks.size t.schema.capacity))[i]? = some c := hc
  rw [Array.getElem?_push] at hc
  split at hc
  · rename_i hi
    cases hc
    exact ⟨Chunk.wf_create .., hi.symm, rfl⟩
  · exact h.chunk hc

theorem Intact.grow (h : t.Intact schema) (observed : Nat) :
    (t.grow observed).state.Intact schema := by
  unfold Tenant.grow
  split
  · exact h
  · split
    · exact h
    · split
      · rename_i i parked hp
        have hrest : { t with parked }.Intact schema := h.congr rfl rfl
        have hunparked : ({ t with parked }.onChunk i fun c => ((), c.unpark)).2.Intact schema :=
          hrest.onChunk fun hc => ⟨(hrest.wf hc).wf_unpark, rfl, rfl⟩
        split
        · rename_i v hv
          rw [hv] at hunparked
          exact hunparked.linkTail i
        · rename_i v hv
          rw [hv] at hunparked
          exact hunparked
      · dsimp only
        split
        · exact (h.push ‹_›).linkTail _
        · exact h

theorem Intact.reclaim (h : t.Intact schema) (i : Nat) : (t.reclaim i).state.Intact schema := by
  unfold Tenant.reclaim
  split
  · exact h
  · have hretired : (t.onChunk i Chunk.retire).2.Intact schema :=
      h.onChunk fun hc => (h.wf hc).evolves_retire
    split
    · rename_i prev next v hv
      rw [hv] at hretired
      cases prev with
      | some p =>
        have hprev := hretired.setNext p next
        cases next with
        | some n => exact (hprev.setPrev n (some p)).congr rfl rfl
        | none => exact hprev.congr rfl rfl
      | none =>
        cases next with
        | some n => exact (hretired.setPrev n none).congr rfl rfl
        | none => exact hretired.congr rfl rfl
    · rename_i v hv
      rw [hv] at hretired
      exact hretired

/-! ### Checked operations -/

def checkedOnHeldChunk (t : Tenant) (i : Nat) (g : Chunk → Checked (ρ × Chunk)) :
    Checked (Option ρ × Tenant) :=
  match t.heldChunk? i with
  | some c => (g c).map fun (r, d) => (some r, t.setChunk i d)
  | none => some (none, t)

def checkedOnChunk (t : Tenant) (i : Nat) (g : Chunk → Checked (ρ × Chunk)) :
    Checked (Option ρ × Tenant) :=
  if t.closed then some (none, t) else t.checkedOnHeldChunk i g

theorem reusable_checkedOnChunk {g : Chunk → Checked (ρ × Chunk)} {r : Option ρ}
    (h : t.checkedOnChunk i g = some (r, u)) : u.reusable = t.reusable := by
  unfold checkedOnChunk checkedOnHeldChunk at h
  split at h
  · cases h
    rfl
  · split at h
    · obtain ⟨p, -, hp⟩ := Option.map_eq_some_iff.1 h
      cases hp
      rfl
    · cases h
      rfl

def checkedReuse (t : Tenant) : Checked (Option (Nat × Nat) × Tenant) :=
  match _hq : t.reusable.pop? with
  | none => some (none, t)
  | some (i, rest) =>
    match _hu : { t with reusable := rest }.checkedOnChunk i Chunk.checkedReuse with
    | none => none
    | some (some (some (offset, more)), u) =>
      some (some (i, offset),
        { u with reusable := if more then u.reusable.push i else u.reusable
                 live := u.live + 1 })
    | some (_, u) => u.checkedReuse
termination_by t.reusable.toList.length
decreasing_by
  rw [reusable_checkedOnChunk _hu]
  exact Fifo.length_of_pop? _hq

def checkedExtend (log : List Event) (t : Tenant) :
    Checked (Outcome Tenant (Except PoolError (Nat × Nat))) :=
  let i := t.current
  match t.checkedOnChunk i Chunk.checkedAllocate with
  | none => none
  | some (none, u) => some ⟨u, .error .closed, log⟩
  | some (some (some offset), u) => some ⟨{ u with live := u.live + 1 }, .ok (i, offset), log⟩
  | some (some none, u) =>
    match u.grow i with
    | ⟨v, .error e, more⟩ => some ⟨v, .error e, log ++ more⟩
    | ⟨v, .ok (), more⟩ =>
      if v.room < t.room then v.checkedExtend (log ++ more)
      else some ⟨v, .error .closed, log ++ more⟩
termination_by t.room

theorem checkedOnHeldChunk_eq {g : Chunk → Checked (ρ × Chunk)} {f : Chunk → ρ × Chunk}
    (h : ∀ {c}, t.heldChunk? i = some c → g c = some (f c)) :
    t.checkedOnHeldChunk i g = some (t.onHeldChunk i f) := by
  unfold checkedOnHeldChunk
  cases hc : t.heldChunk? i with
  | none => simp only [onHeldChunk_of_none hc]
  | some c => simp only [onHeldChunk_eq hc, h hc, Option.map_some]

theorem checkedOnChunk_eq {g : Chunk → Checked (ρ × Chunk)} {f : Chunk → ρ × Chunk}
    (h : ∀ {c}, t.heldChunk? i = some c → g c = some (f c)) :
    t.checkedOnChunk i g = some (t.onChunk i f) := by
  unfold checkedOnChunk onChunk
  split
  · rfl
  · exact checkedOnHeldChunk_eq h

theorem checkedReuse_of_empty (hq : t.reusable.pop? = none) : t.checkedReuse = some (none, t) := by
  rw [checkedReuse]
  split
  · rfl
  · rename_i heq
    cases hq.symm.trans heq

theorem checkedReuse_of_entry {rest : Fifo Nat} {r : Option (Option (Nat × Bool))}
    (hq : t.reusable.pop? = some (i, rest))
    (hu : { t with reusable := rest }.checkedOnChunk i Chunk.checkedReuse = some (r, u)) :
    t.checkedReuse = match r with
      | some (some (offset, more)) => some (some (i, offset),
          { u with reusable := if more then u.reusable.push i else u.reusable
                   live := u.live + 1 })
      | _ => u.checkedReuse := by
  rw [checkedReuse]
  split
  · rename_i heq
    cases hq.symm.trans heq
  · rename_i heq
    cases hq.symm.trans heq
    split <;> rename_i heq
    · cases hu.symm.trans heq
    · cases hu.symm.trans heq
      rfl
    · rename_i hr
      cases hu.symm.trans heq
      split
      · exact (hr _ _ rfl).elim
      · rfl

/-- A tenant in order, after it has handed out a slot or none. -/
structure Handed (t : Tenant) (schema : IdSchema) (place : Option (Nat × Nat)) : Prop where
  intact : t.Intact schema
  isLive : ∀ {i offset}, place = some (i, offset) →
    ∃ c, t.heldChunk? i = some c ∧ c.IsLive offset

theorem Intact.handed_none (h : t.Intact schema) : t.Handed schema none := ⟨h, nofun⟩

theorem Handed.of_onChunk {f : Chunk → ρ × Chunk} {r : ρ} (h : t.Intact schema)
    (ho : t.onChunk i f = (some r, u))
    (hf : ∀ {c d}, t.heldChunk? i = some c → f c = (r, d) → c.Takes offset d) :
    u.Handed schema (some (i, offset)) := by
  have hopen : t.closed = false := by
    cases hc : t.closed with
    | false => rfl
    | true => simp [onChunk, hc] at ho
  obtain ⟨c, d, hc, hd, rfl⟩ := exists_of_onChunk_eq_some hopen ho
  have htakes := hf hc hd
  refine ⟨h.setChunk hc htakes.evolves, fun heq => ?_⟩
  cases heq
  exact ⟨d, by rw [heldChunk?_setChunk hc, if_pos rfl], htakes.isLive⟩

theorem Handed.congr {place : Option (Nat × Nat)} (h : t.Handed schema place)
    (hchunks : u.chunks = t.chunks) (hschema : u.schema = t.schema) : u.Handed schema place := by
  refine ⟨h.intact.congr hchunks hschema, fun hp => ?_⟩
  obtain ⟨c, hc, hl⟩ := h.isLive hp
  exact ⟨c, by rw [heldChunk?, hchunks]; exact hc, hl⟩

theorem Intact.checkedReuse_eq (h : t.Intact schema) :
    t.checkedReuse = some t.reuse ∧ t.reuse.2.Handed schema t.reuse.1 := by
  fun_induction reuse t with
  | case1 t hq => exact ⟨checkedReuse_of_empty hq, h.handed_none⟩
  | case2 t i rest hq offset more u hu =>
    have hrest : { t with reusable := rest }.Intact schema := h.congr rfl rfl
    have hchecked := checkedOnChunk_eq (i := i) fun hc => (hrest.wf hc).checkedReuse_eq
    rw [hu] at hchecked
    refine ⟨checkedReuse_of_entry hq hchecked, ?_⟩
    have hu' : u.Handed schema (some (i, offset)) :=
      .of_onChunk hrest hu fun hc hr => ((hrest.wf hc).takes_of_reuse hr).1
    exact hu'.congr rfl rfl
  | case3 t i rest hq r u hr hu ih =>
    have hrest : { t with reusable := rest }.Intact schema := h.congr rfl rfl
    have hchecked := checkedOnChunk_eq (i := i) fun hc => (hrest.wf hc).checkedReuse_eq
    have hu' := hrest.onChunk (i := i) fun hc => (hrest.wf hc).evolves_reuse
    rw [hu] at hchecked hu'
    obtain ⟨heq, hhanded⟩ := ih hu'
    refine ⟨?_, hhanded⟩
    rw [checkedReuse_of_entry hq hchecked, ← heq]
    split
    · exact (hr _ _ rfl).elim
    · rfl

theorem Intact.checkedExtend_eq (h : t.Intact schema) (log : List Event) :
    t.checkedExtend log = some (t.extend log) ∧
      (t.extend log).state.Handed schema (t.extend log).result.toOption := by
  have hchecked {t : Tenant} (h : t.Intact schema) (i : Nat) :
      t.checkedOnChunk i Chunk.checkedAllocate = some (t.onChunk i Chunk.allocate) :=
    checkedOnChunk_eq fun hc => (h.wf hc).checkedAllocate_eq
  have hnext {t u : Tenant} {i : Nat} {r : Option (Option Nat)} (h : t.Intact schema)
      (hu : t.onChunk i Chunk.allocate = (r, u)) : u.Intact schema := by
    have hu' := h.onChunk (i := i) fun hc => (h.wf hc).evolves_allocate
    rwa [hu] at hu'
  fun_induction extend log t with
  | case1 log t i u hu =>
    rw [checkedExtend, hchecked h, hu]
    exact ⟨rfl, (hnext h hu).handed_none⟩
  | case2 log t i offset u hu =>
    rw [checkedExtend, hchecked h, hu]
    have hu' : u.Handed schema (some (i, offset)) :=
      .of_onChunk h hu fun hc ha => (h.wf hc).takes_of_allocate ha
    exact ⟨rfl, hu'.congr rfl rfl⟩
  | case3 log t i u hu v e more hv =>
    rw [checkedExtend, hchecked h, hu]
    have hv' := (hnext h hu).grow t.current
    replace hv : u.grow t.current = _ := hv
    simp only [hv] at hv' ⊢
    exact ⟨trivial, hv'.handed_none⟩
  | case4 log t i u hu v more hv hroom ih =>
    rw [checkedExtend, hchecked h, hu]
    have hv' := (hnext h hu).grow t.current
    replace hv : u.grow t.current = _ := hv
    simp only [hv, hroom, if_true] at hv' ⊢
    exact ih hv'
  | case5 log t i u hu v more hv hroom =>
    rw [checkedExtend, hchecked h, hu]
    have hv' := (hnext h hu).grow t.current
    replace hv : u.grow t.current = _ := hv
    simp only [hv, hroom, if_false] at hv' ⊢
    exact ⟨trivial, hv'.handed_none⟩

def checkedAllocate (t : Tenant) : Checked (Outcome Tenant (Except PoolError (Nat × Nat))) :=
  if t.closed then some ⟨t, .error .closed, []⟩
  else match t.checkedReuse with
    | none => none
    | some (some place, u) => some ⟨u, .ok place, []⟩
    | some (none, u) => u.checkedExtend []

theorem Intact.checkedAllocate_eq (h : t.Intact schema) :
    t.checkedAllocate = some t.allocate ∧
      t.allocate.state.Handed schema t.allocate.result.toOption := by
  obtain ⟨hreuse, hhanded⟩ := h.checkedReuse_eq
  unfold checkedAllocate allocate
  rw [hreuse]
  generalize t.reuse = o at hhanded
  obtain ⟨place, u⟩ := o
  split
  · exact ⟨rfl, h.handed_none⟩
  · cases place with
    | some place => exact ⟨rfl, hhanded⟩
    | none => exact hhanded.intact.checkedExtend_eq []

theorem Handed.encodeIn_eq (h : t.Handed schema (some (i, offset))) :
    schema.encodeIn .debug i offset = some (schema.encode i offset) := by
  obtain ⟨c, hc, hl⟩ := h.isLive rfl
  obtain ⟨hwf, -, hcapacity⟩ := h.intact.chunk hc
  have hi := Nat.lt_of_lt_of_le (lt_of_heldChunk? hc) h.intact.size_le
  exact if_pos ⟨hi, hcapacity ▸ hwf.lt_capacity_of_isLive hl⟩

def checkedNextId (t : Tenant) : Checked (Outcome Tenant (Except PoolError UInt32)) := do
  match ← t.checkedAllocate with
  | ⟨u, .error e, log⟩ => return ⟨u, .error e, log⟩
  | ⟨u, .ok (i, offset), log⟩ =>
    let id ← t.schema.encodeIn .debug i offset
    return ⟨u, .ok id, log⟩

def checkedAllocateIn (t : Tenant) (i : Nat) : Checked (Outcome Tenant (Option Nat)) := do
  let (offset, u) ← t.checkedOnHeldChunk i Chunk.checkedAllocate
  return ⟨u, offset.join, []⟩

def checkedModify (t : Tenant) (i : Nat) (g : Chunk → Checked Chunk) : Checked Tenant :=
  (t.checkedOnHeldChunk i fun c => (g c).map fun d => ((), d)).map (·.2)

def checkedRegister (t : Tenant) (items : Items) (item : ItemId) (stateItem : Option ItemId) :
    Checked (Outcome (Tenant × Items) (Except PoolError UInt32)) := do
  match ← t.checkedAllocate with
  | ⟨u, .error e, log⟩ => return ⟨(u, items), .error e, log⟩
  | ⟨u, .ok (i, offset), log⟩ =>
    let id ← u.schema.encodeIn .debug i offset
    let place : ChunkRef := ⟨u.id, .ofNat i⟩
    let items := items.modify item (·.place id place)
    let items := items.modify? stateItem (·.placeState id place)
    let v ← match stateItem with
      | some s => u.checkedModify i (·.checkedPutState offset s)
      | none => some u
    let w ← v.checkedModify i (·.checkedPut offset item)
    return ⟨(w, items), .ok id, log ++ [.registered u.id id]⟩

/-- The chunk is the only one that makes checks; what follows writes links and headers. -/
def checkedFreeId (t : Tenant) (items : Items) (id : UInt32) :
    Checked (Outcome (Tenant × Items) (Except PoolError (Option ItemId))) := do
  if t.closed ∨ IdSchema.isDetached id then return t.freeId items id
  let (i, offset) := t.schema.decode id
  let _ ← t.checkedOnChunk i (·.checkedRelease offset)
  return t.freeId items id

def checkedFreeItem (t : Tenant) (items : Items) (item : ItemId) :
    Checked (Outcome (Tenant × Items) (Except PoolError (Option ItemId))) :=
  let h := items.header item
  if t.owns h then t.checkedFreeId items h.id else some (t.freeItem items item)

theorem Intact.checkedNextId_eq (h : t.Intact schema) :
    t.checkedNextId = some t.nextId ∧ t.nextId.state.Intact schema := by
  obtain ⟨hallocate, hhanded⟩ := h.checkedAllocate_eq
  unfold checkedNextId nextId
  rw [hallocate]
  generalize t.allocate = o at hhanded
  obtain ⟨u, e | ⟨i, offset⟩, log⟩ := o
  · exact ⟨rfl, hhanded.intact⟩
  · replace hhanded : u.Handed schema (some (i, offset)) := hhanded
    refine ⟨?_, hhanded.intact⟩
    rw [h.schema_eq]
    simp [hhanded.encodeIn_eq, Outcome.map, Except.map]

theorem Intact.checkedAllocateIn_eq (h : t.Intact schema) (i : Nat) :
    t.checkedAllocateIn i = some (t.allocateIn i) ∧ (t.allocateIn i).state.Intact schema := by
  refine ⟨?_, h.onHeldChunk fun hc => (h.wf hc).evolves_allocate⟩
  unfold checkedAllocateIn allocateIn
  rw [checkedOnHeldChunk_eq fun hc => (h.wf hc).checkedAllocate_eq]
  rfl

theorem checkedModify_eq {g : Chunk → Checked Chunk} {f : Chunk → Chunk}
    (h : ∀ {c}, t.heldChunk? i = some c → g c = some (f c)) :
    t.checkedModify i g = some (t.modifyHeldChunk i f) := by
  unfold checkedModify modifyHeldChunk
  rw [checkedOnHeldChunk_eq fun hc => by rw [h hc]; rfl]
  rfl

theorem Handed.modify (h : t.Handed schema (some (i, offset))) {g : Chunk → Checked Chunk}
    {f : Chunk → Chunk} (hf : ∀ {c}, c.WF → c.IsLive offset →
      g c = some (f c) ∧ c.Evolves (f c) ∧ (f c).IsLive offset) :
    t.checkedModify i g = some (t.modifyHeldChunk i f) ∧
      (t.modifyHeldChunk i f).Handed schema (some (i, offset)) := by
  obtain ⟨c, hc, hl⟩ := h.isLive rfl
  obtain ⟨hg, hevolves, hlive⟩ := hf (h.intact.wf hc) hl
  refine ⟨checkedModify_eq fun hd => ?_, ?_⟩
  · cases hc.symm.trans hd
    exact hg
  · rw [modifyHeldChunk_eq hc]
    refine ⟨h.intact.setChunk hc hevolves, fun hp => ?_⟩
    cases hp
    exact ⟨f c, by rw [heldChunk?_setChunk hc, if_pos rfl], hlive⟩

theorem Intact.checkedRegister_eq (h : t.Intact schema) (items : Items) (item : ItemId)
    (stateItem : Option ItemId) :
    t.checkedRegister items item stateItem = some (t.register items item stateItem) ∧
      (t.register items item stateItem).state.1.Intact schema := by
  obtain ⟨hallocate, hhanded⟩ := h.checkedAllocate_eq
  unfold checkedRegister register
  rw [hallocate]
  generalize t.allocate = o at hhanded
  obtain ⟨u, e | ⟨i, offset⟩, log⟩ := o
  · exact ⟨rfl, hhanded.intact⟩
  · replace hhanded : u.Handed schema (some (i, offset)) := hhanded
    have hid := hhanded.encodeIn_eq
    rw [← hhanded.intact.schema_eq] at hid
    have hput {v : Tenant} (hv : v.Handed schema (some (i, offset))) := hv.modify
      (g := (·.checkedPut offset item)) fun hc hl =>
        ⟨hc.checkedPut_eq hl item, hc.evolves_put hl item, hl⟩
    cases stateItem with
    | none =>
      obtain ⟨hchecked, hlast⟩ := hput hhanded
      simp [hid, hchecked, hlast.intact]
    | some x =>
      obtain ⟨hstate, hnext⟩ := hhanded.modify (g := (·.checkedPutState offset x)) fun hc hl =>
        ⟨hc.checkedPutState_eq hl x, hc.evolves_putState hl x, hl⟩
      obtain ⟨hchecked, hlast⟩ := hput hnext
      simp [hid, hstate, hchecked, hlast.intact]

theorem Intact.checkedFreeId_eq (h : t.Intact schema) (items : Items) (id : UInt32) :
    t.checkedFreeId items id = some (t.freeId items id) ∧
      (t.freeId items id).state.1.Intact schema := by
  have hchecked (i offset : Nat) : t.checkedOnChunk i (·.checkedRelease offset) =
      some (t.onChunk i (·.release offset)) :=
    checkedOnChunk_eq fun hc => (h.wf hc).checkedRelease_eq offset
  have hfreed (i offset : Nat) : (t.onChunk i (·.release offset)).2.Intact schema :=
    h.onChunk fun hc => (h.wf hc).evolves_release offset
  refine ⟨?_, ?_⟩
  · unfold checkedFreeId
    split
    · rfl
    · simp [hchecked]
  · unfold freeId
    split
    · exact h
    · split
      · exact h
      · have hfreed := hfreed (t.schema.decode id).1 (t.schema.decode id).2
        dsimp only
        split <;> rename_i hv <;> rw [hv] at hfreed
        · exact hfreed
        · exact hfreed
        · rename_i freed v
          have hqueued : (if freed.reopened then
              { v with live := v.live - 1, reusable := v.reusable.push (t.schema.decode id).1 }
              else { v with live := v.live - 1 }).Intact schema := by
            split <;> exact hfreed.congr rfl rfl
          cases freed.drained with
          | true => exact hqueued.reclaim _
          | false => exact hqueued

theorem Intact.checkedFreeItem_eq (h : t.Intact schema) (items : Items) (item : ItemId) :
    t.checkedFreeItem items item = some (t.freeItem items item) ∧
      (t.freeItem items item).state.1.Intact schema := by
  unfold checkedFreeItem freeItem
  dsimp only
  split
  · exact h.checkedFreeId_eq items _
  · exact ⟨rfl, h⟩

end EntityStore.Tenant
