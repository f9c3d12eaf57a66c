import EntityStore.Proofs.Identifier.Packing
import EntityStore.Proofs.Tenant.Census
import EntityStore.Proofs.Tenant.Placement
import EntityStore.Proofs.Tenant.Turnover

/-! Freeing is exact and leaves no trace when it fails. The answer tells which of three things an
identifier is: the name of a slot that is handed out, of a vacant one, or of none. A successful free
takes from the one slot what was registered at it, and no other slot and no other header changes. -/

namespace EntityStore
namespace Tenant

/-- The identifier of a slot that is handed out. -/
def Allocated (t : Tenant) (id : UInt32) : Prop :=
  IdSchema.isDetached id = false ∧
    ∃ c, t.heldChunk? (t.schema.decode id).1 = some c ∧ c.IsLive (t.schema.decode id).2

/-- The identifier of a slot on the free stack of its chunk. -/
def Vacant (t : Tenant) (id : UInt32) : Prop :=
  IdSchema.isDetached id = false ∧
    ∃ c, t.heldChunk? (t.schema.decode id).1 = some c ∧ (t.schema.decode id).2 ∈ c.free

/-- An identifier with the detached tag, or one of no chunk, of an offset above the mark of its
chunk or of a parked chunk. -/
def Unknown (t : Tenant) (id : UInt32) : Prop :=
  IdSchema.isDetached id = true ∨ t.heldChunk? (t.schema.decode id).1 = none ∨
    ∃ c, t.heldChunk? (t.schema.decode id).1 = some c ∧
      (c.highWater ≤ (t.schema.decode id).2 ∨ c.parked = true)

/-- What a free takes away: the slot of the identifier, its one place in the counts of live slots,
and what the headers of the item and the state item say, which keep the identifier with the tag set.
-/
structure Vacates (t : Tenant) (items : Items) (id : UInt32)
    (content : Option ItemId × Option ItemId) (u : Tenant) (items' : Items) : Prop where
  held : t.slot? (t.schema.decode id).1 (t.schema.decode id).2 = some content
  slot : ∀ i o, u.slot? i o =
    if i = (t.schema.decode id).1 ∧ o = (t.schema.decode id).2 then none else t.slot? i o
  found : ∀ (role : Role) id', role.get? u id' = if id' = id then none else role.get? t id'
  live : u.live = t.live - 1
  count : ∀ i, (t.heldChunk? i).map (·.live) =
    (u.heldChunk? i).map fun c => if i = (t.schema.decode id).1 then c.live + 1 else c.live
  place : ∀ (role : Role) x, x < items.headers.size → role.place (items'.header x) =
    if role.entry content = some x then (id ||| IdSchema.tag, none)
    else role.place (items.header x)
  header : ∀ x, content.1 ≠ some x → content.2 ≠ some x → items'.header x = items.header x

section
variable {t u : Tenant} {items : Items} {id : UInt32} {i offset : Nat} {c d : Chunk}
  {content : Option ItemId × Option ItemId}

/-! ### The live slots of each chunk -/

theorem Sets.live_of_ne {r : Option (Option ItemId × Option ItemId)} (h : t.WF)
    (hs : t.Sets i offset r u) {j : Nat} (hj : j ≠ i) (hc : t.heldChunk? j = some c)
    (hd : u.heldChunk? j = some d) : c.live = d.live := by
  have hcontent (o : Nat) : d.content? o = c.content? o := by
    rw [← slot?_eq hd, ← slot?_eq hc, hs.slot, if_neg fun hjo => hj hjo.1]
  have hcap : d.capacity = c.capacity := by
    rw [hs.wf.chunk_capacity hd, h.chunk_capacity hc, hs.schema]
  rw [(h.chunk_wf hc).live_eq_card, (hs.wf.chunk_wf hd).live_eq_card, hcap]
  simp only [hcontent]

theorem Sets.live_of_cleared (h : t.WF) (hs : t.Sets i offset none u)
    (hslot : t.slot? i offset = some content) (hc : t.heldChunk? i = some c)
    (hd : u.heldChunk? i = some d) : c.live = d.live + 1 := by
  have hcontent (o : Nat) : d.content? o = if o = offset then none else c.content? o := by
    rw [← slot?_eq hd, ← slot?_eq hc, hs.slot]
    simp only [true_and]
  have hcap : d.capacity = c.capacity := by
    rw [hs.wf.chunk_capacity hd, h.chunk_capacity hc, hs.schema]
  have hlive : c.content? offset = some content := (slot?_eq hc offset).symm.trans hslot
  have hlt : offset < c.capacity :=
    (h.chunk_wf hc).lt_capacity_of_isLive (Chunk.isLive_of_content? hlive)
  have hmem : offset ∈ (Finset.range c.capacity).filter fun o => (c.content? o).isSome := by
    rw [Finset.mem_filter, Finset.mem_range, hlive]
    exact ⟨hlt, rfl⟩
  have herase : (Finset.range d.capacity).filter (fun o => (d.content? o).isSome) =
      ((Finset.range c.capacity).filter fun o => (c.content? o).isSome).erase offset := by
    ext o
    rw [Finset.mem_erase, Finset.mem_filter, Finset.mem_filter, hcap, hcontent]
    by_cases ho : o = offset
    · simp [ho]
    · simp [ho]
  rw [(h.chunk_wf hc).live_eq_card, (hs.wf.chunk_wf hd).live_eq_card, herase,
    Finset.card_erase_add_one hmem]

/-! ### The three answers -/

theorem WF.standing_cases (h : t.WF) (id : UInt32) :
    t.Allocated id ∨ t.Vacant id ∨ t.Unknown id := by
  cases hid : IdSchema.isDetached id with
  | true => exact .inr (.inr (.inl hid))
  | false =>
    cases hc : t.heldChunk? (t.schema.decode id).1 with
    | none => exact .inr (.inr (.inr (.inl hc)))
    | some c =>
      have hmark := (h.chunk_wf hc).highWater_eq
      by_cases hlt : c.nextOffset ≤ (t.schema.decode id).2
      · exact .inr (.inr (.inr (.inr ⟨c, hc, .inl (hmark ▸ hlt)⟩)))
      · by_cases hfree : (t.schema.decode id).2 ∈ c.free
        · exact .inr (.inl ⟨hid, c, hc, hfree⟩)
        · exact .inl ⟨hid, c, hc, Nat.lt_of_not_le hlt, hfree⟩

theorem WF.vacates_of_sets (h : t.WF) (hid : IdSchema.isDetached id = false)
    (hheld : t.slot? (t.schema.decode id).1 (t.schema.decode id).2 = some content)
    (hs : t.Sets (t.schema.decode id).1 (t.schema.decode id).2 none u)
    (hsize : u.chunks.size = t.chunks.size) (hlive : u.live = t.live - 1) (items : Items) :
    t.Vacates items id content u (items.mark content (IdSchema.detach id) none) := by
  have hb := hs.becomes (t.schema.decode_fst_lt id) (t.schema.decode_snd_lt id)
  rw [t.schema.encode_decode hid] at hb
  refine
    { held := hheld
      slot := hs.slot
      found := ?_
      live := hlive
      count := ?_
      place := ?_
      header := ?_ }
  · intro role id'
    rw [role.get?_eq hb.wf, role.get?_eq h, hb.ledger]
    by_cases hne : id' = id
    · rw [if_pos hne, hne, Function.update_self]
      rfl
    · rw [if_neg hne, Function.update_of_ne hne]
  · intro i
    cases hc : t.heldChunk? i with
    | none =>
      have hd : u.heldChunk? i = none := by
        rw [heldChunk?_eq_none_iff, hsize]
        exact heldChunk?_eq_none_iff.1 hc
      rw [hd]
      rfl
    | some c =>
      have hi : i < u.chunks.size := hsize ▸ lt_of_heldChunk? hc
      have hd : u.heldChunk? i = some u.chunks[i] := Array.getElem?_eq_getElem hi
      rw [hd, Option.map_some, Option.map_some]
      congr 1
      split
      · rename_i heq
        subst heq
        exact hs.live_of_cleared h hheld hc hd
      · rename_i hne
        exact hs.live_of_ne h hne hc hd
  · intro role x hx
    rw [items.place_mark content (IdSchema.detach id) rfl role x, IdSchema.detach_eq_or_tag]
    simp only [hx, and_true]
  · intro x hitem hstate
    unfold Items.mark
    rw [Items.header_modify?, if_neg fun hx => hstate hx.1, Items.header_modify?,
      if_neg fun hx => hitem hx.1]

theorem WF.freeId_of_allocated (h : t.WF) (items : Items) (ha : t.Allocated id) :
    ∃ content u items' log, t.freeId items id = ⟨(u, items'), .ok content.1, log⟩ ∧
      t.Vacates items id content u items' := by
  obtain ⟨hid, c, hc, hl⟩ := ha
  have hcw := h.chunk_wf hc
  cases hr : c.release (t.schema.decode id).2 with
  | mk r d =>
    cases r with
    | error e =>
      obtain ⟨-, hnone, -⟩ := hcw.of_release_eq_error hr
      rw [Chunk.content?_of_isLive hl] at hnone
      cases hnone
    | ok freed =>
      have hd := hcw.frees_of_release hr
      obtain ⟨log, hf⟩ := h.freeId_of_released items hid hc hr
      have hsize := (t.parked_freeId items id).2
      rw [hf] at hsize
      have hheld := (slot?_eq hc _).trans hd.content_before
      exact ⟨(freed.item, freed.stateItem), _, _, log, hf,
        h.vacates_of_sets hid hheld (h.sets_afterFree hc hd) hsize (t.live_vacated _ freed d) items⟩

theorem WF.freeId_of_vacant (h : t.WF) (items : Items) (hv : t.Vacant id) :
    (t.freeId items id).result = .error (.alreadyFree id) := by
  obtain ⟨hid, c, hc, hfree⟩ := hv
  have hcw := h.chunk_wf hc
  cases hr : c.release (t.schema.decode id).2 with
  | mk r d =>
    cases r with
    | error e =>
      obtain ⟨-, -, he⟩ := hcw.of_release_eq_error hr
      rw [h.freeId_of_refused items hid hc hr, he.2 hfree]
      rfl
    | ok freed =>
      have hl := Chunk.isLive_of_content? (hcw.frees_of_release hr).content_before
      exact absurd hfree hl.2

theorem WF.freeId_of_unknown (h : t.WF) (items : Items) (hu : t.Unknown id) :
    (t.freeId items id).result = .error (.invalidId id) := by
  cases hid : IdSchema.isDetached id with
  | true => rw [h.freeId_of_isDetached items hid]
  | false =>
    rcases hu with hd | hnone | ⟨c, hc, hout⟩
    · rw [hid] at hd
      cases hd
    · rw [h.freeId_of_missing items hid hnone]
    · have hcw := h.chunk_wf hc
      have hle : c.nextOffset ≤ (t.schema.decode id).2 := by
        rcases hout with hle | hp
        · exact hcw.highWater_eq ▸ hle
        · rw [hcw.nextOffset_of_parked hp]
          exact Nat.zero_le _
      have hr : c.release (t.schema.decode id).2 = (.error .unallocated, c) := if_pos hle
      rw [h.freeId_of_refused items hid hc hr]
      rfl

end
end Tenant

namespace Store
variable {s : Store} {id : UInt32}

def handsOut (s : Store) (op : Op) : Option UInt32 :=
  match op, (s.step op).2 with
  | .allocateIn chunk, .offset (some offset) => some (s.tenant.schema.encode chunk offset)
  | _, .taken (.ok id) => some id
  | _, _ => none

def Withholds (s : Store) (id : UInt32) : List Op → Prop
  | [] => True
  | op :: ops => s.handsOut op ≠ some id ∧ (s.step op).1.Withholds id ops

theorem ledger_step_of_withheld (h : s.tenant.WF) {op : Op} (hm : s.tenant.ledger id = none)
    (hop : s.handsOut op ≠ some id) : (s.step op).1.tenant.ledger id = none := by
  obtain ⟨m, hstep, hb⟩ := step_becomes h op
  have hother {id' : UInt32} {r : Option (Option ItemId × Option ItemId)}
      (hne : s.handsOut op = some id') : Function.update s.tenant.ledger id' r id = none := by
    rw [Function.update_of_ne, hm]
    rintro rfl
    exact hop hne
  have hcleared {id' : UInt32} : Function.update s.tenant.ledger id' none id = none := by
    rw [Function.update_apply, hm, ite_self]
  rw [hb.ledger]
  unfold handsOut at hother
  generalize (s.step op).2 = answer at hstep hother
  cases hstep with
  | nextId hid hfree => exact hother rfl
  | register hid hfree => exact hother rfl
  | allocateIn hfree => exact hother rfl
  | freeId hheld => exact hcleared
  | freeItem hheld => exact hcleared
  | nextIdRefused => exact hm
  | registerRefused => exact hm
  | freeIdRefused => exact hm
  | freeItemRefused => exact hm
  | allocateInRefused => exact hm
  | setHeaders => exact hm

theorem ledger_run_of_withheld (h : s.tenant.WF) {ops : List Op} (hm : s.tenant.ledger id = none)
    (hops : s.Withholds id ops) : (s.run ops).tenant.ledger id = none := by
  induction ops generalizing s with
  | nil => exact hm
  | cons op ops ih =>
    obtain ⟨hop, hops⟩ := hops
    obtain ⟨m, -, hb⟩ := step_becomes h op
    exact ih hb.wf (ledger_step_of_withheld h hm hop) hops

theorem step_of_taken_error (h : s.tenant.WF) {op : Op} {e : PoolError}
    (he : (s.step op).2 = .taken (.error e)) :
    ∃ queue, (s.step op).1 = ⟨{ s.tenant with reusable := queue }, s.items⟩ := by
  rcases h.allocate_cases with ⟨i, offset, u, log, ha, -⟩ | ⟨e', u, ha, -, queue, rfl⟩
  · cases op with
    | nextId => simp [step, Tenant.nextId, Outcome.map, ha, Except.map] at he
    | register item stateItem => simp [step, Tenant.register, ha] at he
    | freeId id => cases he
    | freeItem item => cases he
    | allocateIn chunk => cases he
    | setHeaders items => cases he
  · refine ⟨queue, ?_⟩
    cases op with
    | nextId =>
      simp only [step, Tenant.nextId, Outcome.map, ha]
      rfl
    | register item stateItem =>
      simp only [step, Tenant.register, ha]
      rfl
    | freeId id => cases he
    | freeItem item => cases he
    | allocateIn chunk => cases he
    | setHeaders items => cases he

theorem state_of_freeId_error (h : s.tenant.WF) {e : PoolError}
    (he : (s.tenant.freeId s.items id).result = .error e) :
    (s.tenant.freeId s.items id).state = (s.tenant, s.items) := by
  rcases h.freeId_cases s.items id with ⟨freed, u, log, hf, -, -⟩ | ⟨e', log, hf, -⟩
  · rw [hf] at he
    cases he
  · rw [hf]

theorem step_of_freed_error (h : s.tenant.WF) {op : Op} {e : PoolError}
    (he : (s.step op).2 = .freed id (.error e)) : (s.step op).1 = s := by
  cases op with
  | nextId => cases he
  | register item stateItem => cases he
  | freeId id' =>
    obtain ⟨-, hr⟩ := Answer.freed.inj he
    simp only [step, state_of_freeId_error h hr]
  | freeItem item =>
    obtain ⟨-, hr⟩ := Answer.freed.inj he
    unfold Tenant.freeItem at hr
    simp only [step, Tenant.freeItem]
    by_cases howns : s.tenant.owns (s.items.header item) = true
    · rw [if_pos howns] at hr ⊢
      rw [state_of_freeId_error h hr]
    · rw [if_neg howns]
  | allocateIn chunk => cases he
  | setHeaders items => cases he

/-- The answer to a free is exact, a success takes away one slot and nothing else, what was freed
stays free until it is handed out again, and a call that fails leaves the chunks, the counts and the
headers as they are. -/
structure FreesExactly (s : Store) : Prop where
  standing : ∀ id, s.tenant.Allocated id ∨ s.tenant.Vacant id ∨ s.tenant.Unknown id
  ok_iff : ∀ id, (∃ item, (s.tenant.freeId s.items id).result = .ok item) ↔ s.tenant.Allocated id
  alreadyFree_iff : ∀ id, (s.tenant.freeId s.items id).result = .error (.alreadyFree id) ↔
    s.tenant.Vacant id
  invalidId_iff : ∀ id, (s.tenant.freeId s.items id).result = .error (.invalidId id) ↔
    s.tenant.Unknown id
  vacates : ∀ id item, (s.tenant.freeId s.items id).result = .ok item →
    ∃ stateItem, s.tenant.Vacates s.items id (item, stateItem)
      (s.tenant.freeId s.items id).state.1 (s.tenant.freeId s.items id).state.2
  once : ∀ id item ops, (s.tenant.freeId s.items id).result = .ok item →
    (s.step (.freeId id)).1.Withholds id ops →
    ∃ e, (((s.step (.freeId id)).1.run ops).step (.freeId id)).2 = .freed id (.error e)
  refused : ∀ op id e, (s.step op).2 = .freed id (.error e) → (s.step op).1 = s
  exhausted : ∀ op e, (s.step op).2 = .taken (.error e) →
    ∃ queue, (s.step op).1 = ⟨{ s.tenant with reusable := queue }, s.items⟩

theorem freesExactly (h : s.tenant.WF) : s.FreesExactly := by
  have hok {id : UInt32} (ha : s.tenant.Allocated id) :
      ∃ item, (s.tenant.freeId s.items id).result = .ok item := by
    obtain ⟨content, u, items', log, hf, -⟩ := h.freeId_of_allocated s.items ha
    exact ⟨content.1, by rw [hf]⟩
  have hanswer (id : UInt32) :
      (s.tenant.Allocated id ∧ ∃ item, (s.tenant.freeId s.items id).result = .ok item) ∨
      (s.tenant.Vacant id ∧ (s.tenant.freeId s.items id).result = .error (.alreadyFree id)) ∨
      (s.tenant.Unknown id ∧ (s.tenant.freeId s.items id).result = .error (.invalidId id)) :=
    (h.standing_cases id).imp (fun ha => ⟨ha, hok ha⟩)
      (.imp (fun hv => ⟨hv, h.freeId_of_vacant s.items hv⟩)
        fun hu => ⟨hu, h.freeId_of_unknown s.items hu⟩)
  refine
    { standing := h.standing_cases
      ok_iff := ?_
      alreadyFree_iff := ?_
      invalidId_iff := ?_
      vacates := ?_
      once := ?_
      refused := fun op id e he => step_of_freed_error h he
      exhausted := fun op e he => step_of_taken_error h he }
  · refine fun id => ⟨fun ⟨item, hr⟩ => ?_, hok⟩
    rcases hanswer id with ⟨ha, -⟩ | ⟨-, hv⟩ | ⟨-, hu⟩
    · exact ha
    · cases hr.symm.trans hv
    · cases hr.symm.trans hu
  · refine fun id => ⟨fun hr => ?_, h.freeId_of_vacant s.items⟩
    rcases hanswer id with ⟨-, item, ha⟩ | ⟨hv, -⟩ | ⟨-, hu⟩
    · cases hr.symm.trans ha
    · exact hv
    · cases hr.symm.trans hu
  · refine fun id => ⟨fun hr => ?_, h.freeId_of_unknown s.items⟩
    rcases hanswer id with ⟨-, item, ha⟩ | ⟨-, hv⟩ | ⟨hu, -⟩
    · cases hr.symm.trans ha
    · cases hr.symm.trans hv
    · exact hu
  · intro id item hr
    rcases hanswer id with ⟨ha, -⟩ | ⟨-, hv⟩ | ⟨-, hu⟩
    · obtain ⟨content, u, items', log, hf, hvacates⟩ := h.freeId_of_allocated s.items ha
      rw [hf] at hr ⊢
      cases hr
      exact ⟨content.2, hvacates⟩
    · cases hr.symm.trans hv
    · cases hr.symm.trans hu
  · intro id item ops hr hops
    have hfreed : (s.step (.freeId id)).1.tenant.ledger id = none := by
      rcases h.freeId_cases s.items id with ⟨freed, u, log, hf, -, hb⟩ | ⟨e, log, hf, hm⟩
      · simp only [step, hf]
        rw [hb.ledger, Function.update_self]
      · rw [hf] at hr
        cases hr
    have hwf : (s.step (.freeId id)).1.tenant.WF := wf_run h [.freeId id]
    have hm := ledger_run_of_withheld hwf hfreed hops
    have hwf' := wf_run hwf ops
    rcases hwf'.freeId_cases ((s.step (.freeId id)).1.run ops).items id with
      ⟨freed, u, log, -, hm', -⟩ | ⟨e, log, hf, -⟩
    · rw [hm] at hm'
      cases hm'
    · refine ⟨e, ?_⟩
      rw [step, hf]

theorem freesExactly_of_run (id : UInt32) (schema : IdSchema) (items : Items) (ops : List Op) :
    ((create id schema items).run ops).FreesExactly :=
  freesExactly (wf_run (Tenant.wf_create id schema) ops)

end Store
end EntityStore
