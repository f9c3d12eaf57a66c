import EntityStore.Proofs.Tenant.Handout

/-! The queue of chunks with vacant slots. A free puts a chunk on the queue when it had no vacant
slot before, without a look at who stands there already, and a chunk that is parked leaves its entry
behind. Still no chunk stands there twice, as long as all slots are taken through the tenant: a
parked chunk has no slot to be freed until the chain grows by it, and the chain grows only when the
queue has run empty. -/

namespace EntityStore
open Tenant

/-- A chunk that an entry of the queue can be for. -/
def Chunk.Queueable (c : Chunk) : Prop := c.free ≠ [] ∨ c.parked = true

namespace Chunk
variable {c : Chunk}

theorem Queueable.put (h : c.Queueable) (offset : Nat) (item : ItemId) :
    (c.put offset item).Queueable := h

theorem Queueable.putState (h : c.Queueable) (offset : Nat) (item : ItemId) :
    (c.putState offset item).Queueable := h

theorem Queueable.of_links (h : c.Queueable) (prev next : Option Nat) :
    ({ c with prev, next } : Chunk).Queueable := h

theorem Queueable.retire (h : c.Queueable) : c.retire.2.Queueable := by
  unfold Chunk.retire park
  split
  · rename_i d hd
    split at hd
    · cases hd
    · cases hd
      exact .inr rfl
  · rename_i d hd
    split at hd
    · cases hd
      exact h
    · cases hd

end Chunk

namespace Tenant
variable {t u : Tenant} {i j offset : Nat} {c d : Chunk} {ρ : Type}

def Queueable (t : Tenant) (i : Nat) : Prop := ∃ c, t.heldChunk? i = some c ∧ c.Queueable

/-- The queue has no entry twice, and none for a chunk in the chain that has no vacant slot. -/
structure Queues (t : Tenant) : Prop where
  nodup : t.reusable.toList.Nodup
  queueable : ∀ i ∈ t.reusable.toList, t.Queueable i

/-! ### Work on single chunks -/

theorem queueable_setChunk_self (hc : t.heldChunk? i = some c) (hd : d.Queueable) :
    (t.setChunk i d).Queueable i :=
  ⟨d, by rw [heldChunk?_setChunk hc, if_pos rfl], hd⟩

theorem Queueable.setChunk_of_ne (h : t.Queueable j) (hc : t.heldChunk? i = some c) (hj : j ≠ i)
    (d : Chunk) : (t.setChunk i d).Queueable j := by
  obtain ⟨e, he, hqueueable⟩ := h
  exact ⟨e, by rw [heldChunk?_setChunk hc, if_neg hj, he], hqueueable⟩

theorem Queueable.setChunk (h : t.Queueable j) (hc : t.heldChunk? i = some c)
    (hd : c.Queueable → d.Queueable) : (t.setChunk i d).Queueable j := by
  by_cases hj : j = i
  · subst hj
    obtain ⟨e, he, hqueueable⟩ := h
    rw [hc] at he
    cases he
    exact queueable_setChunk_self hc (hd hqueueable)
  · exact h.setChunk_of_ne hc hj d

theorem Queueable.onHeldChunk (h : t.Queueable j) (i : Nat) {f : Chunk → ρ × Chunk}
    (hf : ∀ {c}, c.Queueable → (f c).2.Queueable) : (t.onHeldChunk i f).2.Queueable j := by
  cases hc : t.heldChunk? i with
  | none => rwa [onHeldChunk_of_none hc]
  | some c =>
    rw [onHeldChunk_eq hc]
    exact h.setChunk hc hf

theorem Queueable.onChunk (h : t.Queueable j) (i : Nat) {f : Chunk → ρ × Chunk}
    (hf : ∀ {c}, c.Queueable → (f c).2.Queueable) : (t.onChunk i f).2.Queueable j := by
  unfold Tenant.onChunk
  split
  · exact h
  · exact h.onHeldChunk i hf

theorem Queueable.setNext (h : t.Queueable j) (i : Nat) (next : Option Nat) :
    (t.modifyChunk i (·.setNext next)).Queueable j :=
  h.onChunk i fun hc => hc.of_links _ next

theorem Queueable.setPrev (h : t.Queueable j) (i : Nat) (prev : Option Nat) :
    (t.modifyChunk i (·.setPrev prev)).Queueable j :=
  h.onChunk i fun hc => hc.of_links prev _

theorem Queueable.reclaim (h : t.Queueable j) (i : Nat) : (t.reclaim i).state.Queueable j := by
  unfold Tenant.reclaim
  split
  · exact h
  · have hretired : (t.onChunk i Chunk.retire).2.Queueable j := h.onChunk i fun hc => hc.retire
    split
    · rename_i prev next v hv
      rw [hv] at hretired
      cases prev with
      | none =>
        cases next with
        | none => exact hretired
        | some n => exact hretired.setPrev n none
      | some p =>
        have hprev := hretired.setNext p next
        cases next with
        | none => exact hprev
        | some n => exact hprev.setPrev n (some p)
    · rename_i v hv
      rw [hv] at hretired
      exact hretired

/-! ### The queue along a call -/

theorem Queues.congr (h : t.Queues) (hqueue : u.reusable = t.reusable)
    (hqueueable : ∀ {j}, t.Queueable j → u.Queueable j) : u.Queues := by
  constructor
  · rw [hqueue]
    exact h.nodup
  · intro j hj
    rw [hqueue] at hj
    exact hqueueable (h.queueable j hj)

theorem queues_of_empty (h : t.reusable.toList = []) : t.Queues := by
  constructor
  · rw [h]
    exact List.nodup_nil
  · intro j hj
    rw [h] at hj
    cases hj

theorem Queues.not_mem (h : t.Queues) (hc : t.heldChunk? i = some c) (hp : c.parked = false)
    (hf : c.free = []) : i ∉ t.reusable.toList := by
  intro hi
  obtain ⟨d, hd, hqueueable⟩ := h.queueable i hi
  rw [hc] at hd
  cases hd
  rcases hqueueable with hfree | hparked
  · exact hfree hf
  · rw [hp] at hparked
    cases hparked

theorem Queues.length_le (h : t.Queues) : t.reusable.toList.length ≤ t.chunks.size := by
  have hsub : t.reusable.toList ⊆ List.range t.chunks.size := by
    intro i hi
    obtain ⟨c, hc, -⟩ := h.queueable i hi
    exact List.mem_range.2 (lt_of_heldChunk? hc)
  have hlength := (h.nodup.subperm hsub).length_le
  rwa [List.length_range] at hlength

theorem Queues.push (h : t.Queues) (hi : i ∉ t.reusable.toList) (hself : t.Queueable i)
    (live : UInt64) : (t.setQueue (t.reusable.push i) live).Queues := by
  have hlist : (t.setQueue (t.reusable.push i) live).reusable.toList = t.reusable.toList ++ [i] :=
    Fifo.toList_push t.reusable i
  constructor
  · rw [hlist, ← List.concat_eq_append]
    exact h.nodup.concat hi
  · intro j hj
    rw [hlist, List.mem_append, List.mem_singleton] at hj
    rcases hj with hj | rfl
    · exact h.queueable j hj
    · exact hself

theorem Queues.rest (h : t.Queues) {rest : Fifo Nat} (hq : t.reusable.pop? = some (i, rest))
    (live : UInt64) : (t.setQueue rest live).Queues ∧ i ∉ rest.toList := by
  have hlist := Fifo.toList_eq_of_pop? hq
  have hnodup := h.nodup
  rw [hlist, List.nodup_cons] at hnodup
  refine ⟨⟨hnodup.2, ?_⟩, hnodup.1⟩
  intro j hj
  apply h.queueable j
  rw [hlist]
  exact List.mem_cons_of_mem i hj

theorem Queues.reused (h : t.Queues) {rest : Fifo Nat} (hq : t.reusable.pop? = some (i, rest))
    (hc : t.heldChunk? i = some c) {more : Bool} (hmore : more = true → d.free ≠ [])
    (live : UInt64) :
    ((t.setChunk i d).setQueue (if more then rest.push i else rest) live).Queues := by
  obtain ⟨hrest, hi⟩ := h.rest hq live
  have hleft : ((t.setChunk i d).setQueue rest live).Queues := by
    constructor
    · exact hrest.nodup
    · intro j hj
      have hne : j ≠ i := fun heq => hi (heq ▸ hj)
      exact (hrest.queueable j hj).setChunk_of_ne (t := t) hc hne d
  cases more with
  | false => exact hleft
  | true => exact hleft.push hi (queueable_setChunk_self hc (.inl (hmore rfl))) live

theorem WF.queues_reuse (h : t.WF) (hq : t.Queues) : t.reuse.2.Queues := by
  fun_induction reuse t with
  | case1 t hpop => exact hq
  | case2 t i rest hpop offset more u hu =>
    change (t.setQueue rest t.live).onChunk i Chunk.reuse = _ at hu
    have ho : (t.setQueue rest t.live).closed = false := h.isOpen
    obtain ⟨c, d, hc, hr, rfl⟩ := exists_of_onChunk_eq_some ho hu
    change t.heldChunk? i = some c at hc
    obtain ⟨-, hmore⟩ := (h.chunk_wf hc).takes_of_reuse hr
    exact hq.reused hpop hc hmore.1 (t.live + 1)
  | case3 t i rest hpop r u hr hu ih =>
    obtain ⟨hu, hnil⟩ := of_onChunk_reuse (t := t.setQueue rest t.live) h.isOpen hu hr
    subst hu
    exact ih (h.wf_of_stale hpop hnil) (hq.rest hpop t.live).1

theorem queue_of_reuse_eq_none (h : t.reuse = (none, u)) : u.reusable.toList = [] := by
  fun_induction reuse t with
  | case1 t hpop =>
    cases h
    exact Fifo.pop?_eq_none_iff.1 hpop
  | case2 t i rest hpop offset more v hv => cases h
  | case3 t i rest hpop r v hr hv ih => exact ih h

theorem queue_extend_of_reuse_eq_none (h : t.reuse = (none, u)) :
    (u.extend []).state.reusable.toList = [] := by
  rw [reusable_extend]
  exact queue_of_reuse_eq_none h

theorem WF.queues_allocate (h : t.WF) (hq : t.Queues) : t.allocate.state.Queues := by
  have hreuse := h.queues_reuse hq
  unfold allocate
  rw [if_neg (by simp [h.isOpen])]
  split
  · rename_i place u hu
    rw [hu] at hreuse
    exact hreuse
  · rename_i u hu
    exact queues_of_empty (queue_extend_of_reuse_eq_none hu)

theorem Queues.onHeldChunk (h : t.Queues) (i : Nat) {f : Chunk → ρ × Chunk}
    (hf : ∀ {c}, c.Queueable → (f c).2.Queueable) : (t.onHeldChunk i f).2.Queues :=
  h.congr (reusable_onHeldChunk t i f) fun hj => hj.onHeldChunk i hf

theorem WF.queues_register (h : t.WF) (hq : t.Queues) (items : Items) (item : ItemId)
    (stateItem : Option ItemId) : (t.register items item stateItem).state.1.Queues := by
  have hallocate := h.queues_allocate hq
  unfold register
  split
  · rename_i u e log hu
    rw [hu] at hallocate
    exact hallocate
  · rename_i u i offset log hu
    rw [hu] at hallocate
    cases stateItem with
    | none => exact hallocate.onHeldChunk i fun hc => hc.put offset item
    | some s =>
      exact (hallocate.onHeldChunk i fun hc => hc.putState offset s).onHeldChunk i
        fun hc => hc.put offset item

theorem Queues.afterFree (h : t.Queues) (hc : t.heldChunk? i = some c) {freed : Freed}
    (hd : c.Frees offset freed d) : (t.afterFree i freed d).Queues := by
  have hfree : d.Queueable := by
    left
    rw [hd.free]
    exact List.cons_ne_nil offset c.free
  have hvacated : (t.setChunk i d).Queues := h.congr rfl fun hj => hj.setChunk hc fun _ => hfree
  unfold Tenant.afterFree
  cases hr : freed.reopened with
  | false => exact hvacated.congr rfl fun hj => hj
  | true =>
    -- The slot was live, so the chunk is not parked, and without vacant slots it has no entry.
    have hi : i ∉ t.reusable.toList := h.not_mem hc hd.parked_before (hd.reopened.1 hr)
    exact hvacated.push hi (queueable_setChunk_self hc hfree) (t.live - 1)

theorem Queues.reclaim (h : t.Queues) (i : Nat) : (t.reclaim i).state.Queues :=
  h.congr (t.onlyChain_reclaim i).reusable fun hj => hj.reclaim i

theorem WF.queues_freeId (h : t.WF) (hq : t.Queues) (items : Items) (id : UInt32) :
    (t.freeId items id).state.1.Queues := by
  cases hid : IdSchema.isDetached id with
  | true =>
    rw [h.freeId_of_isDetached items hid]
    exact hq
  | false =>
    cases hc : t.heldChunk? (t.schema.decode id).1 with
    | none =>
      rw [h.freeId_of_missing items hid hc]
      exact hq
    | some c =>
      cases hr : c.release (t.schema.decode id).2 with
      | mk r d =>
        cases r with
        | error e =>
          rw [h.freeId_of_refused items hid hc hr]
          exact hq
        | ok freed =>
          obtain ⟨log, hf⟩ := h.freeId_of_released items hid hc hr
          have hafter := hq.afterFree hc ((h.chunk_wf hc).frees_of_release hr)
          rw [hf]
          show (t.vacated (t.schema.decode id).1 freed d).Queues
          unfold vacated
          split
          · exact hafter.reclaim _
          · exact hafter

/-! ### When the chain grows -/

theorem WF.queue_of_relinked (h : t.WF) (hi : i ∈ t.parked) (hni : i ∉ t.allocate.state.parked) :
    t.allocate.state.reusable.toList = [] := by
  revert hni
  unfold allocate
  rw [if_neg (by simp [h.isOpen])]
  rcases h.reuse_cases with ⟨j, offset, c, d, queue, -, -, -, hr, -⟩ | ⟨queue, hr, -, -⟩
  · rw [hr]
    intro hni
    exact absurd hi hni
  · rw [hr]
    intro _
    exact queue_extend_of_reuse_eq_none hr

end Tenant

namespace Handout
variable {c d : Handout} {stages : List Stage}

/-- A call that is done with the queue has emptied it, unless it found a vacant slot and is over. -/
inductive Emptied : Handout → Prop
  | drain {t : Tenant} {log : List Event} : Emptied ⟨t, .drain, log⟩
  | attempt {t : Tenant} {log : List Event} (h : t.reusable.toList = []) :
    Emptied ⟨t, .attempt, log⟩
  | grow {t : Tenant} {observed : Nat} {log : List Event} (h : t.reusable.toList = []) :
    Emptied ⟨t, .grow observed, log⟩
  | done {t : Tenant} {r : Except PoolError (Nat × Nat)} {log : List Event} :
    Emptied ⟨t, .done r, log⟩

theorem emptied_start (t : Tenant) : (start t).Emptied := by
  unfold start
  split
  · exact .done
  · exact .drain

theorem Emptied.step (h : c.Emptied) : c.step.Emptied := by
  cases h with
  | @drain t log =>
    show (Handout.drain t log).Emptied
    unfold Handout.drain
    split
    · rename_i hpop
      exact .attempt (Fifo.pop?_eq_none_iff.1 hpop)
    · split
      · exact .done
      · exact .drain
  | @attempt t log h =>
    have hqueue := reusable_onChunk t t.current Chunk.allocate
    show (Handout.attempt t log).Emptied
    unfold Handout.attempt
    split
    · exact .done
    · exact .done
    · rename_i u hu
      rw [hu] at hqueue
      exact .grow (hqueue ▸ h)
  | @grow t observed log h =>
    have hqueue := (t.onlyChain_grow observed).reusable
    show (Handout.grow t observed log).Emptied
    unfold Handout.grow
    split
    · exact .done
    · rename_i u more hu
      rw [hu] at hqueue
      exact .attempt (hqueue ▸ h)
  | done => exact .done

theorem Emptied.reaches (h : c.Emptied) (hd : c.Reaches stages d) : d.Emptied := by
  induction hd with
  | refl => exact h
  | step _ ih => exact ih h.step

theorem Emptied.queue_of_grow (h : c.Emptied) {observed : Nat} (hs : c.stage = .grow observed) :
    c.tenant.reusable.toList = [] := by
  cases h with
  | grow h => exact h
  | drain => cases hs
  | attempt => cases hs
  | done => cases hs

end Handout

namespace Store
variable {s : Store} {i : Nat}

theorem queues_step (h : s.tenant.WF) (hq : s.tenant.Queues) {op : Op}
    (hop : ∀ chunk, op ≠ .allocateIn chunk) : (s.step op).1.tenant.Queues := by
  cases op with
  | nextId => exact h.queues_allocate hq
  | register item stateItem => exact h.queues_register hq s.items item stateItem
  | freeId id => exact h.queues_freeId hq s.items id
  | freeItem item =>
    show (s.tenant.freeItem s.items item).state.1.Queues
    unfold Tenant.freeItem
    dsimp only
    split
    · exact h.queues_freeId hq s.items _
    · exact hq
  | allocateIn chunk => exact absurd rfl (hop chunk)
  | setHeaders items => exact hq

theorem queues_run (h : s.tenant.WF) (hq : s.tenant.Queues) {ops : List Op}
    (hops : ∀ op ∈ ops, ∀ chunk, op ≠ .allocateIn chunk) : (s.run ops).tenant.Queues := by
  induction ops generalizing s with
  | nil => exact hq
  | cons op ops ih =>
    obtain ⟨hop, hops⟩ := List.forall_mem_cons.1 hops
    obtain ⟨m, -, hb⟩ := step_becomes h op
    exact ih hb.wf (queues_step h hq hop) hops

theorem queue_of_relinked (h : s.tenant.WF) (op : Op) (hi : i ∈ s.tenant.parked)
    (hni : i ∉ (s.step op).1.tenant.parked) : (s.step op).1.tenant.reusable.toList = [] := by
  have hkept {u : Tenant} (hu : u.parked = s.tenant.parked ∨ ∃ j, u.parked = j :: s.tenant.parked) :
      i ∈ u.parked := by
    rcases hu with hu | ⟨j, hu⟩ <;> rw [hu]
    · exact hi
    · exact List.mem_cons_of_mem j hi
  cases op with
  | nextId => exact h.queue_of_relinked hi hni
  | register item stateItem =>
    obtain ⟨chunks, -, hu⟩ := s.tenant.onlyChunks_register s.items item stateItem
    have hregister : (s.step (.register item stateItem)).1.tenant = _ := hu
    rw [hregister] at hni ⊢
    exact h.queue_of_relinked hi hni
  | freeId id => exact absurd (hkept (s.tenant.parked_freeId s.items id).1) hni
  | freeItem item => exact absurd (hkept (s.tenant.parked_freeItem s.items item).1) hni
  | allocateIn chunk =>
    obtain ⟨chunks, -, hu⟩ := s.tenant.onlyChunks_onHeldChunk chunk Chunk.allocate
    have hallocate : (s.step (.allocateIn chunk)).1.tenant = _ := hu
    rw [hallocate] at hni
    exact absurd hi hni
  | setHeaders items => exact absurd hi hni

/-- The queue leads to every vacant slot and does not grow longer than the number of chunks. What
does not lead to a vacant slot is for a chunk that is parked now, and is gone when the chain
grows. -/
structure QueueExact (s : Store) : Prop where
  nodup : s.tenant.reusable.toList.Nodup
  vacant : ∀ i c, s.tenant.chunk? i = some c → c.free ≠ [] → i ∈ s.tenant.reusable.toList
  entry : ∀ i ∈ s.tenant.reusable.toList, ∃ c, s.tenant.chunk? i = some c ∧
    (c.free ≠ [] ∨ c.parked = true ∧ i ∈ s.tenant.parked)
  grows : ∀ stages c observed, (Handout.start s.tenant).Reaches stages c →
    c.stage = .grow observed → c.tenant.reusable.toList = []
  relinked : ∀ op i, i ∈ s.tenant.parked → i ∉ (s.step op).1.tenant.parked →
    (s.step op).1.tenant.reusable.toList = []
  length_le : s.tenant.reusable.toList.length ≤ s.tenant.chunkCount

theorem queueExact (h : s.tenant.WF) (hq : s.tenant.Queues) : s.QueueExact where
  nodup := hq.nodup
  vacant i c hc := by
    rw [chunk?_eq h.isOpen] at hc
    exact h.queued hc
  entry i hi := by
    obtain ⟨c, hc, hqueueable⟩ := hq.queueable i hi
    refine ⟨c, (chunk?_eq h.isOpen i).trans hc, ?_⟩
    apply hqueueable.imp_right
    intro hp
    exact ⟨hp, (h.mem_parked i).2 ⟨c, hc, hp⟩⟩
  grows stages c observed hc := ((Handout.emptied_start s.tenant).reaches hc).queue_of_grow
  relinked op i := queue_of_relinked h op
  length_le := h.chunkCount_eq ▸ hq.length_le

/-- As long as no slot is taken from a chunk directly, the queue is exact in every state that an
open tenant can reach. -/
theorem queueExact_of_run (id : UInt32) (schema : IdSchema) (items : Items) {ops : List Op}
    (hops : ∀ op ∈ ops, ∀ chunk, op ≠ .allocateIn chunk) :
    ((create id schema items).run ops).QueueExact := by
  have hwf : (create id schema items).tenant.WF := Tenant.wf_create id schema
  exact queueExact (wf_run hwf ops) (queues_run hwf (queues_of_empty rfl) hops)

/-- Three chunks of four slots. The one in the middle is drained and leaves its entry behind, in
front of that of the first chunk. -/
theorem queueExact_of_run_drained :
    let ops := List.replicate 12 .nextId ++
      [.freeId 4, .freeId 5, .freeId 6, .freeId 7, .freeId 0]
    let s := (create 0 ⟨2, by decide, by decide⟩ {}).run ops
    (∀ op ∈ ops, ∀ chunk, op ≠ .allocateIn chunk) ∧ s.tenant.reusable.toList = [1, 0] ∧
      s.tenant.parked = [1] ∧ s.QueueExact := by
  intro ops s
  have hops : ∀ op ∈ ops, ∀ chunk, op ≠ .allocateIn chunk := by simp [ops]
  have hqueue : s.tenant.reusable.toList = [1, 0] := by decide +kernel
  have hparked : s.tenant.parked = [1] := by decide +kernel
  exact ⟨hops, hqueue, hparked, queueExact_of_run 0 _ _ hops⟩

/-- When a slot is taken from its chunk directly the entry stays, and the next free adds another. -/
example : ((create 0 ⟨2, by decide, by decide⟩ {}).run
    [.nextId, .freeId 0, .allocateIn 0, .freeId 0]).tenant.reusable.toList = [0, 0] := by
  decide +kernel

end Store
end EntityStore
