import EntityStore.Proofs.Bounds.Run
import EntityStore.Proofs.Tenant.Turnover

/-! Handing out a slot one step at a time. The steps are those of the loops alone, which nothing
keeps from going on forever: an entry leaves the queue, the current chunk is tried, the chain grows.
They end because the queue gets shorter and because a full tail is followed by an empty chunk. -/

namespace EntityStore
open Tenant

inductive Stage where
  | drain
  | attempt
  | grow (observed : Nat)
  | done (result : Except PoolError (Nat × Nat))

/-- A call that hands out a slot, with its events so far. -/
structure Handout where
  tenant : Tenant
  stage : Stage
  log : List Event

namespace Handout

def start (t : Tenant) : Handout :=
  ⟨t, if t.closed then .done (.error .closed) else .drain, []⟩

/-- An entry leaves the queue. The chunk goes back if it has more than the one slot. -/
def drain (t : Tenant) (log : List Event) : Handout :=
  match t.reusable.pop? with
  | none => ⟨t, .attempt, log⟩
  | some (i, rest) =>
    match { t with reusable := rest }.onChunk i Chunk.reuse with
    | (some (some (offset, more)), u) =>
      ⟨{ u with reusable := if more then u.reusable.push i else u.reusable
                live := u.live + 1 }, .done (.ok (i, offset)), log⟩
    | (_, u) => ⟨u, .drain, log⟩

def attempt (t : Tenant) (log : List Event) : Handout :=
  match t.onChunk t.current Chunk.allocate with
  | (none, u) => ⟨u, .done (.error .closed), log⟩
  | (some (some offset), u) => ⟨{ u with live := u.live + 1 }, .done (.ok (t.current, offset)), log⟩
  | (some none, u) => ⟨u, .grow t.current, log⟩

def grow (t : Tenant) (observed : Nat) (log : List Event) : Handout :=
  match t.grow observed with
  | ⟨u, .error e, more⟩ => ⟨u, .done (.error e), log ++ more⟩
  | ⟨u, .ok (), more⟩ => ⟨u, .attempt, log ++ more⟩

def step (c : Handout) : Handout :=
  match c.stage with
  | .drain => drain c.tenant c.log
  | .attempt => attempt c.tenant c.log
  | .grow observed => grow c.tenant observed c.log
  | .done _ => c

/-- The steps that are taken at some stages lead from one call to the other. -/
inductive Reaches : Handout → List Stage → Handout → Prop
  | refl (c : Handout) : Reaches c [] c
  | step {c d : Handout} {stages : List Stage} (h : Reaches c.step stages d) :
    Reaches c (c.stage :: stages) d

variable {c d e : Handout} {stages more : List Stage} {t u : Tenant} {log : List Event}
  {chunk : Chunk}

theorem Reaches.append (h : c.Reaches stages d) (h' : d.Reaches more e) :
    c.Reaches (stages ++ more) e := by
  induction h with
  | refl => exact h'
  | step _ ih => exact (ih h').step

/-! ### Draining the queue -/

/-- What a call has come to when the queue has led to a vacant slot or has ended. -/
def drained (t : Tenant) (log : List Event) : Handout :=
  match t.reuse with
  | (some place, u) => ⟨u, .done (.ok place), log⟩
  | (none, u) => ⟨u, .attempt, log⟩

theorem drain_of_stale {i : Nat} {rest : Fifo Nat} {r : Option (Option (Nat × Bool))}
    (hq : t.reusable.pop? = some (i, rest))
    (hu : { t with reusable := rest }.onChunk i Chunk.reuse = (r, u))
    (hr : ∀ offset more, r = some (some (offset, more)) → False) :
    drain t log = ⟨u, .drain, log⟩ := by
  unfold drain
  simp only [hq, hu]

theorem reaches_drained (t : Tenant) (log : List Event) :
    ∃ n ≤ t.reusable.toList.length + 1,
      (⟨t, .drain, log⟩ : Handout).Reaches (List.replicate n .drain) (drained t log) := by
  unfold drained
  fun_induction reuse t with
  | case1 t hq =>
    refine ⟨1, Nat.le_add_left _ _, .step ?_⟩
    show (drain t log).Reaches [] _
    unfold drain
    rw [hq]
    exact .refl _
  | case2 t i rest hq offset more u hu =>
    refine ⟨1, Nat.le_add_left _ _, .step ?_⟩
    show (drain t log).Reaches [] _
    unfold drain
    simp only [hq, hu]
    exact .refl _
  | case3 t i rest hq r u hr hu ih =>
    obtain ⟨n, hn, hdrained⟩ := ih
    have hreusable := reusable_onChunk { t with reusable := rest } i Chunk.reuse
    rw [hu] at hreusable
    have hlength : u.reusable.toList.length < t.reusable.toList.length :=
      hreusable ▸ Fifo.length_of_pop? hq
    refine ⟨n + 1, Nat.le_trans (Nat.succ_le_succ hn) (Nat.succ_le_succ hlength), .step ?_⟩
    show (drain t log).Reaches _ _
    rw [drain_of_stale hq hu hr]
    exact hdrained

/-! ### The loop behind it -/

theorem attempt_eq_done (h : t.WF) (log : List Event) {offset : Nat} {chunk' : Chunk}
    (hc : t.heldChunk? t.tail = some chunk) (ha : chunk.allocate = (some offset, chunk')) :
    attempt t log = ⟨(t.extend log).state, .done (t.extend log).result, (t.extend log).log⟩ := by
  rw [h.extend_of_allocate log hc ha]
  unfold attempt
  simp only [h.current_eq, h.onChunk_eq hc, ha]
  rfl

theorem attempt_eq_grow (h : t.WF) (log : List Event) (hc : t.heldChunk? t.tail = some chunk)
    (ha : chunk.allocate = (none, chunk)) : attempt t log = ⟨t, .grow t.tail, log⟩ := by
  unfold attempt
  simp only [h.current_eq, h.onChunk_eq hc, ha, setChunk_self hc]

theorem reaches_extend (h : t.WF) (log : List Event) :
    ∃ loop, loop <+: [.attempt, .grow t.tail, .attempt] ∧
      (⟨t, .attempt, log⟩ : Handout).Reaches loop
        ⟨(t.extend log).state, .done (t.extend log).result, (t.extend log).log⟩ := by
  obtain ⟨chunk, hc, hp⟩ := h.exists_tail
  cases ha : chunk.allocate with
  | mk r chunk' =>
    cases r with
    | some offset =>
      refine ⟨[.attempt], ⟨_, rfl⟩, .step ?_⟩
      show (attempt t log).Reaches [] _
      rw [attempt_eq_done h _ hc ha]
      exact .refl _
    | none =>
      obtain ⟨rfl, hfull⟩ := (h.chunk_wf hc).of_allocate_eq_none ha
      have hattempt := attempt_eq_grow h log hc ha
      rcases h.grow_cases hc (hfull.resolve_left (by simp [hp])) with
        ⟨u, more, hu, hgrows⟩ | ⟨hg, -⟩
      · obtain ⟨fresh, fresh', hfresh, hallocate⟩ := hgrows.exists_allocate
        refine ⟨[.attempt, .grow t.tail, .attempt], List.prefix_refl _, .step ?_⟩
        show (attempt t log).Reaches _ _
        rw [hattempt, h.extend_of_grow log hc ha hu]
        refine .step (c := ⟨t, .grow t.tail, log⟩) ?_
        show (grow t t.tail log).Reaches _ _
        unfold grow
        simp only [hu]
        refine .step (c := ⟨u, .attempt, log ++ more⟩) ?_
        show (attempt u (log ++ more)).Reaches [] _
        rw [attempt_eq_done hgrows.wf _ hfresh hallocate]
        exact .refl _
      · refine ⟨[.attempt, .grow t.tail], ⟨[.attempt], rfl⟩, .step ?_⟩
        show (attempt t log).Reaches _ _
        rw [hattempt, h.extend_of_grow_error log hc ha hg]
        refine .step (c := ⟨t, .grow t.tail, log⟩) ?_
        show (grow t t.tail log).Reaches [] _
        unfold grow
        simp only [hg]
        exact .refl _

/-! ### What the steps find -/

/-- A call of an open tenant. The chain grows only where the tail is full. -/
inductive Sound : Handout → Prop
  | drain {t : Tenant} {log : List Event} (h : t.WF) : Sound ⟨t, .drain, log⟩
  | attempt {t : Tenant} {log : List Event} (h : t.WF) : Sound ⟨t, .attempt, log⟩
  | grow {t : Tenant} {log : List Event} {chunk : Chunk} (h : t.WF)
    (hc : t.heldChunk? t.tail = some chunk)
    (hfull : chunk.free = [] ∧ chunk.nextOffset = chunk.capacity) : Sound ⟨t, .grow t.tail, log⟩
  | done {t : Tenant} {r : Except PoolError (Nat × Nat)} {log : List Event} :
    Sound ⟨t, .done r, log⟩

theorem Sound.step (h : c.Sound) : c.step.Sound := by
  cases h with
  | @drain t log h =>
    show (Handout.drain t log).Sound
    unfold Handout.drain
    split
    · exact .attempt h
    · rename_i i rest hq
      split
      · exact .done
      · rename_i r u hr hu
        obtain ⟨rfl, hnil⟩ := of_onChunk_reuse (t := t.setQueue rest t.live) h.isOpen hu hr
        exact .drain (h.wf_of_stale hq hnil)
  | @attempt t log h =>
    show (Handout.attempt t log).Sound
    obtain ⟨chunk, hc, hp⟩ := h.exists_tail
    cases ha : chunk.allocate with
    | mk r chunk' =>
      cases r with
      | some offset =>
        rw [attempt_eq_done h _ hc ha]
        exact .done
      | none =>
        obtain ⟨rfl, hfull⟩ := (h.chunk_wf hc).of_allocate_eq_none ha
        rw [attempt_eq_grow h _ hc ha]
        exact .grow h hc (hfull.resolve_left (by simp [hp]))
  | @grow t log chunk h hc hfull =>
    show (Handout.grow t t.tail log).Sound
    unfold Handout.grow
    rcases h.grow_cases hc hfull with ⟨u, more, hu, hgrows⟩ | ⟨hg, -⟩
    · simp only [hu]
      exact .attempt hgrows.wf
    · simp only [hg]
      exact .done
  | done => exact .done

theorem Sound.reaches (h : c.Sound) (hd : c.Reaches stages d) : d.Sound := by
  induction hd with
  | refl => exact h
  | step _ ih => exact ih h.step

theorem sound_start (h : t.closed = false → t.WF) : (start t).Sound := by
  unfold start
  split
  · exact .done
  · rename_i ho
    exact .drain (h (Bool.not_eq_true _ ▸ ho))

theorem Sound.fresh (h : c.Sound) {observed : Nat} (hs : c.stage = .grow observed)
    (hg : (c.tenant.grow observed).result = .ok ()) :
    c.step.tenant.current ≠ observed ∧
      (c.step.tenant.onChunk c.step.tenant.current Chunk.allocate).1 = some (some 0) ∧
      c.step.step.stage = .done (.ok (c.step.tenant.current, 0)) := by
  cases h with
  | @grow t log chunk h hc hfull =>
    obtain rfl := Stage.grow.inj hs
    rcases h.grow_cases hc hfull with ⟨u, more, hu, hgrows⟩ | ⟨he, -⟩
    · obtain ⟨fresh, fresh', hfresh, ha⟩ := hgrows.exists_allocate
      have hstep : (⟨t, .grow t.tail, log⟩ : Handout).step = ⟨u, .attempt, log ++ more⟩ := by
        show Handout.grow t t.tail log = _
        unfold Handout.grow
        simp only [hu]
      rw [hstep]
      refine ⟨hgrows.wf.current_eq ▸ h.tail_ne_of_grows hgrows, ?_, ?_⟩
      · show (u.onChunk u.current Chunk.allocate).1 = _
        rw [hgrows.wf.current_eq, hgrows.wf.onChunk_eq hfresh, ha]
      · show (Handout.attempt u (log ++ more)).stage = .done (.ok (u.current, 0))
        rw [attempt_eq_done hgrows.wf _ hfresh ha, hgrows.wf.extend_of_allocate _ hfresh ha,
          hgrows.wf.current_eq]
    · rw [he] at hg
      cases hg
  | drain => cases hs
  | attempt => cases hs
  | done => cases hs

/-! ### Whole calls -/

/-- A call ends as the tenant's does, behind no more steps than there are entries in the queue, and
four. -/
theorem exists_reaches_done (h : t.closed = false → t.WF) :
    ∃ drains loop c, (start t).Reaches (List.replicate drains .drain ++ loop) c ∧
      drains ≤ t.reusable.toList.length + 1 ∧ loop <+: [.attempt, .grow t.current, .attempt] ∧
      c.stage = .done t.allocate.result ∧ c.tenant = t.allocate.state ∧ c.log = t.allocate.log := by
  unfold start
  cases hc : t.closed with
  | true =>
    rw [allocate_of_closed hc]
    exact ⟨0, [], _, .refl _, Nat.zero_le _, List.nil_prefix, rfl, rfl, rfl⟩
  | false =>
    obtain ⟨n, hn, hdrained⟩ := reaches_drained t []
    rw [if_neg Bool.false_ne_true]
    unfold drained at hdrained
    rcases (h hc).reuse_cases with ⟨i, offset, chunk, chunk', queue, -, -, -, hr, -⟩ |
      ⟨queue, hr, hwf, -⟩
    · have hallocate : t.allocate =
          ⟨(t.setChunk i chunk').setQueue queue (t.live + 1), .ok (i, offset), []⟩ := by
        rw [allocate, if_neg (by simp [hc]), hr]
      rw [hr] at hdrained
      rw [hallocate]
      exact ⟨n, [], _, hdrained.append (.refl _), hn, List.nil_prefix, rfl, rfl, rfl⟩
    · have hallocate : t.allocate = (t.setQueue queue t.live).extend [] := by
        rw [allocate, if_neg (by simp [hc]), hr]
      rw [hr] at hdrained
      rw [hallocate, (h hc).current_eq]
      obtain ⟨loop, hloop, hreaches⟩ := reaches_extend hwf []
      exact ⟨n, loop, _, hdrained.append hreaches, hn, hloop, rfl, rfl, rfl⟩

end Handout

namespace Store
variable {s : Store}

theorem wf_serve (h : s.tenant.closed = false → s.tenant.WF) (call : Call)
    (ho : (s.serve call).1.tenant.closed = false) : (s.serve call).1.tenant.WF := by
  cases call with
  | op op =>
    have hclosed : s.tenant.closed = false := (closed_step h op).symm.trans ho
    obtain ⟨m, -, hb⟩ := step_becomes (h hclosed) op
    exact hb.wf
  | close =>
    have hclosed : (s.serve .close).1.tenant.closed = true := s.tenant.closed_close
    rw [hclosed] at ho
    cases ho

theorem wf_runCalls (h : s.tenant.closed = false → s.tenant.WF) (calls : List Call) :
    (s.runCalls calls).1.tenant.closed = false → (s.runCalls calls).1.tenant.WF := by
  induction calls generalizing s with
  | nil => exact h
  | cons call calls ih => exact ih (wf_serve h call)

/-- How a call that hands out a slot ends, and what the chain grows for. -/
structure AllocationEnds (s : Store) : Prop where
  ends : ∃ drains loop c r,
    (Handout.start s.tenant).Reaches (List.replicate drains .drain ++ loop) c ∧
    drains ≤ s.tenant.reusable.toList.length + 1 ∧
    loop <+: [.attempt, .grow s.tenant.current, .attempt] ∧ c.stage = .done r ∧
    s.tenant.allocate = ⟨c.tenant, r, c.log⟩ ∧
    (s.step .nextId).2 = .taken (r.map fun place => s.tenant.schema.encode place.1 place.2) ∧
    ∀ item stateItem, (s.step (.register item stateItem)).2 =
      .taken (r.map fun place => s.tenant.schema.encode place.1 place.2)
  fresh : ∀ stages c observed, (Handout.start s.tenant).Reaches stages c →
    c.stage = .grow observed → (c.tenant.grow observed).result = .ok () →
    c.step.tenant.current ≠ observed ∧
      (c.step.tenant.onChunk c.step.tenant.current Chunk.allocate).1 = some (some 0) ∧
      c.step.step.stage = .done (.ok (c.step.tenant.current, 0))
  error : ∀ op e, (s.step op).2 = .taken (.error e) →
    e = .closed ∧ s.tenant.closed = true ∨
      e = .exhausted s.tenant.schema.maxChunks ∧ s.tenant.Full ∧
        s.tenant.chunks.size = s.tenant.schema.maxChunks

theorem taken_eq (h : s.tenant.closed = false → s.tenant.WF) :
    let taken := Answer.taken (s.tenant.allocate.result.map fun place =>
      s.tenant.schema.encode place.1 place.2)
    (s.step .nextId).2 = taken ∧
      ∀ item stateItem, (s.step (.register item stateItem)).2 = taken := by
  refine ⟨rfl, fun item stateItem => congrArg Answer.taken ?_⟩
  show (s.tenant.register s.items item stateItem).result = _
  unfold Tenant.register
  cases hc : s.tenant.closed with
  | true =>
    rw [allocate_of_closed hc]
    rfl
  | false =>
    rcases (h hc).allocate_cases with ⟨i, offset, u, log, ha, ht⟩ | ⟨e, u, ha, -⟩
    · rw [ha, ← ht.schema]
      rfl
    · rw [ha]
      rfl

theorem allocationEnds (h : s.tenant.closed = false → s.tenant.WF) : s.AllocationEnds := by
  refine
    { ends := ?_
      fresh := fun stages c observed hc hs hg =>
        ((Handout.sound_start h).reaches hc).fresh hs hg
      error := fun op e he => ?_ }
  · obtain ⟨drains, loop, c, hreaches, hdrains, hloop, hstage, hstate, hlog⟩ :=
      Handout.exists_reaches_done h
    refine ⟨drains, loop, c, _, hreaches, hdrains, hloop, hstage, ?_, taken_eq h⟩
    rw [hstate, hlog]
  · cases hc : s.tenant.closed with
    | false => exact .inr (full_of_step_error (h hc) he)
    | true =>
      refine .inl ⟨?_, rfl⟩
      have htaken := taken_eq h
      rw [allocate_of_closed hc] at htaken
      cases op with
      | nextId =>
        rw [htaken.1] at he
        cases he
        rfl
      | register item stateItem =>
        rw [htaken.2] at he
        cases he
        rfl
      | freeId id => cases he
      | freeItem item => cases he
      | allocateIn chunk => cases he
      | setHeaders items => cases he

/-- Whatever has been asked of a tenant and of its chunks, handing out a slot ends: the queue is
drained once, the loop behind it is run twice at most and lengthens the chain once at most. -/
theorem allocationEnds_of_run (id : UInt32) (schema : IdSchema) (items : Items)
    (calls : List Call) :
    ((Store.create id schema items).runCalls calls).1.AllocationEnds :=
  allocationEnds (wf_runCalls (fun _ => wf_create id schema) calls)

end Store
end EntityStore
