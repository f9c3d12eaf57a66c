import EntityStore.Proofs.Tenant.Run

/-! How the chunks of a tenant turn over. A call makes no chunk at all, or one, and it makes one
only when every slot of every chunk is live and no chunk is parked. -/

namespace EntityStore
namespace Tenant

/-- Every slot of every chunk is live. -/
def Full (t : Tenant) : Prop :=
  ∀ {i c}, t.heldChunk? i = some c → ∀ offset, offset < c.capacity → c.IsLive offset

/-- What a call does to the stack of parked chunks and to the number of chunks. -/
inductive Reshapes (t u : Tenant) : Prop
  | keeps (hparked : u.parked = t.parked) (hsize : u.chunks.size = t.chunks.size)
  | parks {i : Nat} (hparked : u.parked = i :: t.parked) (hsize : u.chunks.size = t.chunks.size)
  | relinks {i : Nat} (hparked : t.parked = i :: u.parked) (hsize : u.chunks.size = t.chunks.size)
  | creates (hparked : u.parked = t.parked) (hsize : u.chunks.size = t.chunks.size + 1)
    (hfull : t.Full)

section
variable {t u v : Tenant} {i : Nat} {c : Chunk}

theorem Reshapes.refl (t : Tenant) : t.Reshapes t := .keeps rfl rfl

theorem OnlyChunks.reshapes (h : t.OnlyChunks u) : t.Reshapes u := by
  obtain ⟨chunks, hs, rfl⟩ := h
  exact .keeps rfl hs

theorem Reshapes.then_chunks (h : t.Reshapes u) (hv : u.OnlyChunks v) : t.Reshapes v := by
  obtain ⟨chunks, hs, rfl⟩ := hv
  cases h with
  | keeps hparked hsize => exact .keeps hparked (hs.trans hsize)
  | parks hparked hsize => exact .parks hparked (hs.trans hsize)
  | relinks hparked hsize => exact .relinks hparked (hs.trans hsize)
  | creates hparked hsize hfull => exact .creates hparked (hs.trans hsize) hfull

theorem Full.of_setQueue {queue : Fifo Nat} {live : UInt64} (h : (t.setQueue queue live).Full) :
    t.Full := fun hc => h hc

theorem WF.full_of_no_vacancy (h : t.WF) (hfree : ∀ {i c}, t.heldChunk? i = some c → c.free = [])
    (hc : t.heldChunk? t.tail = some c) (hmark : c.nextOffset = c.capacity)
    (hparked : t.parked = []) : t.Full := by
  intro i e he offset ho
  have hlinked : e.parked = false := by
    by_contra hp
    have hmem := (h.mem_parked i).2 ⟨e, he, by simpa using hp⟩
    rw [hparked] at hmem
    cases hmem
  have hfull : e.nextOffset = e.capacity := by
    by_cases hi : i = t.tail
    · subst hi
      rw [hc] at he
      cases he
      exact hmark
    · exact h.full he hlinked hi
  refine ⟨hfull ▸ ho, ?_⟩
  rw [hfree he]
  exact List.not_mem_nil

theorem WF.reshapes_extend (h : t.WF) (hfree : ∀ {i c}, t.heldChunk? i = some c → c.free = [])
    (log : List Event) :
    t.Reshapes (t.extend log).state ∧ ∀ e, (t.extend log).result = .error e →
      e = .exhausted t.schema.maxChunks ∧ t.Full ∧ t.chunks.size = t.schema.maxChunks := by
  obtain ⟨c, hc, hp⟩ := h.exists_tail
  cases ha : c.allocate with
  | mk r d =>
    cases r with
    | some offset =>
      rw [h.extend_of_allocate log hc ha]
      exact ⟨.keeps rfl (size_setChunk ..), fun e he => by cases he⟩
    | none =>
      obtain ⟨-, hfull⟩ := (h.chunk_wf hc).of_allocate_eq_none ha
      have hfull := hfull.resolve_left (by simp [hp])
      rcases h.extend_of_full log hc hfull with ⟨i, u, log', he, -, -, hparked, hsize⟩ |
        ⟨he, hparked, hsize⟩
      · rw [he]
        refine ⟨?_, fun e he => by cases he⟩
        cases htp : t.parked with
        | nil =>
          rw [if_pos htp] at hsize
          rw [htp] at hparked
          exact .creates (hparked.trans htp.symm) hsize (h.full_of_no_vacancy hfree hc hfull.2 htp)
        | cons j rest =>
          rw [if_neg (by simp [htp])] at hsize
          exact .relinks (i := j) (by rw [hparked, htp, List.tail_cons]) hsize
      · rw [he]
        refine ⟨.refl t, fun e he => ?_⟩
        cases he
        exact ⟨rfl, h.full_of_no_vacancy hfree hc hfull.2 hparked, hsize⟩

theorem WF.reshapes_allocate (h : t.WF) :
    t.Reshapes t.allocate.state ∧ ∀ e, t.allocate.result = .error e →
      e = .exhausted t.schema.maxChunks ∧ t.Full ∧ t.chunks.size = t.schema.maxChunks := by
  unfold allocate
  rw [if_neg (by simp [h.isOpen])]
  rcases h.reuse_cases with ⟨i, offset, c, d, queue, -, -, -, hr, -⟩ | ⟨queue, hr, hwf, hfree⟩
  · simp only [hr]
    exact ⟨.keeps rfl (size_setChunk ..), fun e he => by cases he⟩
  · simp only [hr]
    obtain ⟨hshape, herror⟩ := hwf.reshapes_extend hfree []
    refine ⟨?_, fun e he => ?_⟩
    · cases hshape with
      | keeps hparked hsize => exact .keeps hparked hsize
      | parks hparked hsize => exact .parks hparked hsize
      | relinks hparked hsize => exact .relinks hparked hsize
      | creates hparked hsize hfull => exact .creates hparked hsize hfull.of_setQueue
    · obtain ⟨rfl, hfull, hsize⟩ := herror e he
      exact ⟨rfl, hfull.of_setQueue, hsize⟩

theorem reclaim_cases (t : Tenant) (i : Nat) :
    ∃ u, t.OnlyChunks u ∧
      ((t.reclaim i).state = u ∨ (t.reclaim i).state = { u with parked := i :: u.parked }) := by
  have hmodify (v : Tenant) (j : Nat) (f : Chunk → Chunk) : v.OnlyChunks (v.modifyChunk j f) :=
    v.onlyChunks_onChunk j _
  unfold reclaim
  split
  · exact ⟨t, .refl t, .inl rfl⟩
  · have hretire := t.onlyChunks_onChunk i Chunk.retire
    split
    · rename_i prev next u hu
      rw [hu] at hretire
      cases prev with
      | none =>
        cases next with
        | none => exact ⟨_, hretire, .inr rfl⟩
        | some n => exact ⟨_, hretire.trans (hmodify ..), .inr rfl⟩
      | some p =>
        cases next with
        | none => exact ⟨_, hretire.trans (hmodify ..), .inr rfl⟩
        | some n => exact ⟨_, (hretire.trans (hmodify ..)).trans (hmodify ..), .inr rfl⟩
    · rename_i hu
      rw [hu] at hretire
      exact ⟨_, hretire, .inl rfl⟩

theorem parked_reclaim (t : Tenant) (i : Nat) :
    ((t.reclaim i).state.parked = t.parked ∨ (t.reclaim i).state.parked = i :: t.parked) ∧
      (t.reclaim i).state.chunks.size = t.chunks.size := by
  obtain ⟨u, ⟨chunks, hs, rfl⟩, h | h⟩ := t.reclaim_cases i <;> rw [h]
  · exact ⟨.inl rfl, hs⟩
  · exact ⟨.inr rfl, hs⟩

theorem onlyChain_reclaim (t : Tenant) (i : Nat) : t.OnlyChain (t.reclaim i).state := by
  obtain ⟨u, ⟨chunks, -, rfl⟩, h | h⟩ := t.reclaim_cases i <;> rw [h]
  · exact ⟨chunks, _, _, _, _, rfl⟩
  · exact ⟨chunks, _, _, i :: t.parked, _, rfl⟩

theorem live_vacated (t : Tenant) (i : Nat) (freed : Freed) (d : Chunk) :
    (t.vacated i freed d).live = t.live - 1 := by
  unfold vacated
  split
  · exact (onlyChain_reclaim ..).live
  · rfl

theorem parked_freeId (t : Tenant) (items : Items) (id : UInt32) :
    ((t.freeId items id).state.1.parked = t.parked ∨
      ∃ i, (t.freeId items id).state.1.parked = i :: t.parked) ∧
      (t.freeId items id).state.1.chunks.size = t.chunks.size := by
  unfold freeId
  split
  · exact ⟨.inl rfl, rfl⟩
  · split
    · exact ⟨.inl rfl, rfl⟩
    · have hrelease := t.onlyChunks_onChunk (t.schema.decode id).1
        (·.release (t.schema.decode id).2)
      dsimp only
      split
      all_goals
        rename_i hu
        rw [hu] at hrelease
        obtain ⟨chunks, hs, rfl⟩ := hrelease
      · exact ⟨.inl rfl, hs⟩
      · exact ⟨.inl rfl, hs⟩
      · rename_i freed
        have hreclaim (v : Tenant) (i : Nat) (hp : v.parked = t.parked)
            (hv : v.chunks.size = t.chunks.size) : ((v.reclaim i).state.parked = t.parked ∨
              ∃ j, (v.reclaim i).state.parked = j :: t.parked) ∧
              (v.reclaim i).state.chunks.size = t.chunks.size := by
          obtain ⟨hparked, hsize⟩ := v.parked_reclaim i
          rw [hp] at hparked
          exact ⟨hparked.imp_right fun hk => ⟨i, hk⟩, hsize.trans hv⟩
        cases freed.drained with
        | false => cases freed.reopened <;> exact ⟨.inl rfl, hs⟩
        | true => cases freed.reopened <;> exact hreclaim _ _ rfl hs

theorem parked_freeItem (t : Tenant) (items : Items) (item : ItemId) :
    ((t.freeItem items item).state.1.parked = t.parked ∨
      ∃ i, (t.freeItem items item).state.1.parked = i :: t.parked) ∧
      (t.freeItem items item).state.1.chunks.size = t.chunks.size := by
  unfold freeItem
  dsimp only
  split
  · exact t.parked_freeId items _
  · exact ⟨.inl rfl, rfl⟩

theorem Reshapes.of_parked (h : u.parked = t.parked ∨ ∃ i, u.parked = i :: t.parked)
    (hsize : u.chunks.size = t.chunks.size) : t.Reshapes u := by
  rcases h with h | ⟨i, h⟩
  · exact .keeps h hsize
  · exact .parks h hsize

theorem onlyChunks_register (t : Tenant) (items : Items) (item : ItemId)
    (stateItem : Option ItemId) :
    t.allocate.state.OnlyChunks (t.register items item stateItem).state.1 := by
  unfold register
  split
  · rename_i u e log hu
    rw [hu]
    exact .refl u
  · rename_i u i offset log hu
    rw [hu]
    cases stateItem with
    | none => exact u.onlyChunks_onHeldChunk i _
    | some s => exact (u.onlyChunks_onHeldChunk i _).trans (onlyChunks_onHeldChunk _ i _)

theorem WF.reshapes_register (h : t.WF) (items : Items) (item : ItemId)
    (stateItem : Option ItemId) : t.Reshapes (t.register items item stateItem).state.1 :=
  h.reshapes_allocate.1.then_chunks (t.onlyChunks_register items item stateItem)

end
end Tenant

namespace Store
variable {s : Store}

theorem step_reshapes (h : s.tenant.WF) (op : Op) :
    s.tenant.Reshapes (s.step op).1.tenant := by
  cases op with
  | nextId => exact h.reshapes_allocate.1
  | register item stateItem => exact h.reshapes_register s.items item stateItem
  | freeId id =>
    obtain ⟨hparked, hsize⟩ := s.tenant.parked_freeId s.items id
    exact .of_parked hparked hsize
  | freeItem item =>
    obtain ⟨hparked, hsize⟩ := s.tenant.parked_freeItem s.items item
    exact .of_parked hparked hsize
  | allocateIn chunk => exact (s.tenant.onlyChunks_onHeldChunk chunk Chunk.allocate).reshapes
  | setHeaders items => exact .refl s.tenant

theorem size_step_or_taken (h : s.tenant.WF) (op : Op) :
    (s.step op).1.tenant.chunks.size = s.tenant.chunks.size ∨
      ∃ id, (s.step op).2 = .taken (.ok id) := by
  cases op with
  | nextId =>
    simp only [step, Tenant.nextId, Outcome.map]
    rcases h.allocate_cases with ⟨i, offset, u, log, ha, -⟩ | ⟨e, u, ha, -, queue, rfl⟩
    · rw [ha]
      exact .inr ⟨_, rfl⟩
    · rw [ha]
      exact .inl rfl
  | register item stateItem =>
    simp only [step, Tenant.register]
    rcases h.allocate_cases with ⟨i, offset, u, log, ha, -⟩ | ⟨e, u, ha, -, queue, rfl⟩
    · rw [ha]
      exact .inr ⟨_, rfl⟩
    · rw [ha]
      exact .inl rfl
  | freeId id => exact .inl (s.tenant.parked_freeId s.items id).2
  | freeItem item => exact .inl (s.tenant.parked_freeItem s.items item).2
  | allocateIn chunk =>
    obtain ⟨chunks, hs, hu⟩ := s.tenant.onlyChunks_onHeldChunk chunk Chunk.allocate
    exact .inl ((congrArg (·.chunks.size) hu).trans hs)
  | setHeaders items => exact .inl rfl

theorem full_of_step_error (h : s.tenant.WF) {op : Op} {e : PoolError}
    (he : (s.step op).2 = .taken (.error e)) :
    e = .exhausted s.tenant.schema.maxChunks ∧ s.tenant.Full ∧
      s.tenant.chunks.size = s.tenant.schema.maxChunks := by
  refine h.reshapes_allocate.2 e ?_
  cases op with
  | nextId =>
    have he : s.tenant.nextId.result = .error e := Answer.taken.inj he
    unfold Tenant.nextId Outcome.map at he
    cases hr : s.tenant.allocate.result with
    | error e' =>
      rw [hr] at he
      cases he
      rfl
    | ok place =>
      rw [hr] at he
      cases he
  | register item stateItem =>
    have he : (s.tenant.register s.items item stateItem).result = .error e := Answer.taken.inj he
    unfold Tenant.register at he
    split at he
    · rename_i u e' log hu
      rw [hu]
      cases he
      rfl
    · cases he
  | freeId id => cases he
  | freeItem item => cases he
  | allocateIn chunk => cases he
  | setHeaders items => cases he

end Store
end EntityStore
