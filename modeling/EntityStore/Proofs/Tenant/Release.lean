import EntityStore.Proofs.Tenant.Invariant
import EntityStore.Tenant.Release

/-! How a drained chunk leaves the chain of a tenant. -/

namespace EntityStore.Tenant

/-- How `u` is made from `t`: chunk `i` becomes `d`, which is parked, and its neighbours `p` and
`n`, which are `before` and `after`, are linked to each other. -/
structure Unlinks (t : Tenant) (p : Nat) (before : Chunk) (i : Nat) (d : Chunk) (n : Nat)
    (after : Chunk) (u : Tenant) : Prop where
  heldChunk? : ∀ j, u.heldChunk? j = if j = n then some (after.setPrev (some p)) else
    if j = p then some (before.setNext (some n)) else if j = i then some d else t.heldChunk? j
  closed : u.closed = t.closed
  id : u.id = t.id
  schema : u.schema = t.schema
  size : u.chunks.size = t.chunks.size
  chunkCount : u.chunkCount = t.chunkCount
  tail : u.tail = t.tail
  current : u.current = t.current
  reusable : u.reusable = t.reusable
  parked : u.parked = i :: t.parked

section
variable {t u : Tenant} {p i n : Nat} {before d after c : Chunk} {pre post : List Nat}

theorem Linked.neighbours (h : t.Linked none (pre ++ p :: i :: n :: post) none)
    (hc : t.heldChunk? i = some c) :
    c.prev = some p ∧ c.next = some n ∧ (∃ b, t.heldChunk? p = some b) ∧
      ∃ a, t.heldChunk? n = some a := by
  obtain ⟨-, ⟨b, hb, -, -⟩, ⟨e, he, hprev, hnext⟩, ⟨a, ha, -, -⟩, -⟩ := linked_append.1 h
  rw [hc] at he
  cases he
  exact ⟨hprev, hnext, ⟨b, hb⟩, ⟨a, ha⟩⟩

theorem IsChain.ne_neighbours (h : t.IsChain (pre ++ p :: i :: n :: post)) :
    p ≠ i ∧ p ≠ n ∧ i ≠ n := by
  obtain ⟨-, hnodup, -⟩ := List.nodup_append.1 h.nodup
  simp only [List.nodup_cons, List.mem_cons, not_or] at hnodup
  exact ⟨hnodup.1.1, hnodup.1.2.1, hnodup.2.1.1⟩

theorem Unlinks.heldChunk_cases (hu : t.Unlinks p before i d n after u)
    (hb : t.heldChunk? p = some before) (ha : t.heldChunk? n = some after) (hpi : p ≠ i)
    (hin : i ≠ n) {j : Nat} {e : Chunk} (he : u.heldChunk? j = some e) :
    (j = i ∧ e = d) ∨ ∃ old, t.heldChunk? j = some old ∧ j ≠ i ∧
      ∃ prev next, e = { old with prev, next } := by
  rw [hu.heldChunk?] at he
  split at he
  · rename_i hj
    cases he
    exact .inr ⟨after, hj ▸ ha, hj ▸ hin.symm, some p, after.next, rfl⟩
  · split at he
    · rename_i hj
      cases he
      exact .inr ⟨before, hj ▸ hb, hj ▸ hpi, before.prev, some n, rfl⟩
    · split at he
      · rename_i hj
        cases he
        exact .inl ⟨hj, rfl⟩
      · rename_i hj
        exact .inr ⟨e, he, hj, e.prev, e.next, rfl⟩

theorem IsChain.unlink (h : t.IsChain (pre ++ p :: i :: n :: post))
    (hb : t.heldChunk? p = some before) (ha : t.heldChunk? n = some after) (hd : d.parked = true)
    (hu : t.Unlinks p before i d n after u) : u.IsChain (pre ++ p :: n :: post) := by
  obtain ⟨-, hnodup, hpre⟩ := List.nodup_append.1 h.nodup
  simp only [List.nodup_cons, List.mem_cons, not_or] at hnodup
  obtain ⟨⟨hpi, hpn, hppost⟩, ⟨hin, hipost⟩, hnpost, -⟩ := hnodup
  have hpre' : ∀ j ∈ pre, j ≠ p ∧ j ≠ i ∧ j ≠ n := fun j hj =>
    ⟨hpre j hj p (by simp), hpre j hj i (by simp), hpre j hj n (by simp)⟩
  have hmem (j : Nat) : j ∈ pre ++ p :: n :: post ↔ j ∈ pre ++ p :: i :: n :: post ∧ j ≠ i := by
    have hsplit : pre ++ p :: i :: n :: post = (pre ++ [p]) ++ i :: n :: post := by simp
    rw [hsplit, ← mem_without (pre ++ [p]) (n :: post) (hsplit ▸ h.nodup)]
    simp
  -- Away from the three chunks nothing changes.
  have hget {j : Nat} (hjp : j ≠ p) (hji : j ≠ i) (hjn : j ≠ n) :
      u.heldChunk? j = t.heldChunk? j := by
    rw [hu.heldChunk?, if_neg hjn, if_neg hjp, if_neg hji]
  have hgetp : u.heldChunk? p = some (before.setNext (some n)) := by
    rw [hu.heldChunk?, if_neg hpn, if_pos rfl]
  have hgetn : u.heldChunk? n = some (after.setPrev (some p)) := by
    rw [hu.heldChunk?, if_pos rfl]
  have hsub : (pre ++ p :: n :: post).Sublist (pre ++ p :: i :: n :: post) :=
    (List.Sublist.refl pre).append (.cons_cons p (.cons i (.refl _)))
  refine
    { nodup := h.nodup.sublist hsub
      mem_iff := fun j => ?_
      head := ?_
      last := ?_
      linked := ?_ }
  · rw [hmem, h.mem_iff]
    by_cases hjn : j = n
    · subst hjn
      simp [hgetn, ha, Ne.symm hin, Chunk.setPrev]
    · by_cases hjp : j = p
      · subst hjp
        simp [hgetp, hb, hpi, Chunk.setNext]
      · by_cases hji : j = i
        · subst hji
          simp [hu.heldChunk?, hjn, hjp, hd]
        · rw [hget hjp hji hjn]
          simp [hji]
  · have := h.head
    rwa [List.head?_append, List.head?_cons] at this ⊢
  · have := h.last
    simp only [List.getLast?_append, List.getLast?_cons_cons] at this ⊢
    rw [hu.tail]
    exact this
  · obtain ⟨hl, ⟨b, hb', hbp, -⟩, -, ⟨a, ha', -, han⟩, hr⟩ := linked_append.1 h.linked
    rw [hb] at hb'
    rw [ha] at ha'
    cases hb'
    cases ha'
    refine linked_append.2 ⟨?_, ⟨_, hgetp, hbp, rfl⟩, ⟨_, hgetn, rfl, han⟩, ?_⟩
    · refine hl.congr fun j hj e he => ⟨e, ?_, rfl, rfl⟩
      obtain ⟨hjp, hji, hjn⟩ := hpre' j hj
      rw [hget hjp hji hjn, he]
    · refine hr.congr fun j hj e he => ⟨e, ?_, rfl, rfl⟩
      rw [hget (fun heq => hppost (heq ▸ hj)) (fun heq => hipost (heq ▸ hj))
        (fun heq => hnpost (heq ▸ hj)), he]

/-- Parking a drained chunk, which may have been the only one that was drained and not parked,
restores the invariant. -/
theorem Sound.wf_of_unlinks (h : t.Sound) (hchain : t.IsChain (pre ++ p :: i :: n :: post))
    (hc : t.heldChunk? i = some c) (hb : t.heldChunk? p = some before)
    (ha : t.heldChunk? n = some after) (hd : c.Retires d)
    (hothers : ∀ {j e}, t.heldChunk? j = some e → j ≠ i → j ≠ 0 → j ≠ t.tail → e.live = 0 →
      e.parked = true)
    (hu : t.Unlinks p before i d n after u) : u.WF := by
  obtain ⟨hpi, hpn, hin⟩ := hchain.ne_neighbours
  have hcases {j : Nat} {e : Chunk} (he : u.heldChunk? j = some e) :=
    hu.heldChunk_cases hb ha hpi hin he
  refine
    { isOpen := hu.closed.trans h.isOpen
      chunkCount_eq := by rw [hu.chunkCount, hu.size, h.chunkCount_eq]
      size_le := by rw [hu.size, hu.schema]; exact h.size_le
      current_eq := by rw [hu.current, hu.tail, h.current_eq]
      fits := fun he => ?_
      nodup_parked := ?_
      mem_parked := fun j => ?_
      chain := ⟨_, hchain.unlink hb ha hd.parked hu⟩
      parked_of_drained := fun he h0 ht hl => ?_ }
  · rcases hcases he with ⟨rfl, rfl⟩ | ⟨old, ho, -, prev, next, rfl⟩
    · have hfits := h.fits hc
      refine ⟨hd.wf, hd.index.trans hfits.index, hu.schema ▸ hd.capacity.trans hfits.capacity,
        fun hp => ?_, fun hf => absurd hd.free hf⟩
      rw [hd.parked] at hp
      cases hp
    · have hfits := (h.fits ho).of_links prev next
      exact hfits.congr hu.schema hu.tail (hu.reusable ▸ hfits.queued)
  · rw [hu.parked]
    refine List.nodup_cons.2 ⟨fun hi => ?_, h.nodup_parked⟩
    obtain ⟨e, he, hp⟩ := (h.mem_parked i).1 hi
    rw [hc] at he
    cases he
    rw [hd.parked_before] at hp
    cases hp
  · rw [hu.parked, List.mem_cons, h.mem_parked, hu.heldChunk?]
    by_cases hjn : j = n
    · subst hjn
      simp [ha, Ne.symm hin, Chunk.setPrev]
    · by_cases hjp : j = p
      · subst hjp
        simp [hb, hpi, hjn, Chunk.setNext]
      · by_cases hji : j = i
        · simp [hji, hji ▸ hjn, hji ▸ hjp, hd.parked]
        · simp [hji, hjn, hjp]
  · rcases hcases he with ⟨-, rfl⟩ | ⟨old, ho, hji, prev, next, rfl⟩
    · exact hd.parked
    · have hl : old.live = 0 := hl
      exact (hothers ho hji h0 (hu.tail ▸ ht) hl : old.parked = true)

theorem Unlinks.slot? (hu : t.Unlinks p before i d n after u) (hc : t.heldChunk? i = some c)
    (hb : t.heldChunk? p = some before) (ha : t.heldChunk? n = some after) (hd : c.Retires d)
    (j o : Nat) : u.slot? j o = t.slot? j o := by
  unfold Tenant.slot?
  rw [hu.heldChunk?]
  by_cases hjn : j = n
  · rw [if_pos hjn, hjn, ha]
    exact Chunk.SameSlots.content? ⟨rfl, rfl, rfl, rfl⟩ o
  · rw [if_neg hjn]
    by_cases hjp : j = p
    · rw [if_pos hjp, hjp, hb]
      exact Chunk.SameSlots.content? ⟨rfl, rfl, rfl, rfl⟩ o
    · rw [if_neg hjp]
      by_cases hji : j = i
      · rw [if_pos hji, hji, hc]
        exact hd.content o
      · rw [if_neg hji]

theorem Sound.unlinks_reclaim (h : t.Sound) (h0 : i ≠ 0) (ht : i ≠ t.tail)
    (hchain : t.IsChain (pre ++ p :: i :: n :: post)) (hc : t.heldChunk? i = some c)
    (hb : t.heldChunk? p = some before) (ha : t.heldChunk? n = some after)
    (hr : c.retire = (some (some p, some n), d)) :
    t.Unlinks p before i d n after (t.reclaim i).state := by
  obtain ⟨hpi, hpn, hin⟩ := hchain.ne_neighbours
  let t₁ := t.setChunk i d
  let t₂ := t₁.setChunk p (before.setNext (some n))
  let t₃ := t₂.setChunk n (after.setPrev (some p))
  have hget₁ : ∀ j, t₁.heldChunk? j = _ := heldChunk?_setChunk hc d
  have hb₁ : t₁.heldChunk? p = some before := by rw [hget₁, if_neg hpi, hb]
  have hget₂ : ∀ j, t₂.heldChunk? j = _ := heldChunk?_setChunk hb₁ _
  have ha₂ : t₂.heldChunk? n = some after := by
    rw [hget₂, if_neg hpn.symm, hget₁, if_neg hin.symm, ha]
  have hget₃ : ∀ j, t₃.heldChunk? j = _ := heldChunk?_setChunk ha₂ _
  have ho₁ : t₁.closed = false := h.isOpen
  have ho₂ : t₂.closed = false := h.isOpen
  have heq : (t.reclaim i).state = { t₃ with parked := i :: t.parked } := by
    unfold reclaim
    rw [if_neg (by simp [h0, ht, h.isOpen])]
    simp only [h.onChunk_eq hc, hr]
    rw [show (t.setChunk i d).modifyChunk p (·.setNext (some n)) = t₂ from
        modifyChunk_eq ho₁ hb₁ _,
      show t₂.modifyChunk n (·.setPrev (some p)) = t₃ from modifyChunk_eq ho₂ ha₂ _]
    rfl
  rw [heq]
  refine
    { heldChunk? := fun j => ?_
      closed := rfl
      id := rfl
      schema := rfl
      size := by simp [t₃, t₂, t₁]
      chunkCount := rfl
      tail := rfl
      current := rfl
      reusable := rfl
      parked := rfl }
  refine (hget₃ j).trans ?_
  rw [hget₂, hget₁]

theorem Sound.wf_reclaim (h : t.Sound) (hc : t.heldChunk? i = some c) (hp : c.parked = false)
    (hl : c.live = 0)
    (hothers : ∀ {j e}, t.heldChunk? j = some e → j ≠ i → j ≠ 0 → j ≠ t.tail → e.live = 0 →
      e.parked = true) :
    (t.reclaim i).state.WF ∧ (t.reclaim i).state.id = t.id ∧
      (t.reclaim i).state.schema = t.schema ∧
      ∀ j o, (t.reclaim i).state.slot? j o = t.slot? j o := by
  by_cases hends : i = 0 ∨ i = t.tail
  · -- The ends of the chain stay in it, drained or not.
    have heq : t.reclaim i = ⟨t, (), []⟩ := by
      unfold reclaim
      rw [if_pos (hends.imp_right .inl)]
    rw [heq]
    refine ⟨⟨h, fun {j e} he h0 ht hl => ?_⟩, rfl, rfl, fun _ _ => rfl⟩
    refine hothers he (fun hj => ?_) h0 ht hl
    rcases hends with hi | hi
    · exact h0 (hj.trans hi)
    · exact ht (hj.trans hi)
  · obtain ⟨h0, ht⟩ := not_or.1 hends
    obtain ⟨is, hchain⟩ := h.chain
    obtain ⟨pre, p, n, post, rfl⟩ :=
      hchain.exists_neighbours ((hchain.mem_iff i).2 ⟨c, hc, hp⟩) h0 ht
    obtain ⟨hprev, hnext, ⟨before, hb⟩, ⟨after, ha⟩⟩ := hchain.linked.neighbours hc
    obtain ⟨d, hr⟩ := Chunk.exists_retire hl hp
    rw [hprev, hnext] at hr
    obtain ⟨hd, -, -⟩ := (h.chunk_wf hc).retires hr
    have hu := h.unlinks_reclaim h0 ht hchain hc hb ha hr
    exact ⟨h.wf_of_unlinks hchain hc hb ha hd hothers hu, hu.id, hu.schema,
      hu.slot? hc hb ha hd⟩

end

section
variable {t : Tenant} {i offset : Nat} {c d : Chunk}

/-- The tenant after a slot was freed, before a drained chunk is parked. -/
def afterFree (t : Tenant) (i : Nat) (freed : Freed) (d : Chunk) : Tenant :=
  (t.setChunk i d).setQueue (if freed.reopened then t.reusable.push i else t.reusable)
    (t.live - 1)

theorem WF.sound_afterFree (h : t.WF) (hc : t.heldChunk? i = some c) {freed : Freed}
    (hd : c.Frees offset freed d) : (t.afterFree i freed d).Sound := by
  have hqueue : (t.setQueue (if freed.reopened then t.reusable.push i else t.reusable)
      (t.live - 1)).Sound := h.toSound.setQueue _ fun he hf => by
    have := h.queued he hf
    split
    · rw [Fifo.toList_push]
      exact List.mem_append_left _ this
    · exact this
  refine hqueue.setChunk hc hd.wf hd.place (hd.parked.trans hd.parked_before.symm)
    (Nat.le_of_eq hd.nextOffset.symm) fun _ => ?_
  show i ∈ (if freed.reopened then t.reusable.push i else t.reusable).toList
  split
  · simp
  · rename_i hr
    exact h.queued hc fun hf => hr (hd.reopened.2 hf)

theorem WF.sets_afterFree (h : t.WF) (hc : t.heldChunk? i = some c) {freed : Freed}
    (hd : c.Frees offset freed d) :
    t.Sets i offset none
      (if freed.drained then ((t.afterFree i freed d).reclaim i).state
        else t.afterFree i freed d) := by
  have hsound := h.sound_afterFree hc hd
  have hget (j : Nat) : (t.afterFree i freed d).heldChunk? j = if j = i then some d else
      t.heldChunk? j := heldChunk?_setChunk hc d j
  have hslot (j o : Nat) : (t.afterFree i freed d).slot? j o =
      if j = i ∧ o = offset then none else t.slot? j o :=
    slot?_setChunk_of_content hc hd.content j o
  have hothers {j : Nat} {e : Chunk} (he : (t.afterFree i freed d).heldChunk? j = some e)
      (hj : j ≠ i) (h0 : j ≠ 0) (ht : j ≠ t.tail) (hl : e.live = 0) : e.parked = true := by
    rw [hget, if_neg hj] at he
    exact h.parked_of_drained he h0 ht hl
  have hi : (t.afterFree i freed d).heldChunk? i = some d := (hget i).trans (if_pos rfl)
  by_cases hdr : freed.drained = true
  · obtain ⟨hwf, hid, hschema, hsame⟩ :=
      hsound.wf_reclaim hi hd.parked (hd.drained.1 hdr) hothers
    rw [if_pos hdr]
    exact ⟨hwf, hid, hschema, fun j o => (hsame j o).trans (hslot j o)⟩
  · -- The chunk itself was not drained, so it asks for no parking.
    rw [if_neg hdr]
    refine ⟨⟨hsound, fun {j e} he h0 ht hl => ?_⟩, rfl, rfl, hslot⟩
    by_cases hj : j = i
    · subst hj
      rw [hi] at he
      cases he
      exact absurd (hd.drained.2 hl) hdr
    · exact hothers he hj h0 ht hl

/-! ### The answers of a free -/

/-- The tenant after a slot was freed and the chunk, if that drained it, was parked. -/
def vacated (t : Tenant) (i : Nat) (freed : Freed) (d : Chunk) : Tenant :=
  if freed.drained then ((t.afterFree i freed d).reclaim i).state else t.afterFree i freed d

variable {id : UInt32}

theorem WF.freeId_of_isDetached (h : t.WF) (items : Items) (hid : IdSchema.isDetached id = true) :
    t.freeId items id = ⟨(t, items), .error (.invalidId id), [.detachedRefused t.id id]⟩ := by
  unfold freeId
  rw [if_neg (by simp [h.isOpen]), if_pos hid]

theorem WF.freeId_of_missing (h : t.WF) (items : Items) (hid : IdSchema.isDetached id = false)
    (hc : t.heldChunk? (t.schema.decode id).1 = none) :
    t.freeId items id = ⟨(t, items), .error (.invalidId id), []⟩ := by
  unfold freeId
  rw [if_neg (by simp [h.isOpen]), if_neg (by simp [hid])]
  simp only [onChunk_of_none hc]

theorem WF.freeId_of_refused (h : t.WF) (items : Items) (hid : IdSchema.isDetached id = false)
    (hc : t.heldChunk? (t.schema.decode id).1 = some c) {e : SlotError}
    (hr : c.release (t.schema.decode id).2 = (.error e, d)) :
    t.freeId items id =
      ⟨(t, items), .error (if e = .alreadyFree then .alreadyFree id else .invalidId id),
        [.freeFailed t.id id e]⟩ := by
  obtain ⟨rfl, -, -⟩ := (h.chunk_wf hc).of_release_eq_error hr
  unfold freeId
  rw [if_neg (by simp [h.isOpen]), if_neg (by simp [hid])]
  simp only [h.onChunk_eq hc, hr, setChunk_self hc]
  cases e <;> rfl

theorem WF.freeId_of_released (h : t.WF) (items : Items) (hid : IdSchema.isDetached id = false)
    (hc : t.heldChunk? (t.schema.decode id).1 = some c) {freed : Freed}
    (hr : c.release (t.schema.decode id).2 = (.ok freed, d)) :
    ∃ log, t.freeId items id =
      ⟨(t.vacated (t.schema.decode id).1 freed d, detachItems items id freed), .ok freed.item,
        log⟩ := by
  unfold freeId
  rw [if_neg (by simp [h.isOpen]), if_neg (by simp [hid])]
  simp only [h.onChunk_eq hc, hr]
  unfold vacated afterFree
  cases freed.reopened <;> cases freed.drained <;> exact ⟨_, rfl⟩

end
end EntityStore.Tenant
