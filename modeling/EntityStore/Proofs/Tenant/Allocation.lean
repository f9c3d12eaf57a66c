import EntityStore.Proofs.Tenant.Growth

/-! What handing out a slot does. Vacant slots come from the queue, fresh ones from the tail, and a
full tail gets a successor first. -/

namespace EntityStore.Tenant

/-- The tenant `u` is `t` with a slot handed out. -/
structure Takes (t : Tenant) (i offset : Nat) (u : Tenant) : Prop
    extends Sets t i offset (some (none, none)) u where
  lt_size : i < u.chunks.size
  lt_capacity : offset < t.schema.capacity
  slot_before : t.slot? i offset = none

section
variable {t u : Tenant} {i offset : Nat} {c d : Chunk}

theorem Takes.setQueue (h : t.Takes i offset u) {queue : Fifo Nat} (live : UInt64)
    (hqueue : ∀ {j e}, u.heldChunk? j = some e → e.free ≠ [] → j ∈ queue.toList) :
    t.Takes i offset (u.setQueue queue live) :=
  { h with wf := h.wf.setQueue live hqueue, slot := h.slot }

theorem Takes.of_setQueue {queue : Fifo Nat} {live : UInt64}
    (h : (t.setQueue queue live).Takes i offset u) : t.Takes i offset u :=
  { h with slot_before := h.slot_before, slot := h.slot }

theorem WF.takes_setChunk (h : t.WF) (hc : t.heldChunk? i = some c) (hd : c.Takes offset d) :
    t.Takes i offset (t.setChunk i d) where
  wf := by
    refine h.setChunk hc hd.wf hd.place (hd.parked.trans hd.parked_before.symm) hd.le_nextOffset
      (fun hf => h.queued hc fun hnil => hf ?_) fun hl => ?_
    · rw [hd.free, hnil]
      rfl
    · rw [hd.live] at hl
      cases hl
  id := rfl
  schema := rfl
  lt_size := by simpa using lt_of_heldChunk? hc
  lt_capacity := h.chunk_capacity hc ▸ hd.lt_capacity
  slot_before := (slot?_eq hc offset).trans hd.content_before
  slot := slot?_setChunk_of_content hc hd.content

theorem of_onChunk_reuse (ho : t.closed = false) {r : Option (Option (Nat × Bool))}
    (h : t.onChunk i Chunk.reuse = (r, u))
    (hr : ∀ offset more, r = some (some (offset, more)) → False) :
    u = t ∧ ∀ c, t.heldChunk? i = some c → c.free = [] := by
  cases hc : t.heldChunk? i with
  | none =>
    rw [onChunk_of_none hc] at h
    cases h
    exact ⟨rfl, by simp⟩
  | some c =>
    rw [onChunk_eq ho hc] at h
    cases h
    cases ha : c.reuse.1 with
    | some p => exact (hr p.1 p.2 (congrArg some ha)).elim
    | none =>
      obtain ⟨hd, hf⟩ := Chunk.of_reuse_eq_none (Prod.ext ha rfl : c.reuse = (none, c.reuse.2))
      rw [hd]
      refine ⟨setChunk_self hc, fun e he => ?_⟩
      cases he
      exact hf

theorem WF.wf_of_stale (h : t.WF) {rest : Fifo Nat} (hq : t.reusable.pop? = some (i, rest))
    (hnil : ∀ c, t.heldChunk? i = some c → c.free = []) : (t.setQueue rest t.live).WF := by
  refine h.setQueue _ fun {j e} he hf => ?_
  have hmem := h.queued he hf
  rw [Fifo.toList_eq_of_pop? hq, List.mem_cons] at hmem
  refine hmem.resolve_left fun hj => hf (hnil e ?_)
  rw [← hj]
  exact he

theorem WF.takes_reused (h : t.WF) {rest : Fifo Nat} (hq : t.reusable.pop? = some (i, rest))
    (hc : t.heldChunk? i = some c) (hd : c.Takes offset d) {more : Bool}
    (hmore : more = true ↔ d.free ≠ []) :
    t.Takes i offset
      ((t.setChunk i d).setQueue (if more then rest.push i else rest) (t.live + 1)) := by
  refine (h.takes_setChunk hc hd).setQueue _ fun {j e} he hf => ?_
  rw [heldChunk?_setChunk hc] at he
  split at he
  · rename_i hj
    cases he
    rw [if_pos (hmore.2 hf), hj]
    simp
  · rename_i hj
    have hmem := h.queued he hf
    rw [Fifo.toList_eq_of_pop? hq, List.mem_cons] at hmem
    have hrest := hmem.resolve_left hj
    split
    · rw [Fifo.toList_push]
      exact List.mem_append_left _ hrest
    · exact hrest

/-- The queue leads to a vacant slot, or else no chunk has one. -/
theorem WF.reuse_cases (h : t.WF) :
    (∃ i offset c d queue, t.heldChunk? i = some c ∧ c.free ≠ [] ∧ c.Takes offset d ∧
      t.reuse = (some (i, offset), (t.setChunk i d).setQueue queue (t.live + 1)) ∧
      t.Takes i offset ((t.setChunk i d).setQueue queue (t.live + 1))) ∨
    ∃ queue, t.reuse = (none, t.setQueue queue t.live) ∧ (t.setQueue queue t.live).WF ∧
      ∀ {i c}, t.heldChunk? i = some c → c.free = [] := by
  fun_induction reuse t with
  | case1 t hq =>
    have hempty {i : Nat} {c : Chunk} (hc : t.heldChunk? i = some c) : c.free = [] := by
      by_contra hf
      have := h.queued hc hf
      rw [Fifo.pop?_eq_none_iff.1 hq] at this
      cases this
    exact .inr ⟨t.reusable, rfl, h.setQueue _ h.queued, hempty⟩
  | case2 t i rest hq offset more u hu =>
    change (t.setQueue rest t.live).onChunk i Chunk.reuse = _ at hu
    have ho : (t.setQueue rest t.live).closed = false := h.isOpen
    obtain ⟨c, d, hc, hr, rfl⟩ := exists_of_onChunk_eq_some ho hu
    change t.heldChunk? i = some c at hc
    obtain ⟨hd, hmore⟩ := (h.chunk_wf hc).takes_of_reuse hr
    refine .inl ⟨i, offset, c, d, if more then rest.push i else rest, hc, fun hf => ?_, hd, rfl,
      h.takes_reused hq hc hd hmore⟩
    rw [Chunk.reuse, hf] at hr
    cases hr
  | case3 t i rest hq r u hr hu ih =>
    -- The entry is stale, so only the queue changes.
    obtain ⟨hu, hnil⟩ := of_onChunk_reuse (t := t.setQueue rest t.live) h.isOpen hu hr
    subst hu
    have hrest := h.wf_of_stale hq hnil
    rcases ih hrest with ⟨j, o, c, d, queue, hc, hf, hd, he, ht⟩ | ⟨queue, he, hwf, hf⟩
    · exact .inl ⟨j, o, c, d, queue, hc, hf, hd, he, ht.of_setQueue⟩
    · exact .inr ⟨queue, he, hwf, hf⟩

theorem WF.extend_of_allocate (h : t.WF) (log : List Event) (hc : t.heldChunk? t.tail = some c)
    (ha : c.allocate = (some offset, d)) :
    t.extend log =
      ⟨(t.setChunk t.tail d).setQueue t.reusable (t.live + 1), .ok (t.tail, offset), log⟩ := by
  rw [extend]
  simp only [h.current_eq, h.onChunk_eq hc, ha]
  rfl

theorem WF.extend_of_grow (h : t.WF) (log : List Event) (hc : t.heldChunk? t.tail = some c)
    (ha : c.allocate = (none, c)) {more : List Event} (hg : t.grow t.tail = ⟨u, .ok (), more⟩) :
    t.extend log = u.extend (log ++ more) := by
  rw [extend]
  simp only [h.current_eq, h.onChunk_eq hc, ha, setChunk_self hc, hg]
  rw [if_pos (room_lt_of_grow hg)]

theorem WF.extend_of_grow_error (h : t.WF) (log : List Event)
    (hc : t.heldChunk? t.tail = some c) (ha : c.allocate = (none, c)) {e : PoolError}
    {more : List Event} (hg : t.grow t.tail = ⟨u, .error e, more⟩) :
    t.extend log = ⟨u, .error e, log ++ more⟩ := by
  rw [extend]
  simp only [h.current_eq, h.onChunk_eq hc, ha, setChunk_self hc, hg]

theorem exists_allocate_of_empty (hp : c.parked = false) (hf : c.free = [])
    (hmark : c.nextOffset = 0) (hcap : 0 < c.capacity) : ∃ d, c.allocate = (some 0, d) := by
  refine ⟨c.takeFresh, ?_⟩
  unfold Chunk.allocate
  rw [if_neg (by simp [hp]), hf]
  simp only [hmark, hcap, if_true]

theorem Grows.exists_allocate (h : t.Grows u) :
    ∃ c d, u.heldChunk? u.tail = some c ∧ c.allocate = (some 0, d) := by
  obtain ⟨c, hc, hp⟩ := h.wf.exists_tail
  obtain ⟨hf, hmark⟩ := h.empty c hc
  have hcap : 0 < c.capacity := h.wf.chunk_capacity hc ▸ u.schema.capacity_pos
  obtain ⟨d, hd⟩ := exists_allocate_of_empty hp hf hmark hcap
  exact ⟨c, d, hc, hd⟩

theorem WF.tail_ne_of_grows (h : t.WF) (hu : t.Grows u) : u.tail ≠ t.tail := by
  obtain ⟨c, hc, hp⟩ := h.exists_tail
  rw [hu.tail]
  cases hparked : t.parked with
  | nil => exact (Nat.ne_of_lt (lt_of_heldChunk? hc)).symm
  | cons i rest =>
    obtain ⟨d, hd, hdp⟩ := (h.mem_parked i).1 (hparked ▸ List.mem_cons_self ..)
    rintro rfl
    rw [hc] at hd
    cases hd
    rw [hp] at hdp
    cases hdp

theorem Grows.takes {v : Tenant} (h : t.Grows u) (hv : u.Takes i offset v) :
    t.Takes i offset v :=
  { hv with
    id := hv.id.trans h.id
    schema := hv.schema.trans h.schema
    lt_capacity := h.schema ▸ hv.lt_capacity
    slot_before := (h.slot i offset).symm.trans hv.slot_before
    slot := fun j o => by rw [hv.slot, h.slot] }

theorem WF.takes_extended (h : t.WF) (hc : t.heldChunk? t.tail = some c)
    (ha : c.allocate = (some offset, d)) :
    t.Takes t.tail offset ((t.setChunk t.tail d).setQueue t.reusable (t.live + 1)) :=
  have ht := h.takes_setChunk hc ((h.chunk_wf hc).takes_of_allocate ha)
  ht.setQueue _ ht.wf.queued

theorem exists_onlyChain_extend (log : List Event) (t : Tenant) :
    ∃ u, t.OnlyChain u ∧ (t.extend log).state =
      { u with live := if (t.extend log).result.isOk then u.live + 1 else u.live } := by
  -- A full chunk is left as it is and another is linked behind it.
  have hgrown {t u v : Tenant} {i : Nat} {r : Option (Option Nat)} {e : Except PoolError Unit}
      {more : List Event} (hu : t.onChunk i Chunk.allocate = (r, u))
      (hv : u.grow i = ⟨v, e, more⟩) : t.OnlyChain v := by
    have hgrow := u.onlyChain_grow i
    rw [hv] at hgrow
    exact (onlyChain_of_onChunk hu).trans hgrow
  fun_induction extend log t with
  | case1 log t i u hu => exact ⟨u, onlyChain_of_onChunk hu, rfl⟩
  | case2 log t i offset u hu => exact ⟨u, onlyChain_of_onChunk hu, rfl⟩
  | case3 log t i u hu v e more hv => exact ⟨v, hgrown hu hv, rfl⟩
  | case4 log t i u hu v more hv hroom ih =>
    obtain ⟨w, hw, hstate⟩ := ih
    exact ⟨w, (hgrown hu hv).trans hw, hstate⟩
  | case5 log t i u hu v more hv hroom => exact ⟨v, hgrown hu hv, rfl⟩

theorem reusable_extend (log : List Event) (t : Tenant) :
    (t.extend log).state.reusable = t.reusable := by
  obtain ⟨u, hu, hstate⟩ := t.exists_onlyChain_extend log
  rw [hstate]
  exact hu.reusable

theorem WF.extend_of_full (h : t.WF) (log : List Event) (hc : t.heldChunk? t.tail = some c)
    (hfull : c.free = [] ∧ c.nextOffset = c.capacity) :
    (∃ i u log', t.extend log = ⟨u, .ok (i, 0), log'⟩ ∧ i = t.parked.head?.getD t.chunks.size ∧
      t.Takes i 0 u ∧ u.parked = t.parked.tail ∧
      u.chunks.size = if t.parked = [] then t.chunks.size + 1 else t.chunks.size) ∨
    t.extend log = ⟨t, .error (.exhausted t.schema.maxChunks), log⟩ ∧ t.parked = [] ∧
      t.chunks.size = t.schema.maxChunks := by
  have ha : c.allocate = (none, c) := by
    unfold Chunk.allocate
    rw [if_neg (by simp [h.tail_not_parked hc]), hfull.1]
    simp only [hfull.2, Nat.lt_irrefl, if_false]
  rcases h.grow_cases hc hfull with ⟨u, more, hu, hg⟩ | ⟨hg, hparked, hsize⟩
  · left
    obtain ⟨e, d, he, hd⟩ := hg.exists_allocate
    rw [h.extend_of_grow log hc ha hu]
    exact ⟨u.tail, _, _, hg.wf.extend_of_allocate _ he hd, hg.tail,
      hg.takes (hg.wf.takes_extended he hd), hg.parked, (size_setChunk ..).trans hg.size⟩
  · right
    rw [h.extend_of_grow_error log hc ha hg, List.append_nil]
    exact ⟨rfl, hparked, hsize⟩

theorem WF.extend_cases (h : t.WF) (log : List Event) :
    (∃ i offset u log', t.extend log = ⟨u, .ok (i, offset), log'⟩ ∧ t.Takes i offset u) ∨
      t.extend log = ⟨t, .error (.exhausted t.schema.maxChunks), log⟩ ∧ t.parked = [] ∧
        t.chunks.size = t.schema.maxChunks := by
  obtain ⟨c, hc, hp⟩ := h.exists_tail
  cases ha : c.allocate with
  | mk r d =>
    cases r with
    | some offset =>
      exact .inl ⟨_, offset, _, log, h.extend_of_allocate log hc ha, h.takes_extended hc ha⟩
    | none =>
      obtain ⟨-, hfull⟩ := (h.chunk_wf hc).of_allocate_eq_none ha
      rcases h.extend_of_full log hc (hfull.resolve_left (by simp [hp])) with
        ⟨i, u, log', he, -, ht, -⟩ | hexhausted
      · exact .inl ⟨i, 0, u, log', he, ht⟩
      · exact .inr hexhausted

theorem WF.allocate_cases (h : t.WF) :
    (∃ i offset u log, t.allocate = ⟨u, .ok (i, offset), log⟩ ∧ t.Takes i offset u) ∨
      ∃ e u, t.allocate = ⟨u, .error e, []⟩ ∧ u.WF ∧ ∃ queue, u = t.setQueue queue t.live := by
  unfold allocate
  rw [if_neg (by simp [h.isOpen])]
  rcases h.reuse_cases with ⟨i, offset, c, d, queue, -, -, -, hr, ht⟩ | ⟨queue, hr, hwf, -⟩
  · left
    simp only [hr]
    exact ⟨i, offset, _, [], rfl, ht⟩
  · simp only [hr]
    rcases hwf.extend_cases [] with ⟨i, offset, u, log, he, ht⟩ | ⟨he, -⟩
    · exact .inl ⟨i, offset, u, log, he, ht.of_setQueue⟩
    · exact .inr ⟨_, _, he, hwf, queue, rfl⟩

theorem exists_of_slot? {r : Option ItemId × Option ItemId} (h : t.slot? i offset = some r) :
    ∃ c, t.heldChunk? i = some c ∧ c.content? offset = some r :=
  Option.bind_eq_some_iff.1 h

theorem WF.sets_put (h : t.WF) {r : Option ItemId × Option ItemId}
    (hs : t.slot? i offset = some r) (item : ItemId) :
    t.Sets i offset (some (some item, r.2)) (t.modifyHeldChunk i (·.put offset item)) := by
  obtain ⟨c, hc, hr⟩ := exists_of_slot? hs
  have hl := Chunk.isLive_of_content? hr
  have hcw := h.chunk_wf hc
  rw [modifyHeldChunk_eq hc]
  refine h.sets_setChunk hc (hcw.wf_put hl item) ⟨rfl, rfl, rfl, rfl⟩ rfl rfl rfl rfl fun o => ?_
  rw [hcw.content?_put hl, hcw.stateItem?_eq, hr]
  rfl

theorem WF.sets_putState (h : t.WF) {r : Option ItemId × Option ItemId}
    (hs : t.slot? i offset = some r) (item : ItemId) :
    t.Sets i offset (some (r.1, some item)) (t.modifyHeldChunk i (·.putState offset item)) := by
  obtain ⟨c, hc, hr⟩ := exists_of_slot? hs
  have hl := Chunk.isLive_of_content? hr
  have hcw := h.chunk_wf hc
  rw [modifyHeldChunk_eq hc]
  refine h.sets_setChunk hc (hcw.wf_putState hl item) ⟨rfl, rfl, rfl, rfl⟩ rfl rfl rfl rfl
    fun o => ?_
  rw [hcw.content?_putState hl, hcw.item?_eq, hr]
  rfl

end
end EntityStore.Tenant
