import EntityStore.Proofs.Tenant.Chain

/-! The invariant of an open tenant. A chunk leaves the tail only when it is full, so a chunk
between the ends that has no live slot must have been drained by a free, which parks it. -/

namespace EntityStore.Tenant

/-- A chunk that can stand at index `i` of a tenant. -/
structure Fits (t : Tenant) (i : Nat) (c : Chunk) : Prop where
  wf : c.WF
  index : c.index = i
  capacity : c.capacity = t.schema.capacity
  full : c.parked = false → i ≠ t.tail → c.nextOffset = c.capacity
  queued : c.free ≠ [] → i ∈ t.reusable.toList

/-- What holds of an open tenant at all times, also between a free that drains a chunk and the
parking of this chunk. -/
structure Sound (t : Tenant) : Prop where
  isOpen : t.closed = false
  chunkCount_eq : t.chunkCount = t.chunks.size
  size_le : t.chunks.size ≤ t.schema.maxChunks
  current_eq : t.current = t.tail
  fits : ∀ {i c}, t.heldChunk? i = some c → t.Fits i c
  nodup_parked : t.parked.Nodup
  mem_parked : ∀ i, i ∈ t.parked ↔ ∃ c, t.heldChunk? i = some c ∧ c.parked = true
  chain : ∃ is, t.IsChain is

structure WF (t : Tenant) : Prop extends Sound t where
  parked_of_drained : ∀ {i c}, t.heldChunk? i = some c → i ≠ 0 → i ≠ t.tail → c.live = 0 →
    c.parked = true

theorem wf_create (id : UInt32) (schema : IdSchema) : (create id schema).WF := by
  have hchunk {i : Nat} {c : Chunk} (h : (create id schema).heldChunk? i = some c) :
      i = 0 ∧ c = .create 0 schema.capacity := by
    obtain ⟨hi, hc⟩ := Array.getElem?_eq_some_iff.1 h
    obtain rfl : i = 0 := Nat.lt_one_iff.1 hi
    exact ⟨rfl, hc.symm⟩
  have h0 : (create id schema).heldChunk? 0 = some (.create 0 schema.capacity) := rfl
  refine
    { isOpen := rfl
      chunkCount_eq := rfl
      size_le := schema.maxChunks_pos
      current_eq := rfl
      fits := fun h => ?_
      nodup_parked := .nil
      mem_parked := fun i => ?_
      chain := ⟨[0], ?_⟩
      parked_of_drained := fun h h0 => absurd (hchunk h).1 h0 }
  · obtain ⟨rfl, rfl⟩ := hchunk h
    exact ⟨Chunk.wf_create 0 _, rfl, rfl, fun _ ht => absurd rfl ht, fun hf => absurd rfl hf⟩
  · constructor
    · intro hi
      cases hi
    · rintro ⟨c, hc, hp⟩
      rw [(hchunk hc).2] at hp
      cases hp
  · refine ⟨List.nodup_singleton 0, fun i => ?_, rfl, rfl, ⟨_, h0, rfl, rfl⟩, trivial⟩
    constructor
    · intro hi
      obtain rfl := List.mem_singleton.1 hi
      exact ⟨_, h0, rfl⟩
    · rintro ⟨c, hc, -⟩
      exact List.mem_singleton.2 (hchunk hc).1

section
variable {t u : Tenant} {i : Nat} {c : Chunk}

theorem Fits.of_links (h : t.Fits i c) (prev next : Option Nat) : t.Fits i { c with prev, next } :=
  ⟨h.wf.of_links prev next, h.index, h.capacity, h.full, h.queued⟩

theorem Fits.congr (h : t.Fits i c) (hschema : u.schema = t.schema) (htail : u.tail = t.tail)
    (hqueue : c.free ≠ [] → i ∈ u.reusable.toList) : u.Fits i c :=
  ⟨h.wf, h.index, hschema ▸ h.capacity, htail ▸ h.full, hqueue⟩

end

namespace Sound
variable {t : Tenant} {i : Nat} {c d : Chunk}

theorem chunk_wf (h : t.Sound) (hc : t.heldChunk? i = some c) : c.WF := (h.fits hc).wf

theorem chunk_capacity (h : t.Sound) (hc : t.heldChunk? i = some c) :
    c.capacity = t.schema.capacity := (h.fits hc).capacity

theorem full (h : t.Sound) (hc : t.heldChunk? i = some c) (hp : c.parked = false)
    (ht : i ≠ t.tail) : c.nextOffset = c.capacity := (h.fits hc).full hp ht

theorem queued (h : t.Sound) (hc : t.heldChunk? i = some c) (hf : c.free ≠ []) :
    i ∈ t.reusable.toList := (h.fits hc).queued hf

theorem onChunk_eq {ρ : Type} (h : t.Sound) (hc : t.heldChunk? i = some c)
    (f : Chunk → ρ × Chunk) : t.onChunk i f = (some (f c).1, t.setChunk i (f c).2) :=
  Tenant.onChunk_eq h.isOpen hc f

theorem exists_tail (h : t.Sound) : ∃ c, t.heldChunk? t.tail = some c ∧ c.parked = false := by
  obtain ⟨is, his⟩ := h.chain
  exact his.not_parked_tail

theorem zero_not_parked (h : t.Sound) (hc : t.heldChunk? 0 = some c) : c.parked = false := by
  obtain ⟨is, his⟩ := h.chain
  obtain ⟨d, hd, hp⟩ := his.not_parked_zero
  rw [hc] at hd
  cases hd
  exact hp

theorem tail_not_parked (h : t.Sound) (hc : t.heldChunk? t.tail = some c) : c.parked = false := by
  obtain ⟨d, hd, hp⟩ := h.exists_tail
  rw [hc] at hd
  cases hd
  exact hp

theorem setQueue (h : t.Sound) {queue : Fifo Nat} (live : UInt64)
    (hqueue : ∀ {i c}, t.heldChunk? i = some c → c.free ≠ [] → i ∈ queue.toList) :
    (t.setQueue queue live).Sound :=
  { h with
    fits := fun hc => (h.fits hc).congr rfl rfl (hqueue hc)
    chain := by
      obtain ⟨is, his⟩ := h.chain
      exact ⟨is, his.congr rfl fun _ => rfl⟩ }

theorem setChunk (h : t.Sound) (hc : t.heldChunk? i = some c) (hd : d.WF)
    (hplace : Chunk.SamePlace c d) (hparked : d.parked = c.parked)
    (hmark : c.nextOffset ≤ d.nextOffset) (hfree : d.free ≠ [] → i ∈ t.reusable.toList) :
    (t.setChunk i d).Sound := by
  have hget := heldChunk?_setChunk hc d
  refine
    { h with
      chunkCount_eq := h.chunkCount_eq.trans (size_setChunk t i d).symm
      size_le := (size_setChunk t i d).symm ▸ h.size_le
      fits := fun {j e} he => ?_
      mem_parked := fun j => ?_
      chain := ?_ }
  · rw [hget] at he
    split at he
    · rename_i heq
      cases he
      subst heq
      have hfits := h.fits hc
      refine ⟨hd, hplace.index.trans hfits.index, hplace.capacity.trans hfits.capacity,
        fun hp ht => ?_, hfree⟩
      have hcap := hfits.full (hparked ▸ hp) ht
      refine Nat.le_antisymm hd.nextOffset_le ?_
      rw [hplace.capacity, ← hcap]
      exact hmark
    · exact (h.fits he).congr rfl rfl (h.fits he).queued
  · show j ∈ t.parked ↔ _
    rw [h.mem_parked j, hget]
    split
    · rename_i heq
      subst heq
      simp [hc, hparked]
    · rfl
  · obtain ⟨is, his⟩ := h.chain
    refine ⟨is, his.congr rfl fun j => ?_⟩
    rw [hget]
    split
    · rename_i heq
      rw [heq, hc]
      simp [hplace.prev, hplace.next, hparked]
    · rfl

end Sound

namespace WF
variable {t : Tenant} {i : Nat} {c d : Chunk}

theorem setQueue (h : t.WF) {queue : Fifo Nat} (live : UInt64)
    (hqueue : ∀ {i c}, t.heldChunk? i = some c → c.free ≠ [] → i ∈ queue.toList) :
    (t.setQueue queue live).WF where
  toSound := h.toSound.setQueue live hqueue
  parked_of_drained := h.parked_of_drained

theorem setChunk (h : t.WF) (hc : t.heldChunk? i = some c) (hd : d.WF)
    (hplace : Chunk.SamePlace c d) (hparked : d.parked = c.parked)
    (hmark : c.nextOffset ≤ d.nextOffset) (hfree : d.free ≠ [] → i ∈ t.reusable.toList)
    (hlive : d.live = 0 → c.live = 0) : (t.setChunk i d).WF where
  toSound := h.toSound.setChunk hc hd hplace hparked hmark hfree
  parked_of_drained {j e} he h0 ht hl := by
    rw [heldChunk?_setChunk hc] at he
    split at he
    · rename_i heq
      cases he
      subst heq
      rw [hparked]
      exact h.parked_of_drained hc h0 ht (hlive hl)
    · exact h.parked_of_drained he h0 ht hl

end WF

/-- The tenant `u` is `t` with `r` at one slot. -/
structure Sets (t : Tenant) (i offset : Nat) (r : Option (Option ItemId × Option ItemId))
    (u : Tenant) : Prop where
  wf : u.WF
  id : u.id = t.id
  schema : u.schema = t.schema
  slot : ∀ j o, u.slot? j o = if j = i ∧ o = offset then r else t.slot? j o

section
variable {t u : Tenant} {i offset : Nat} {c d : Chunk}

theorem Sets.trans {v : Tenant} {r r' : Option (Option ItemId × Option ItemId)}
    (h : t.Sets i offset r u) (h' : u.Sets i offset r' v) : t.Sets i offset r' v where
  wf := h'.wf
  id := h'.id.trans h.id
  schema := h'.schema.trans h.schema
  slot j o := by
    rw [h'.slot, h.slot]
    split <;> rfl

theorem WF.sets_setChunk (h : t.WF) (hc : t.heldChunk? i = some c) (hd : d.WF)
    (hplace : Chunk.SamePlace c d) (hparked : d.parked = c.parked)
    (hmark : d.nextOffset = c.nextOffset) (hfree : d.free = c.free) (hlive : d.live = c.live)
    {r : Option (Option ItemId × Option ItemId)}
    (hcontent : ∀ o, d.content? o = if o = offset then r else c.content? o) :
    t.Sets i offset r (t.setChunk i d) where
  wf := h.setChunk hc hd hplace hparked (Nat.le_of_eq hmark.symm)
    (fun hf => h.queued hc (hfree ▸ hf))
    fun hl => hlive ▸ hl
  id := rfl
  schema := rfl
  slot := slot?_setChunk_of_content hc hcontent

end
end EntityStore.Tenant
