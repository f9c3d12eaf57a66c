import EntityStore.Proofs.Chunk.Operations
import EntityStore.Tenant.Basic

/-! Chunks inside a tenant. Whatever is done to one chunk replaces it and leaves the others. -/

namespace EntityStore.Tenant
variable {t : Tenant} {i : Nat} {c : Chunk}

def setChunk (t : Tenant) (i : Nat) (c : Chunk) : Tenant :=
  { t with chunks := t.chunks.setIfInBounds i c }

def setQueue (t : Tenant) (queue : Fifo Nat) (live : UInt64) : Tenant :=
  { t with reusable := queue, live }

/-- What is registered at a live slot. -/
def slot? (t : Tenant) (i offset : Nat) : Option (Option ItemId × Option ItemId) :=
  (t.heldChunk? i).bind (·.content? offset)

theorem lt_of_heldChunk? (h : t.heldChunk? i = some c) : i < t.chunks.size :=
  (Array.getElem?_eq_some_iff.1 h).1

theorem heldChunk?_eq_none_iff : t.heldChunk? i = none ↔ t.chunks.size ≤ i :=
  Array.getElem?_eq_none_iff

theorem chunk?_eq (h : t.closed = false) (i : Nat) : t.chunk? i = t.heldChunk? i := by
  simp [chunk?, h]

theorem heldChunk?_setChunk (h : t.heldChunk? i = some c) (d : Chunk) (j : Nat) :
    (t.setChunk i d).heldChunk? j = if j = i then some d else t.heldChunk? j := by
  have hi := lt_of_heldChunk? h
  unfold heldChunk? setChunk
  rw [Array.getElem?_setIfInBounds]
  by_cases hij : i = j
  · subst hij
    rw [if_pos rfl, if_pos rfl, if_pos hi]
  · rw [if_neg hij, if_neg (Ne.symm hij)]

@[simp] theorem size_setChunk (t : Tenant) (i : Nat) (c : Chunk) :
    (t.setChunk i c).chunks.size = t.chunks.size :=
  Array.size_setIfInBounds

theorem setChunk_self (h : t.heldChunk? i = some c) : t.setChunk i c = t := by
  obtain ⟨hi, hc⟩ := Array.getElem?_eq_some_iff.1 h
  unfold setChunk
  rw [← hc, Array.setIfInBounds_def, dif_pos hi, Array.set_getElem_self]

theorem slot?_eq (h : t.heldChunk? i = some c) (offset : Nat) :
    t.slot? i offset = c.content? offset := by
  simp [slot?, h]

theorem slot?_setChunk (h : t.heldChunk? i = some c) (d : Chunk) (j offset : Nat) :
    (t.setChunk i d).slot? j offset = if j = i then d.content? offset else t.slot? j offset := by
  unfold slot?
  rw [heldChunk?_setChunk h]
  split <;> rfl

theorem slot?_setChunk_of_content {d : Chunk} (h : t.heldChunk? i = some c) {offset : Nat}
    {r : Option (Option ItemId × Option ItemId)}
    (hd : ∀ o, d.content? o = if o = offset then r else c.content? o) (j o : Nat) :
    (t.setChunk i d).slot? j o = if j = i ∧ o = offset then r else t.slot? j o := by
  rw [slot?_setChunk h]
  by_cases hj : j = i
  · subst hj
    rw [if_pos rfl, hd, slot?_eq h]
    simp only [true_and]
  · rw [if_neg hj, if_neg fun hjo => hj hjo.1]

section
variable {ρ : Type}

theorem onHeldChunk_eq (h : t.heldChunk? i = some c) (f : Chunk → ρ × Chunk) :
    t.onHeldChunk i f = (some (f c).1, t.setChunk i (f c).2) := by
  obtain ⟨hi, hc⟩ := Array.getElem?_eq_some_iff.1 h
  have hset (d : Chunk) :
      (t.chunks.set i default hi).setIfInBounds i d = t.chunks.setIfInBounds i d := by
    simp [Array.setIfInBounds, hi]
  unfold onHeldChunk takeChunk
  rw [dif_pos hi]
  simp only [Array.swapAt_def, hc, hset]
  rfl

theorem onHeldChunk_of_none (h : t.heldChunk? i = none) (f : Chunk → ρ × Chunk) :
    t.onHeldChunk i f = (none, t) := by
  have hi := heldChunk?_eq_none_iff.1 h
  unfold onHeldChunk
  rw [dif_neg (Nat.not_lt.2 hi)]

theorem onChunk_eq (ho : t.closed = false) (h : t.heldChunk? i = some c)
    (f : Chunk → ρ × Chunk) :
    t.onChunk i f = (some (f c).1, t.setChunk i (f c).2) := by
  unfold onChunk
  rw [if_neg (by simp [ho]), onHeldChunk_eq h]

theorem onChunk_of_none (h : t.heldChunk? i = none) (f : Chunk → ρ × Chunk) :
    t.onChunk i f = (none, t) := by
  unfold onChunk
  split
  · rfl
  · exact onHeldChunk_of_none h f

theorem exists_of_onChunk_eq_some {u : Tenant} {r : ρ} {f : Chunk → ρ × Chunk}
    (ho : t.closed = false) (h : t.onChunk i f = (some r, u)) :
    ∃ c d, t.heldChunk? i = some c ∧ f c = (r, d) ∧ u = t.setChunk i d := by
  cases hc : t.heldChunk? i with
  | none =>
    rw [onChunk_of_none hc] at h
    cases h
  | some c =>
    rw [onChunk_eq ho hc] at h
    cases h
    exact ⟨c, (f c).2, rfl, rfl, rfl⟩

end

/-- The tenant `u` is `t` with other chunks in their places. -/
def OnlyChunks (t u : Tenant) : Prop :=
  ∃ chunks, chunks.size = t.chunks.size ∧ u = { t with chunks }

section
variable {u v : Tenant}

@[simp] theorem OnlyChunks.refl (t : Tenant) : t.OnlyChunks t := ⟨t.chunks, rfl, rfl⟩

theorem OnlyChunks.trans (h : t.OnlyChunks u) (h' : u.OnlyChunks v) : t.OnlyChunks v := by
  obtain ⟨chunks, hs, rfl⟩ := h
  obtain ⟨chunks', hs', rfl⟩ := h'
  exact ⟨chunks', hs'.trans hs, rfl⟩

theorem onlyChunks_onHeldChunk {ρ : Type} (t : Tenant) (i : Nat) (f : Chunk → ρ × Chunk) :
    t.OnlyChunks (t.onHeldChunk i f).2 := by
  unfold onHeldChunk
  split
  · exact ⟨_, by simp [takeChunk, Array.swapAt], rfl⟩
  · exact .refl t

theorem onlyChunks_onChunk {ρ : Type} (t : Tenant) (i : Nat) (f : Chunk → ρ × Chunk) :
    t.OnlyChunks (t.onChunk i f).2 := by
  unfold onChunk
  split
  · exact .refl t
  · exact t.onlyChunks_onHeldChunk i f

end

theorem modifyHeldChunk_eq (h : t.heldChunk? i = some c) (f : Chunk → Chunk) :
    t.modifyHeldChunk i f = t.setChunk i (f c) := by
  unfold modifyHeldChunk
  rw [onHeldChunk_eq h]

theorem modifyChunk_eq (ho : t.closed = false) (h : t.heldChunk? i = some c)
    (f : Chunk → Chunk) : t.modifyChunk i f = t.setChunk i (f c) := by
  unfold modifyChunk
  rw [onChunk_eq ho h]

/-- The item that is registered at a slot, whether the tenant is open or not. -/
def itemAt? (t : Tenant) (slot : Nat × Nat) : Option ItemId :=
  (t.heldChunk? slot.1).bind (·.item? slot.2)

section
variable {id : UInt32} {x : ItemId}

theorem isOpen_of_get? (h : t.get? id = some x) : t.closed = false := by
  cases hc : t.closed with
  | false => rfl
  | true => simp [get?, chunk?, hc] at h

theorem itemAt?_of_get? (h : t.get? id = some x) : t.itemAt? (t.schema.decode id) = some x := by
  obtain ⟨slot, ha, hs⟩ := Option.bind_eq_some_iff.1 h
  unfold address? at ha
  split at ha
  · cases ha
  · cases ha
    simpa only [itemAt?, chunk?_eq (isOpen_of_get? h)] using hs

end
end EntityStore.Tenant
