import EntityStore.Proofs.Tenant.Capacity
import EntityStore.Proofs.Tenant.Listing

/-! What a tenant counts itself. It counts the slots taken through it and every slot freed, but not
the slots that who holds a chunk takes there directly, so it stays behind the chunks by one for each
of those. -/

namespace EntityStore
namespace Tenant
variable {t u : Tenant} {i : Nat} {id : UInt32}

/-! ### The tenant's own count -/

theorem OnlyChunks.live (h : t.OnlyChunks u) : u.live = t.live := h.onlyChain.live

theorem live_reuse (t : Tenant) :
    t.reuse.2.live = if t.reuse.1.isSome then t.live + 1 else t.live := by
  fun_induction reuse t with
  | case1 t hq => rfl
  | case2 t i rest hq offset more u hu =>
    have hlive := (onlyChain_of_onChunk hu).live
    exact congrArg (· + 1) hlive
  | case3 t i rest hq r u hr hu ih =>
    have hlive := (onlyChain_of_onChunk hu).live
    rw [ih, hlive]

theorem live_extend (log : List Event) (t : Tenant) : (t.extend log).state.live =
    if (t.extend log).result.isOk then t.live + 1 else t.live := by
  obtain ⟨u, hu, hstate⟩ := t.exists_onlyChain_extend log
  rw [hstate, ← hu.live]

theorem live_allocate (t : Tenant) : t.allocate.state.live =
    if t.allocate.result.isOk then t.live + 1 else t.live := by
  have hreuse := t.live_reuse
  unfold allocate
  split
  · rfl
  · split
    · rename_i hr
      rw [hr] at hreuse
      exact hreuse
    · rename_i u hr
      rw [hr] at hreuse
      have hreuse : u.live = t.live := hreuse
      rw [← hreuse]
      exact live_extend [] u

theorem live_nextId (t : Tenant) : t.nextId.state.live =
    if t.nextId.result.isOk then t.live + 1 else t.live := by
  have hlive := t.live_allocate
  unfold nextId Outcome.map
  cases hr : t.allocate.result <;> rw [hr] at hlive <;> exact hlive

theorem live_register (t : Tenant) (items : Items) (item : ItemId) (stateItem : Option ItemId) :
    (t.register items item stateItem).state.1.live =
      if (t.register items item stateItem).result.isOk then t.live + 1 else t.live := by
  have hlive := t.live_allocate
  unfold register
  split
  · rename_i u e log hu
    rw [hu] at hlive
    exact hlive
  · rename_i u i offset log hu
    rw [hu] at hlive
    refine Eq.trans ?_ hlive
    cases stateItem with
    | none => exact (u.onlyChunks_onHeldChunk i _).live
    | some s => exact ((u.onlyChunks_onHeldChunk i _).trans (onlyChunks_onHeldChunk _ i _)).live

theorem live_freeId (t : Tenant) (items : Items) (id : UInt32) :
    (t.freeId items id).state.1.live =
      if (t.freeId items id).result.isOk then t.live - 1 else t.live := by
  unfold freeId
  split
  · rfl
  · split
    · rfl
    · cases hu : t.onChunk (t.schema.decode id).1 (·.release (t.schema.decode id).2) with
      | mk r u =>
        have hlive := (onlyChain_of_onChunk hu).live
        rcases r with _ | e | freed <;> simp only [hu]
        · exact hlive
        · exact hlive
        · have hlive : u.live - 1 = t.live - 1 := congrArg (· - 1) hlive
          cases freed.drained <;> cases freed.reopened
          · exact hlive
          · exact hlive
          · exact (onlyChain_reclaim ..).live.trans hlive
          · exact (onlyChain_reclaim ..).live.trans hlive

theorem live_freeItem (t : Tenant) (items : Items) (item : ItemId) :
    (t.freeItem items item).state.1.live =
      if (t.freeItem items item).result.isOk then t.live - 1 else t.live := by
  unfold freeItem
  dsimp only
  split
  · exact t.live_freeId items _
  · rfl

/-! ### Both counts -/

theorem Becomes.liveCount_eq (h : t.WF) (hb : t.Becomes t.ledger u) :
    u.liveCount = t.liveCount := by
  rw [← hb.wf.card_slots, ← h.card_slots, hb.ledger, hb.schema]

theorem Becomes.liveCount_sub_one (h : t.WF) {r : Option ItemId × Option ItemId}
    (hb : t.Becomes (Function.update t.ledger id none) u) (hm : t.ledger id = some r) :
    t.liveCount = u.liveCount + 1 := by
  have hid : IdSchema.isDetached id = false := by
    by_contra hd
    rw [t.ledger_of_isDetached (by simpa using hd)] at hm
    cases hm
  -- Seen backwards, what was freed is taken again.
  have hback : u.Becomes (Function.update u.ledger id (some r)) t := by
    refine ⟨h, hb.id.symm, hb.schema.symm, ?_⟩
    rw [hb.ledger, Function.update_idem, ← hm, Function.update_eq_self]
  refine hback.liveCount_add_one hb.wf hid ?_
  rw [hb.ledger, Function.update_self]

end Tenant

namespace Store
variable {s : Store} {d : Nat}

/-- The tenant's own count after a call with this answer. -/
def Answer.tally (live : UInt64) : Answer → UInt64
  | .taken (.ok _) => live + 1
  | .freed _ (.ok _) => live - 1
  | _ => live

/-- Whether a slot was taken of a chunk directly. -/
def Answer.direct : Answer → Nat
  | .offset (some _) => 1
  | _ => 0

def direct (s : Store) : List Op → Nat
  | [] => 0
  | op :: ops => (s.step op).2.direct + (s.step op).1.direct ops

theorem live_step (s : Store) (op : Op) :
    (s.step op).1.tenant.live = (s.step op).2.tally s.tenant.live := by
  have htaken (r : Except PoolError UInt32) (live : UInt64) :
      (if r.isOk then live + 1 else live) = (Answer.taken r).tally live := by
    cases r <;> rfl
  have hfreed (id : UInt32) (r : Except PoolError (Option ItemId)) (live : UInt64) :
      (if r.isOk then live - 1 else live) = (Answer.freed id r).tally live := by
    cases r <;> rfl
  cases op with
  | nextId => exact s.tenant.live_nextId.trans (htaken ..)
  | register item stateItem => exact (s.tenant.live_register ..).trans (htaken ..)
  | freeId id => exact (s.tenant.live_freeId ..).trans (hfreed ..)
  | freeItem item => exact (s.tenant.live_freeItem ..).trans (hfreed ..)
  | allocateIn chunk =>
    have hlive := (s.tenant.onlyChunks_onHeldChunk chunk Chunk.allocate).live
    simp only [step]
    cases (s.tenant.allocateIn chunk).result <;> exact hlive
  | setHeaders items => rfl

/-- A tenant that has missed `d` of the slots that its chunks count. -/
def Behind (t : Tenant) (d : Nat) : Prop := t.live + .ofNat d = .ofNat t.liveCount

theorem behind_of_taken {t u : Tenant} (hd : Behind t d) (hlive : u.live = t.live + 1)
    (hcount : u.liveCount = t.liveCount + 1) : Behind u d := by
  unfold Behind at hd ⊢
  rw [hlive, hcount, UInt64.ofNat_add, ← hd]
  grind

theorem behind_of_freed {t u : Tenant} (hd : Behind t d) (hlive : u.live = t.live - 1)
    (hcount : t.liveCount = u.liveCount + 1) : Behind u d := by
  unfold Behind at hd ⊢
  rw [hcount, UInt64.ofNat_add] at hd
  rw [hlive]
  grind

theorem behind_of_direct {t u : Tenant} (hd : Behind t d) (hlive : u.live = t.live)
    (hcount : u.liveCount = t.liveCount + 1) : Behind u (d + 1) := by
  unfold Behind at hd ⊢
  rw [hlive, hcount, UInt64.ofNat_add, UInt64.ofNat_add, ← hd]
  grind

theorem behind_of_refused {t u : Tenant} (hd : Behind t d) (hlive : u.live = t.live)
    (hcount : u.liveCount = t.liveCount) : Behind u d := by
  unfold Behind at hd ⊢
  rw [hlive, hcount, hd]

theorem behind_step (h : s.tenant.WF) (hd : Behind s.tenant d) (op : Op) :
    Behind (s.step op).1.tenant (d + (s.step op).2.direct) := by
  obtain ⟨m, hstep, hb⟩ := step_becomes h op
  have hlive := s.live_step op
  generalize (s.step op).2 = answer at hstep hlive
  cases hstep with
  | nextId hid hm =>
    have hcount := hb.liveCount_add_one h (IdSchema.not_isDetached_of_toNat_lt hid) hm
    exact behind_of_taken hd hlive hcount
  | register hid hm =>
    have hcount := hb.liveCount_add_one h (IdSchema.not_isDetached_of_toNat_lt hid) hm
    exact behind_of_taken hd hlive hcount
  | allocateIn hm =>
    have hcount := hb.liveCount_add_one h (s.tenant.schema.isDetached_encode ..) hm
    exact behind_of_direct hd hlive hcount
  | freeId hm => exact behind_of_freed hd hlive (hb.liveCount_sub_one h hm)
  | freeItem hm => exact behind_of_freed hd hlive (hb.liveCount_sub_one h hm)
  | nextIdRefused => exact behind_of_refused hd hlive (hb.liveCount_eq h)
  | registerRefused => exact behind_of_refused hd hlive (hb.liveCount_eq h)
  | freeIdRefused => exact behind_of_refused hd hlive (hb.liveCount_eq h)
  | freeItemRefused => exact behind_of_refused hd hlive (hb.liveCount_eq h)
  | allocateInRefused => exact behind_of_refused hd hlive (hb.liveCount_eq h)
  | setHeaders => exact behind_of_refused hd hlive (hb.liveCount_eq h)

theorem behind_run (h : s.tenant.WF) (hd : Behind s.tenant d) (ops : List Op) :
    Behind (s.run ops).tenant (d + s.direct ops) := by
  induction ops generalizing s d with
  | nil => exact hd
  | cons op ops ih =>
    rw [direct, ← Nat.add_assoc]
    exact ih (wf_run h [op]) (behind_step h hd op)

/-- The tenant's own count and those of its chunks, when `direct` slots were taken of chunks
directly. A pass finds what the chunks count. Unless there were such slots, the tenant counts the
same. -/
structure Accounted (t : Tenant) (direct : Nat) : Prop where
  live : t.live = .ofNat t.liveCount - .ofNat direct
  length_draw : ∀ count, (draw (IdPass.next · t) count {}).length = min count t.liveCount
  chunk : ∀ {i c}, t.chunk? i = some c → c.live + c.free.length = c.highWater
  toNat_live : direct = 0 → t.live.toNat = t.liveCount

theorem Behind.accounted {t : Tenant} (hd : Behind t d) (h : t.WF) : Accounted t d where
  live := by
    rw [← show t.live + .ofNat d = .ofNat t.liveCount from hd]
    grind
  length_draw count := by rw [IdPass.draw_next h, List.length_take, h.length_positions]
  chunk {i c} hc := by
    rw [Tenant.chunk?_eq h.isOpen] at hc
    rw [(h.chunk_wf hc).highWater_eq, (h.chunk_wf hc).live_add]
  toNat_live hzero := by
    -- A tenant has no more slots than it has identifiers, so the number of the live ones fits.
    have hle : t.liveCount ≤ IdSchema.detachedBit := by
      rw [← t.schema.maxChunks_mul_capacity]
      exact h.liveCount_le.trans (Nat.mul_le_mul_right _ h.size_le)
    have hlive : t.live + .ofNat d = .ofNat t.liveCount := hd
    rw [hzero] at hlive
    rw [(UInt64.add_zero _).symm.trans hlive]
    exact UInt64.toNat_ofNat_of_lt' (Nat.lt_of_le_of_lt hle (by decide))

/-- In every state that an open tenant can reach, its own count differs from those of its chunks by
the number of slots that were taken of them directly. -/
theorem accounted_of_run (id : UInt32) (schema : IdSchema) (items : Items) (ops : List Op) :
    Accounted ((create id schema items).run ops).tenant ((create id schema items).direct ops) := by
  have hwf := Tenant.wf_create id schema
  have hstart : Behind (create id schema items).tenant 0 := rfl
  have hd := behind_run hwf hstart ops
  rw [Nat.zero_add] at hd
  exact hd.accounted (wf_run hwf ops)

end Store
end EntityStore
