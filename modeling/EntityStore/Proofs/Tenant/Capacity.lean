import EntityStore.Proofs.Tenant.Census
import EntityStore.Proofs.Tenant.Turnover
import Mathlib.Algebra.Order.BigOperators.Group.List
import Mathlib.Algebra.Order.Floor.Div

/-! A tenant never has more chunks than the most slots that were ever live at once have needed. -/

namespace EntityStore

theorem Chunk.WF.live_of_full {c : Chunk} (h : c.WF)
    (hfull : ∀ offset, offset < c.capacity → c.IsLive offset) : c.live = c.capacity := by
  have hmark : c.capacity ≤ c.nextOffset := by
    by_contra hlt
    exact Nat.lt_irrefl _ (hfull c.nextOffset (Nat.lt_of_not_le hlt)).1
  have hfree : c.free = [] := by
    refine List.eq_nil_iff_forall_not_mem.2 fun o ho => ?_
    exact (hfull o (Nat.lt_of_lt_of_le (h.lt_of_mem_free o ho) h.nextOffset_le)).2 ho
  have hadd := h.live_add
  rw [hfree, List.length_nil] at hadd
  exact hadd.trans (Nat.le_antisymm h.nextOffset_le hmark)

namespace Tenant
variable {t : Tenant}

theorem exists_of_mem_map_live {n : Nat} (hn : n ∈ t.chunks.toList.map (·.live)) :
    ∃ i c, t.heldChunk? i = some c ∧ c.live = n := by
  obtain ⟨c, hc, hn⟩ := List.mem_map.1 hn
  obtain ⟨i, hi⟩ := List.mem_iff_getElem?.1 hc
  exact ⟨i, c, by rw [heldChunk?, ← Array.getElem?_toList, hi], hn⟩

theorem WF.liveCount_le (h : t.WF) : t.liveCount ≤ t.chunks.size * t.schema.capacity := by
  have hle : ∀ n ∈ t.chunks.toList.map (·.live), n ≤ t.schema.capacity := by
    intro n hn
    obtain ⟨i, c, hc, rfl⟩ := exists_of_mem_map_live hn
    exact h.chunk_capacity hc ▸ (h.chunk_wf hc).live_le
  have hsum := List.sum_le_card_nsmul _ _ hle
  rwa [List.length_map, Array.length_toList, smul_eq_mul] at hsum

theorem WF.liveCount_of_full (h : t.WF) (hfull : t.Full) :
    t.liveCount = t.chunks.size * t.schema.capacity := by
  have heq : ∀ n ∈ t.chunks.toList.map (·.live), n = t.schema.capacity := by
    intro n hn
    obtain ⟨i, c, hc, rfl⟩ := exists_of_mem_map_live hn
    exact h.chunk_capacity hc ▸ (h.chunk_wf hc).live_of_full (hfull hc)
  have hsum := List.sum_eq_card_nsmul _ _ heq
  rwa [List.length_map, Array.length_toList, smul_eq_mul] at hsum

theorem WF.isSome_ledger_of_full (h : t.WF) (hfull : t.Full)
    (hsize : t.chunks.size = t.schema.maxChunks) {id : UInt32}
    (hid : IdSchema.isDetached id = false) : (t.ledger id).isSome := by
  have hi := t.schema.decode_fst_lt id
  rw [← hsize] at hi
  have hc : t.heldChunk? (t.schema.decode id).1 = some t.chunks[(t.schema.decode id).1] :=
    Array.getElem?_eq_getElem hi
  have hlive := hfull hc (t.schema.decode id).2 (h.chunk_capacity hc ▸ t.schema.decode_snd_lt id)
  rw [t.ledger_of_not_isDetached hid, slot?_eq hc, Chunk.content?_of_isLive hlive]
  rfl

end Tenant

namespace Store
variable {s : Store}

/-- The most slots that were live at once in the states of a run. -/
def peak (s : Store) : List Op → Nat
  | [] => s.tenant.liveCount
  | op :: ops => max s.tenant.liveCount ((s.step op).1.peak ops)

theorem peak_concat (s : Store) (ops : List Op) (op : Op) :
    s.peak (ops ++ [op]) = max (s.peak ops) (s.run (ops ++ [op])).tenant.liveCount := by
  induction ops generalizing s with
  | nil => rfl
  | cons op' ops ih =>
    rw [List.cons_append, peak, peak, ih, max_assoc]
    rfl

theorem liveCount_step_of_taken (h : s.tenant.WF) {op : Op} {id : UInt32}
    (ha : (s.step op).2 = .taken (.ok id)) :
    (s.step op).1.tenant.liveCount = s.tenant.liveCount + 1 := by
  obtain ⟨m, hstep, hb⟩ := step_becomes h op
  rw [ha] at hstep
  cases hstep with
  | nextId hid hm => exact hb.liveCount_add_one h (IdSchema.not_isDetached_of_toNat_lt hid) hm
  | register hid hm => exact hb.liveCount_add_one h (IdSchema.not_isDetached_of_toNat_lt hid) hm

/-- The chunks of a tenant are as many as `peak` slots need, or it has only the first one. -/
structure Fitted (t : Tenant) (peak : Nat) : Prop where
  wf : t.WF
  peak_le : peak ≤ t.chunks.size * t.schema.capacity
  lt_peak : ∀ n, t.chunks.size = n + 2 → (n + 1) * t.schema.capacity < peak

theorem Fitted.step {p : Nat} (h : Fitted s.tenant p) (op : Op) :
    Fitted (s.step op).1.tenant (max p (s.step op).1.tenant.liveCount) := by
  obtain ⟨m, -, hb⟩ := step_becomes h.wf op
  have hle := hb.wf.liveCount_le
  have hschema : (s.step op).1.tenant.schema = s.tenant.schema := hb.schema
  have hkeep (hsize : (s.step op).1.tenant.chunks.size = s.tenant.chunks.size) :
      Fitted (s.step op).1.tenant (max p (s.step op).1.tenant.liveCount) := by
    refine ⟨hb.wf, ?_, ?_⟩
    · rw [hsize, hschema] at hle ⊢
      exact max_le h.peak_le hle
    · intro n hn
      rw [hschema]
      exact lt_max_of_lt_left (h.lt_peak n (hsize.symm.trans hn))
  cases step_reshapes h.wf op with
  | keeps hparked hsize => exact hkeep hsize
  | parks hparked hsize => exact hkeep hsize
  | relinks hparked hsize => exact hkeep hsize
  | creates hparked hsize hfull =>
    obtain ⟨id, ha⟩ := (size_step_or_taken h.wf op).resolve_left (by omega)
    have hlive := liveCount_step_of_taken h.wf ha
    -- All slots were live and one more is now, so this is the peak and needs the new chunk.
    rw [h.wf.liveCount_of_full hfull] at hlive
    refine ⟨hb.wf, ?_, ?_⟩
    · have hmono : s.tenant.chunks.size * s.tenant.schema.capacity ≤
          (s.step op).1.tenant.chunks.size * (s.step op).1.tenant.schema.capacity := by
        rw [hschema, hsize]
        exact Nat.mul_le_mul_right _ (Nat.le_succ _)
      exact max_le (h.peak_le.trans hmono) hle
    · intro n hn
      have hn : s.tenant.chunks.size = n + 1 := Nat.succ.inj (hsize.symm.trans hn)
      rw [hschema, ← hn, hlive]
      exact lt_max_of_lt_right (Nat.lt_succ_self _)

theorem fitted_run (id : UInt32) (schema : IdSchema) (items : Items) (ops : List Op) :
    Fitted ((create id schema items).run ops).tenant ((create id schema items).peak ops) := by
  induction ops using List.reverseRecOn with
  | nil =>
    have hwf := Tenant.wf_create id schema
    refine ⟨hwf, hwf.liveCount_le, fun n hn => ?_⟩
    have hn : 1 = n + 2 := hn
    omega
  | append_singleton ops op ih =>
    rw [peak_concat, run_append]
    exact ih.step op

theorem Fitted.chunkCount_eq {t : Tenant} {p : Nat} (h : Fitted t p) :
    t.chunkCount = max 1 (p ⌈/⌉ t.schema.capacity) := by
  have hpos := t.schema.capacity_pos
  have hle : p ⌈/⌉ t.schema.capacity ≤ t.chunks.size := by
    rw [ceilDiv_le_iff_le_mul hpos, Nat.mul_comm]
    exact h.peak_le
  obtain ⟨c, hc, -⟩ := h.wf.exists_tail
  have hsize := Tenant.lt_of_heldChunk? hc
  rw [h.wf.chunkCount_eq]
  refine Nat.le_antisymm ?_ (max_le (Nat.lt_of_le_of_lt (Nat.zero_le _) hsize) hle)
  cases hn : t.chunks.size with
  | zero => exact Nat.zero_le _
  | succ n =>
    cases n with
    | zero => exact Nat.le_max_left ..
    | succ n =>
      refine le_max_of_le_right (Nat.lt_of_not_le fun hceil => ?_)
      rw [ceilDiv_le_iff_le_mul hpos, Nat.mul_comm] at hceil
      exact Nat.not_le.2 (h.lt_peak n hn) hceil

/-- The number of chunks is the least that could hold the slots live at the worst moment so far. A
chunk is made only when every slot of every other is live, and slots run out only when every slot
that has an identifier is live. -/
structure Optimal (s : Store) (peak : Nat) : Prop where
  chunkCount : s.tenant.chunkCount = max 1 (peak ⌈/⌉ s.tenant.schema.capacity)
  created : ∀ op, (s.step op).1.tenant.chunkCount = s.tenant.chunkCount ∨ s.tenant.Full
  exhausted : ∀ op e, (s.step op).2 = .taken (.error e) →
    e = .exhausted s.tenant.schema.maxChunks ∧ s.tenant.liveCount = IdSchema.detachedBit ∧
      ∀ id, IdSchema.isDetached id = false → (s.tenant.ledger id).isSome

theorem Fitted.optimal {p : Nat} (h : Fitted s.tenant p) : s.Optimal p where
  chunkCount := h.chunkCount_eq
  created op := by
    obtain ⟨m, -, hb⟩ := step_becomes h.wf op
    rw [hb.wf.chunkCount_eq, h.wf.chunkCount_eq]
    cases step_reshapes h.wf op with
    | keeps hparked hsize => exact .inl hsize
    | parks hparked hsize => exact .inl hsize
    | relinks hparked hsize => exact .inl hsize
    | creates hparked hsize hfull => exact .inr hfull
  exhausted op e he := by
    obtain ⟨rfl, hfull, hsize⟩ := full_of_step_error h.wf he
    refine ⟨rfl, ?_, fun id => h.wf.isSome_ledger_of_full hfull hsize⟩
    rw [h.wf.liveCount_of_full hfull, hsize, IdSchema.maxChunks_mul_capacity]

theorem optimal_of_run (id : UInt32) (schema : IdSchema) (items : Items) (ops : List Op) :
    ((create id schema items).run ops).Optimal ((create id schema items).peak ops) :=
  (fitted_run id schema items ops).optimal

end Store
end EntityStore
