import EntityStore.Proofs.Tenant.Turnover
import EntityStore.Tenant.Batch
import Mathlib.Data.List.Induction

/-! Which slot is handed out next. The vacant ones come first, whatever chunk they are in, and each
of them once; then those that were never handed out, in the order in which the chain grows. -/

namespace EntityStore

theorem perm_flatMap_set {α β : Type} {f : α → List β} {a b : α} {y : β} (hf : f a = y :: f b)
    {xs : List α} {i : Nat} (hi : xs[i]? = some a) :
    (xs.flatMap f).Perm (y :: (xs.set i b).flatMap f) := by
  induction xs generalizing i with
  | nil => cases hi
  | cons x xs ih =>
    cases i with
    | zero =>
      obtain rfl : x = a := Option.some.inj hi
      rw [List.set_cons_zero, List.flatMap_cons, List.flatMap_cons, hf]
      rfl
    | succ i =>
      rw [List.set_cons_succ, List.flatMap_cons, List.flatMap_cons]
      exact ((ih hi).append_left (f x)).trans List.perm_middle

namespace Tenant

/-- The identifiers on the stacks of vacant slots. -/
def vacantIds (t : Tenant) : List UInt32 :=
  t.chunks.toList.flatMap fun c => c.free.map (t.schema.encode c.index)

/-- The chain, its chunks and how far they are used are the same in `u` as in `t`. -/
structure SameChain (t u : Tenant) : Prop where
  schema : u.schema = t.schema
  chunkCount : u.chunkCount = t.chunkCount
  tail : u.tail = t.tail
  current : u.current = t.current
  parked : u.parked = t.parked
  chunk? : ∀ i, (u.chunk? i).map (fun c => (c.highWater, c.prev, c.next, c.parked)) =
    (t.chunk? i).map fun c => (c.highWater, c.prev, c.next, c.parked)

/-- The identifier that is handed out when no slot is vacant and `mark` slots of the tail have been
handed out. -/
def freshId (t : Tenant) (mark : Nat) : Except PoolError UInt32 :=
  if mark < t.schema.capacity then .ok (t.schema.encode t.tail mark)
  else match t.parked with
    | i :: _ => .ok (t.schema.encode i 0)
    | [] =>
      if t.chunkCount < t.schema.maxChunks then .ok (t.schema.encode t.chunkCount 0)
      else .error (.exhausted t.schema.maxChunks)

section
variable {t u v : Tenant} {i offset : Nat} {c d : Chunk}

theorem SameChain.refl (t : Tenant) : t.SameChain t := ⟨rfl, rfl, rfl, rfl, rfl, fun _ => rfl⟩

theorem SameChain.trans (h : t.SameChain u) (h' : u.SameChain v) : t.SameChain v where
  schema := h'.schema.trans h.schema
  chunkCount := h'.chunkCount.trans h.chunkCount
  tail := h'.tail.trans h.tail
  current := h'.current.trans h.current
  parked := h'.parked.trans h.parked
  chunk? i := (h'.chunk? i).trans (h.chunk? i)

theorem SameChain.freshId (h : t.SameChain u) (mark : Nat) : u.freshId mark = t.freshId mark := by
  unfold Tenant.freshId
  rw [h.schema, h.tail, h.parked, h.chunkCount]

theorem mem_vacantIds {id : UInt32} : id ∈ t.vacantIds ↔
    ∃ i c, t.heldChunk? i = some c ∧ ∃ offset ∈ c.free, t.schema.encode c.index offset = id := by
  simp only [vacantIds, List.mem_flatMap, List.mem_map]
  constructor
  · rintro ⟨c, hc, hid⟩
    obtain ⟨i, hi⟩ := List.mem_iff_getElem?.1 hc
    exact ⟨i, c, by rw [heldChunk?, ← Array.getElem?_toList, hi], hid⟩
  · rintro ⟨i, c, hc, hid⟩
    exact ⟨c, Array.mem_toList_iff.2 (Array.mem_of_getElem? hc), hid⟩

theorem vacantIds_eq_nil_iff :
    t.vacantIds = [] ↔ ∀ i c, t.heldChunk? i = some c → c.free = [] := by
  rw [List.eq_nil_iff_forall_not_mem]
  constructor
  · intro h i c hc
    refine List.eq_nil_iff_forall_not_mem.2 fun o ho => ?_
    exact h _ (mem_vacantIds.2 ⟨i, c, hc, o, ho, rfl⟩)
  · intro h id hid
    obtain ⟨i, c, hc, o, ho, -⟩ := mem_vacantIds.1 hid
    rw [h i c hc] at ho
    cases ho

theorem WF.decode_vacant (h : t.WF) (hc : t.heldChunk? i = some c) (ho : offset ∈ c.free) :
    t.schema.decode (t.schema.encode c.index offset) = (i, offset) := by
  have hcw := h.chunk_wf hc
  have hi : i < t.schema.maxChunks := Nat.lt_of_lt_of_le (lt_of_heldChunk? hc) h.size_le
  have hlt : offset < t.schema.capacity :=
    h.chunk_capacity hc ▸ Nat.lt_of_lt_of_le (hcw.lt_of_mem_free offset ho) hcw.nextOffset_le
  rw [(h.fits hc).index, t.schema.decode_encode hi hlt]

theorem WF.nodup_vacantIds (h : t.WF) : t.vacantIds.Nodup := by
  have hget {j : Nat} (hj : j < t.chunks.toList.length) :
      t.heldChunk? j = some t.chunks.toList[j] := by
    rw [heldChunk?, ← Array.getElem?_toList, List.getElem?_eq_getElem hj]
  refine List.nodup_flatMap.2 ⟨fun c hc => ?_, List.pairwise_iff_getElem.2 ?_⟩
  · obtain ⟨j, hj, rfl⟩ := List.mem_iff_getElem.1 hc
    refine List.Nodup.map_on (fun o ho o' ho' heq => ?_) (h.chunk_wf (hget hj)).nodup_free
    have hdecode := congrArg t.schema.decode heq
    rw [h.decode_vacant (hget hj) ho, h.decode_vacant (hget hj) ho'] at hdecode
    exact (Prod.mk.inj hdecode).2
  · intro j k hj hk hlt id hid hid'
    obtain ⟨o, ho, rfl⟩ := List.mem_map.1 hid
    obtain ⟨o', ho', heq⟩ := List.mem_map.1 hid'
    have hdecode := congrArg t.schema.decode heq
    rw [h.decode_vacant (hget hk) ho', h.decode_vacant (hget hj) ho] at hdecode
    exact Nat.ne_of_lt hlt (Prod.mk.inj hdecode).1.symm

theorem WF.vacantIds_perm (h : t.WF) (hc : t.heldChunk? i = some c) (hd : c.Takes offset d)
    (hf : c.free ≠ []) (queue : Fifo Nat) (live : UInt64) :
    t.vacantIds.Perm
      (t.schema.encode i offset :: ((t.setChunk i d).setQueue queue live).vacantIds) := by
  obtain ⟨hfree, -⟩ := (h.chunk_wf hc).vacant_of_takes hd hf
  have hstack : c.free.map (t.schema.encode c.index) =
      t.schema.encode i offset :: d.free.map (t.schema.encode d.index) := by
    rw [hfree, List.map_cons, hd.place.index, (h.fits hc).index]
  have hi : t.chunks.toList[i]? = some c := by rw [Array.getElem?_toList]; exact hc
  have hperm := perm_flatMap_set (f := fun c => c.free.map (t.schema.encode c.index)) hstack hi
  rwa [← Array.toList_setIfInBounds] at hperm

theorem WF.sameChain_takes (h : t.WF) (hc : t.heldChunk? i = some c) (hd : c.Takes offset d)
    (hf : c.free ≠ []) (queue : Fifo Nat) (live : UInt64) :
    t.SameChain ((t.setChunk i d).setQueue queue live) where
  schema := rfl
  chunkCount := rfl
  tail := rfl
  current := rfl
  parked := rfl
  chunk? j := by
    have ho : ((t.setChunk i d).setQueue queue live).closed = false := h.isOpen
    have hget : ((t.setChunk i d).setQueue queue live).heldChunk? j = _ :=
      heldChunk?_setChunk hc d j
    rw [chunk?_eq ho, chunk?_eq h.isOpen, hget]
    split
    · rename_i hj
      obtain ⟨-, hmark⟩ := (h.chunk_wf hc).vacant_of_takes hd hf
      have hwater : d.highWater = c.highWater := by
        rw [hd.wf.highWater_eq, (h.chunk_wf hc).highWater_eq, hmark]
      have hparked : d.parked = c.parked := hd.parked.trans hd.parked_before.symm
      rw [hj, hc, Option.map_some, Option.map_some, hwater, hd.place.prev, hd.place.next, hparked]
    · rfl

theorem WF.nextId_of_vacant (h : t.WF) (hv : t.vacantIds ≠ []) :
    ∃ id u, t.nextId = ⟨u, .ok id, []⟩ ∧ u.WF ∧ t.SameChain u ∧
      t.vacantIds.Perm (id :: u.vacantIds) := by
  rcases h.reuse_cases with ⟨i, offset, c, d, queue, hc, hf, hd, hr, ht⟩ | ⟨queue, hr, -, hfree⟩
  · refine ⟨t.schema.encode i offset, (t.setChunk i d).setQueue queue (t.live + 1), ?_, ht.wf,
      h.sameChain_takes hc hd hf _ _, h.vacantIds_perm hc hd hf _ _⟩
    unfold nextId allocate
    rw [if_neg (by simp [h.isOpen]), hr]
    rfl
  · exact absurd (vacantIds_eq_nil_iff.2 fun i c => hfree) hv

theorem WF.nextIds_of_vacant {n : Nat} (h : t.WF) (hn : n ≤ t.vacantIds.length) :
    ∃ ids u, nextIds n t = ⟨u, ids.map .ok, []⟩ ∧ ids.length = n ∧ u.WF ∧ t.SameChain u ∧
      t.vacantIds.Perm (ids ++ u.vacantIds) := by
  induction n generalizing t with
  | zero => exact ⟨[], t, rfl, rfl, h, .refl t, .refl _⟩
  | succ n ih =>
    have hv : t.vacantIds ≠ [] := List.ne_nil_of_length_pos (Nat.zero_lt_of_lt hn)
    obtain ⟨id, u, hu, hwf, hchain, hperm⟩ := h.nextId_of_vacant hv
    have hlen : n ≤ u.vacantIds.length := by
      rw [hperm.length_eq, List.length_cons] at hn
      exact Nat.le_of_succ_le_succ hn
    obtain ⟨ids, v, hvs, hids, hwf', hchain', hperm'⟩ := ih hwf hlen
    refine ⟨id :: ids, v, ?_, by rw [List.length_cons, hids], hwf', hchain.trans hchain',
      hperm.trans (hperm'.cons id)⟩
    simp only [nextIds, hu, hvs]
    rfl

theorem WF.extend_of_no_vacant (h : t.WF) (hc : t.heldChunk? t.tail = some c) (hf : c.free = []) :
    ((t.extend []).result.map fun p => t.schema.encode p.1 p.2) = t.freshId c.highWater := by
  have hcw := h.chunk_wf hc
  unfold freshId
  rw [hcw.highWater_eq, ← h.chunk_capacity hc]
  split
  · rename_i hlt
    have ha : c.allocate = (some c.nextOffset, c.takeFresh) := by
      unfold Chunk.allocate
      rw [if_neg (by simp [h.tail_not_parked hc]), hf]
      simp only [hlt, if_true]
    rw [h.extend_of_allocate [] hc ha]
    rfl
  · rename_i hle
    have hfull : c.free = [] ∧ c.nextOffset = c.capacity :=
      ⟨hf, Nat.le_antisymm hcw.nextOffset_le (Nat.le_of_not_lt hle)⟩
    rcases h.extend_of_full [] hc hfull with
      ⟨i, u, log, he, hi, ht, -, hsize⟩ | ⟨he, hparked, hsize⟩
    · rw [he, hi]
      split
      · rename_i j rest hparked
        rw [hparked]
        rfl
      · rename_i hparked
        rw [if_pos hparked] at hsize
        have hroom : t.chunkCount < t.schema.maxChunks := by
          have hle := ht.wf.size_le
          rw [hsize, ht.schema] at hle
          rw [h.chunkCount_eq]
          exact hle
        rw [if_pos hroom, hparked, h.chunkCount_eq]
        rfl
    · rw [he, hparked, h.chunkCount_eq, hsize]
      simp only [Nat.lt_irrefl, if_false]
      rfl

theorem WF.nextId_of_no_vacant (h : t.WF) (hv : t.vacantIds = [])
    (hc : t.heldChunk? t.tail = some c) : t.nextId.result = t.freshId c.highWater := by
  have hnone := vacantIds_eq_nil_iff.1 hv
  unfold nextId allocate
  rw [if_neg (by simp [h.isOpen])]
  rcases h.reuse_cases with ⟨i, offset, e, d, queue, he, hf, -⟩ | ⟨queue, hr, hwf, -⟩
  · exact absurd (hnone i e he) hf
  · rw [hr]
    exact hwf.extend_of_no_vacant hc (hnone _ c hc)

/-- The order in which a tenant hands out slots: each vacant one once, which moves no mark and
leaves the chain as it is, and then a fresh one. -/
structure VacantFirst (t : Tenant) : Prop where
  nodup : t.vacantIds.Nodup
  vacant : ∃ ids : List UInt32,
    (nextIds t.vacantIds.length t).result = ids.map .ok ∧ ids.Perm t.vacantIds
  sameChain : ∀ n, n ≤ t.vacantIds.length → t.SameChain (nextIds n t).state
  fresh : ∃ c, t.chunk? t.tail = some c ∧
    (nextIds t.vacantIds.length t).state.nextId.result = t.freshId c.highWater

theorem WF.vacantFirst (h : t.WF) : t.VacantFirst := by
  obtain ⟨ids, u, hids, hlen, hwf, hchain, hperm⟩ := h.nextIds_of_vacant (Nat.le_refl _)
  have hnil : u.vacantIds = [] := by
    have hlength := hperm.length_eq
    rw [List.length_append, hlen] at hlength
    exact List.length_eq_zero_iff.1 (by omega)
  rw [hnil, List.append_nil] at hperm
  obtain ⟨c, hc, -⟩ := h.exists_tail
  have hc' : t.chunk? t.tail = some c := (chunk?_eq h.isOpen _).trans hc
  refine ⟨h.nodup_vacantIds, ⟨ids, by rw [hids], hperm.symm⟩, fun n hn => ?_, c, hc', ?_⟩
  · obtain ⟨part, v, hv, -, -, hkept, -⟩ := h.nextIds_of_vacant hn
    rw [hv]
    exact hkept
  · -- The tail of `u` is the tail of `t`, with the same mark.
    have hmark := hchain.chunk? t.tail
    rw [hc', chunk?_eq hwf.isOpen, ← hchain.tail] at hmark
    obtain ⟨d, hd, heq⟩ := Option.map_eq_some_iff.1 hmark
    rw [hids, hwf.nextId_of_no_vacant hnil hd, (Prod.mk.inj heq).1, hchain.freshId]

end
end Tenant

namespace Store

/-- Of two chunks that are parked after a run, `i` was parked last: there was a moment without `i`
parked since when `j` has been parked all the time. -/
def ParkedAfter (s : Store) (ops : List Op) (i j : Nat) : Prop :=
  ∃ before since, ops = before ++ since ∧ i ∉ (s.run before).tenant.parked ∧
    ∀ part, part <+: since → j ∈ (s.run (before ++ part)).tenant.parked

section
variable {s : Store} {ops : List Op} {op : Op} {i j : Nat}

theorem ParkedAfter.concat (h : s.ParkedAfter ops i j)
    (hj : j ∈ (s.run (ops ++ [op])).tenant.parked) : s.ParkedAfter (ops ++ [op]) i j := by
  obtain ⟨before, since, rfl, hi, hsince⟩ := h
  refine ⟨before, since ++ [op], List.append_assoc .., hi, fun part hpart => ?_⟩
  rcases List.prefix_concat_iff.1 hpart with rfl | hpart
  · rwa [← List.append_assoc]
  · exact hsince part hpart

theorem parkedAfter_of_parks (hi : i ∉ (s.run ops).tenant.parked)
    (hj : j ∈ (s.run ops).tenant.parked) (hj' : j ∈ (s.run (ops ++ [op])).tenant.parked) :
    s.ParkedAfter (ops ++ [op]) i j := by
  refine ⟨ops, [op], rfl, hi, fun part hpart => ?_⟩
  rcases List.prefix_concat_iff.1 (show part <+: [] ++ [op] from hpart) with rfl | hpart
  · exact hj'
  · rw [List.prefix_nil.1 hpart, List.append_nil]
    exact hj

theorem pairwise_parked (h : s.tenant.WF) (hnone : s.tenant.parked = []) (ops : List Op) :
    (s.run ops).tenant.parked.Pairwise (s.ParkedAfter ops) := by
  induction ops using List.reverseRecOn with
  | nil =>
    rw [show (s.run []).tenant.parked = [] from hnone]
    exact .nil
  | append_singleton ops op ih =>
    have hwf := wf_run h ops
    have hwf' := wf_run h (ops ++ [op])
    have hsub (hp : (s.run (ops ++ [op])).tenant.parked.Sublist (s.run ops).tenant.parked) :
        (s.run (ops ++ [op])).tenant.parked.Pairwise (s.ParkedAfter (ops ++ [op])) :=
      (ih.sublist hp).imp_of_mem fun _ hj hij => hij.concat hj
    have hstep := step_reshapes hwf op
    have hrun : (s.run (ops ++ [op])).tenant = ((s.run ops).step op).1.tenant := by
      rw [run_append]
      rfl
    rw [← hrun] at hstep
    cases hstep with
    | keeps hparked hsize => exact hsub (hparked ▸ .refl _)
    | creates hparked hsize hfull => exact hsub (hparked ▸ .refl _)
    | relinks hparked hsize => exact hsub (hparked ▸ List.sublist_cons_self ..)
    | @parks i hparked hsize =>
      have hnodup := hwf'.nodup_parked
      rw [hparked, List.nodup_cons] at hnodup
      rw [hparked]
      refine List.pairwise_cons.2 ⟨fun j hj => ?_, ih.imp_of_mem fun _ hj hij => ?_⟩
      · exact parkedAfter_of_parks hnodup.1 hj (hparked ▸ List.mem_cons_of_mem i hj)
      · exact hij.concat (hparked ▸ List.mem_cons_of_mem i hj)

end

/-- In every state that an open tenant can reach the vacant slots are handed out before any fresh
one, and the chunk that was parked last is the first to be used again. -/
theorem vacantFirst_of_run (id : UInt32) (schema : IdSchema) (items : Items) (ops : List Op) :
    ((create id schema items).run ops).tenant.VacantFirst ∧
      ((create id schema items).run ops).tenant.parked.Pairwise
        ((create id schema items).ParkedAfter ops) := by
  have hwf : (create id schema items).tenant.WF := Tenant.wf_create id schema
  exact ⟨(wf_run hwf ops).vacantFirst, pairwise_parked hwf rfl ops⟩

end Store
end EntityStore
