import EntityStore.Proofs.Tenant.Invariant
import EntityStore.Tenant.Allocation

/-! How the chain of a tenant grows behind its tail when the tail is full. -/

namespace EntityStore.Tenant

/-- The tenant `u` is `t` with an empty chunk behind its tail. -/
structure Grows (t u : Tenant) : Prop where
  wf : u.WF
  id : u.id = t.id
  schema : u.schema = t.schema
  tail : u.tail = t.parked.head?.getD t.chunks.size
  parked : u.parked = t.parked.tail
  size : u.chunks.size = if t.parked = [] then t.chunks.size + 1 else t.chunks.size
  empty : ∀ c, u.heldChunk? u.tail = some c → c.free = [] ∧ c.nextOffset = 0
  slot : ∀ j o, u.slot? j o = t.slot? j o

/-- How `u` is made from `t`: chunk `i`, which is `c`, stands behind the tail, which is `last`. -/
structure Appends (t : Tenant) (last : Chunk) (i : Nat) (c : Chunk) (u : Tenant) : Prop where
  heldChunk? : ∀ j, u.heldChunk? j = if j = i then some (c.link (some t.tail) none) else
    if j = t.tail then some (last.setNext (some i)) else t.heldChunk? j
  closed : u.closed = t.closed
  id : u.id = t.id
  schema : u.schema = t.schema
  chunkCount : u.chunkCount = u.chunks.size
  size_le : u.chunks.size ≤ t.schema.maxChunks
  size : u.chunks.size = if t.parked = [] then t.chunks.size + 1 else t.chunks.size
  tail : u.tail = i
  current : u.current = i
  reusable : u.reusable = t.reusable
  parked : u.parked = t.parked.tail
  nodup_parked : u.parked.Nodup
  mem_parked : ∀ j, j ∈ u.parked ↔ j ∈ t.parked ∧ j ≠ i

section
variable {t u : Tenant} {i : Nat} {c last : Chunk}

theorem IsChain.append {is : List Nat} (h : t.IsChain is)
    (hlast : t.heldChunk? t.tail = some last) (hi : ∀ e, t.heldChunk? i = some e → e.parked = true)
    (hp : c.parked = false) (ha : t.Appends last i c u) : u.IsChain (is ++ [i]) := by
  have hni : i ∉ is := fun hmem => by
    obtain ⟨e, he, hep⟩ := (h.mem_iff i).1 hmem
    rw [hi e he] at hep
    cases hep
  obtain ⟨pre, rfl⟩ := List.getLast?_eq_some_iff.1 h.last
  have hni' : i ≠ t.tail := fun heq => hni (by simp [heq])
  have hlastp : last.parked = false := by
    obtain ⟨e, he, hep⟩ := h.not_parked_tail
    rw [hlast] at he
    cases he
    exact hep
  refine
    { nodup := List.nodup_append.2 ⟨h.nodup, List.nodup_singleton i, ?_⟩
      mem_iff := fun j => ?_
      head := by rw [List.head?_append, h.head]; rfl
      last := by rw [List.getLast?_append, ha.tail]; rfl
      linked := ?_ }
  · intro j hj k hk hjk
    rw [List.mem_singleton.1 hk] at hjk
    exact hni (hjk ▸ hj)
  · rw [List.mem_append, List.mem_singleton, h.mem_iff, ha.heldChunk?]
    by_cases hj : j = i
    · simp [hj, hp, Chunk.link]
    · by_cases ht : j = t.tail
      · simp [ht, hlast, hni'.symm, hlastp, Chunk.setNext]
      · simp [hj, ht]
  · obtain ⟨hpre, ⟨e, he, hprev, hnext⟩, -⟩ := linked_append.1 h.linked
    obtain ⟨hnodup, -, hdisj⟩ := List.nodup_append.1 h.nodup
    refine linked_append.2 ⟨linked_append.2 ⟨?_, ⟨last.setNext (some i), ?_, ?_, rfl⟩, trivial⟩,
      ⟨c.link (some t.tail) none, ?_, ?_, rfl⟩, trivial⟩
    · refine hpre.congr fun j hj d hd => ⟨d, ?_, rfl, rfl⟩
      have ht : j ≠ t.tail := hdisj j hj t.tail (List.mem_singleton_self _)
      rw [ha.heldChunk?, if_neg (fun heq => hni (by simp [← heq, hj])), if_neg ht, hd]
    · rw [ha.heldChunk?, if_neg hni'.symm, if_pos rfl]
    · rw [hlast] at he
      cases he
      exact hprev
    · rw [ha.heldChunk?, if_pos rfl]
    · simp [Chunk.link]

theorem WF.wf_of_appends (h : t.WF) (hlast : t.heldChunk? t.tail = some last)
    (hfull : last.free = [] ∧ last.nextOffset = last.capacity)
    (hi : ∀ e, t.heldChunk? i = some e → e.parked = true) (hc : c.WF) (hindex : c.index = i)
    (hcap : c.capacity = t.schema.capacity) (hp : c.parked = false) (hmark : c.nextOffset = 0)
    (ha : t.Appends last i c u) : u.WF := by
  have hni : i ≠ t.tail := fun heq => by
    have := hi last (heq ▸ hlast)
    rw [h.tail_not_parked hlast] at this
    cases this
  -- Every chunk of `u` is the new one, the old tail or an old chunk.
  have hcases {j : Nat} {e : Chunk} (he : u.heldChunk? j = some e) :
      j = i ∧ e = c.link (some t.tail) none ∨ j = t.tail ∧ e = last.setNext (some i) ∨
        j ≠ i ∧ j ≠ t.tail ∧ t.heldChunk? j = some e := by
    rw [ha.heldChunk?] at he
    split at he
    · cases he
      exact .inl ⟨‹_›, rfl⟩
    · split at he
      · cases he
        exact .inr (.inl ⟨‹_›, rfl⟩)
      · exact .inr (.inr ⟨‹_›, ‹_›, he⟩)
  refine
    { isOpen := ha.closed.trans h.isOpen
      chunkCount_eq := ha.chunkCount
      size_le := ha.schema ▸ ha.size_le
      current_eq := ha.current.trans ha.tail.symm
      fits := fun he => ?_
      nodup_parked := ha.nodup_parked
      mem_parked := fun j => ?_
      chain := ?_
      parked_of_drained := fun he h0 ht hl => ?_ }
  · rcases hcases he with ⟨rfl, rfl⟩ | ⟨rfl, rfl⟩ | ⟨-, hjt, he⟩
    · refine ⟨hc.of_links _ _, hindex, hcap.trans (congrArg _ ha.schema.symm),
        fun _ ht => absurd ha.tail.symm ht, fun hf => absurd (hc.free_eq_nil hmark) hf⟩
    · have hfits := h.fits hlast
      exact ⟨hfits.wf.of_links _ _, hfits.index, hfits.capacity.trans (congrArg _ ha.schema.symm),
        fun _ _ => hfull.2, fun hf => absurd hfull.1 hf⟩
    · have hfits := h.fits he
      exact ⟨hfits.wf, hfits.index, hfits.capacity.trans (congrArg _ ha.schema.symm),
        fun hp _ => hfits.full hp hjt, ha.reusable ▸ hfits.queued⟩
  · rw [ha.mem_parked, h.mem_parked, ha.heldChunk?]
    by_cases hj : j = i
    · simp [hj, Chunk.link, hp]
    · by_cases hjt : j = t.tail
      · simp [hjt, hlast, hni.symm, Chunk.setNext]
      · simp [hj, hjt]
  · obtain ⟨is, his⟩ := h.chain
    exact ⟨is ++ [i], his.append hlast hi hp ha⟩
  · rcases hcases he with ⟨rfl, -⟩ | ⟨-, rfl⟩ | ⟨-, hjt, he⟩
    · exact absurd ha.tail.symm ht
    · -- The old tail is full, so it is not drained now that it is no longer the tail.
      have hadd := (h.chunk_wf hlast).live_add
      have hpos := t.schema.capacity_pos
      rw [← h.chunk_capacity hlast, ← hfull.2, ← hadd, hfull.1] at hpos
      exact absurd hl (Nat.ne_of_gt hpos)
    · exact h.parked_of_drained he h0 hjt hl

theorem WF.slot?_of_appends (h : t.WF) (hlast : t.heldChunk? t.tail = some last)
    (hi : ∀ e, t.heldChunk? i = some e → e.parked = true) (hmark : c.nextOffset = 0)
    (ha : t.Appends last i c u) (j o : Nat) : u.slot? j o = t.slot? j o := by
  have hdead {d : Chunk} (hd : d.nextOffset = 0) : d.content? o = none :=
    Chunk.content?_of_not_isLive fun hl => Nat.not_lt_zero o (hd ▸ hl.1)
  have hlink : (c.link (some t.tail) none).content? o = none := hdead hmark
  unfold slot?
  rw [ha.heldChunk?]
  by_cases hj : j = i
  · rw [if_pos hj, hj, Option.bind_some, hlink]
    cases he : t.heldChunk? i with
    | none => rfl
    | some e => exact (hdead ((h.chunk_wf he).nextOffset_of_parked (hi e he))).symm
  · rw [if_neg hj]
    by_cases hjt : j = t.tail
    · rw [if_pos hjt, hjt, hlast]
      exact Chunk.SameSlots.content? ⟨rfl, rfl, rfl, rfl⟩ o
    · rw [if_neg hjt]

theorem linkTail_eq (ho : t.closed = false) (hlast : t.heldChunk? t.tail = some last)
    (hc : t.heldChunk? i = some c) (hi : i ≠ t.tail) :
    t.linkTail i =
      ⟨{ (t.setChunk t.tail (last.setNext (some i))).setChunk i (c.link (some t.tail) none) with
          tail := i
          current := i }, .ok (), [.chunkLinked t.id i t.chunkCount]⟩ := by
  have hc' : (t.setChunk t.tail (last.setNext (some i))).heldChunk? i = some c := by
    rw [heldChunk?_setChunk hlast, if_neg hi, hc]
  have ho' : (t.setChunk t.tail (last.setNext (some i))).closed = false := ho
  unfold linkTail
  simp only [modifyChunk_eq ho hlast, modifyChunk_eq ho' hc']
  rfl

theorem exists_appends_linkTail (chunks : Array Chunk) (ho : t.closed = false)
    (hlast : t.heldChunk? t.tail = some last) (hi : i ≠ t.tail)
    (hs : ∀ j, chunks[j]? = if j = i then some c else t.heldChunk? j)
    (hle : chunks.size ≤ t.schema.maxChunks)
    (hsize : chunks.size = if t.parked = [] then t.chunks.size + 1 else t.chunks.size)
    (hnodup : t.parked.tail.Nodup) (hmem : ∀ j, j ∈ t.parked.tail ↔ j ∈ t.parked ∧ j ≠ i) :
    ∃ u log, { t with chunks, chunkCount := chunks.size, parked := t.parked.tail }.linkTail i =
      ⟨u, .ok (), log⟩ ∧ t.Appends last i c u := by
  let s : Tenant := { t with chunks, chunkCount := chunks.size, parked := t.parked.tail }
  have hget : ∀ j, s.heldChunk? j = if j = i then some c else t.heldChunk? j := hs
  have hlast' : s.heldChunk? s.tail = some last :=
    (hget t.tail).trans (by rw [if_neg hi.symm, hlast])
  have hc : s.heldChunk? i = some c := (hget i).trans (if_pos rfl)
  have hset : (s.setChunk s.tail (last.setNext (some i))).heldChunk? i = some c := by
    rw [heldChunk?_setChunk hlast', if_neg hi, hc]
  refine ⟨_, _, linkTail_eq ho hlast' hc hi, ?_⟩
  refine
    { heldChunk? := fun j => ?_
      closed := rfl
      id := rfl
      schema := rfl
      chunkCount := by
        show chunks.size = _
        simp
      size_le := by simpa using hle
      size := by simpa using hsize
      tail := rfl
      current := rfl
      reusable := rfl
      parked := rfl
      nodup_parked := hnodup
      mem_parked := hmem }
  refine (heldChunk?_setChunk hset _ j).trans ?_
  rw [heldChunk?_setChunk hlast', hget]
  by_cases hj : j = i
  · rw [if_pos hj, if_pos hj]
  · rw [if_neg hj, if_neg hj, if_neg hj]

/-! ### What growing leaves alone -/

/-- The tenant `u` is `t` with other chunks in another chain. -/
def OnlyChain (t u : Tenant) : Prop :=
  ∃ chunks chunkCount tail parked current, u = { t with chunks, chunkCount, tail, parked, current }

theorem OnlyChunks.onlyChain (h : t.OnlyChunks u) : t.OnlyChain u := by
  obtain ⟨chunks, -, rfl⟩ := h
  exact ⟨chunks, t.chunkCount, t.tail, t.parked, t.current, rfl⟩

theorem OnlyChain.trans {v : Tenant} (h : t.OnlyChain u) (h' : u.OnlyChain v) : t.OnlyChain v := by
  obtain ⟨_, _, _, _, _, rfl⟩ := h
  obtain ⟨chunks, chunkCount, tail, parked, current, rfl⟩ := h'
  exact ⟨chunks, chunkCount, tail, parked, current, rfl⟩

theorem OnlyChain.live (h : t.OnlyChain u) : u.live = t.live := by
  obtain ⟨_, _, _, _, _, rfl⟩ := h
  rfl

theorem OnlyChain.reusable (h : t.OnlyChain u) : u.reusable = t.reusable := by
  obtain ⟨_, _, _, _, _, rfl⟩ := h
  rfl

theorem onlyChain_of_onChunk {ρ : Type} {f : Chunk → ρ × Chunk} {r : Option ρ}
    (h : t.onChunk i f = (r, u)) : t.OnlyChain u := by
  have hchunks := t.onlyChunks_onChunk i f
  rw [h] at hchunks
  exact hchunks.onlyChain

theorem onlyChain_linkTail (t : Tenant) (i : Nat) : t.OnlyChain (t.linkTail i).state := by
  have hchunks := (t.onlyChunks_onChunk t.tail fun c => ((), c.setNext (some i))).trans
    (onlyChunks_onChunk _ i fun c => ((), c.link (some t.tail) none))
  apply hchunks.onlyChain.trans
  exact ⟨_, _, i, _, i, rfl⟩

theorem onlyChain_grow (t : Tenant) (observed : Nat) : t.OnlyChain (t.grow observed).state := by
  have hself : t.OnlyChain t := (OnlyChunks.refl t).onlyChain
  unfold grow
  split
  · exact hself
  · split
    · exact hself
    · split
      · rename_i i parked hparked
        have hpopped : t.OnlyChain { t with parked } := ⟨_, _, _, parked, _, rfl⟩
        split
        · rename_i v hv
          exact (hpopped.trans (onlyChain_of_onChunk hv)).trans (v.onlyChain_linkTail i)
        · rename_i v hv
          exact hpopped.trans (onlyChain_of_onChunk hv)
      · dsimp only
        split
        · exact OnlyChain.trans ⟨_, _, _, _, _, rfl⟩ (onlyChain_linkTail _ _)
        · exact hself

/-! ### How growing ends -/

theorem room_onChunk {ρ : Type} (t : Tenant) (i : Nat) (f : Chunk → ρ × Chunk) :
    (t.onChunk i f).2.room = t.room := by
  obtain ⟨chunks, hs, hu⟩ := t.onlyChunks_onChunk i f
  simp only [hu, room, hs]

theorem room_linkTail (t : Tenant) (i : Nat) : (t.linkTail i).state.room = t.room := by
  show ((t.modifyChunk _ _).modifyChunk i _).room = _
  unfold modifyChunk
  rw [room_onChunk, room_onChunk]

theorem room_lt_of_grow {log : List Event} (h : t.grow t.tail = ⟨u, .ok (), log⟩) :
    u.room < t.room := by
  unfold grow at h
  split at h
  · cases h
  · rw [if_neg (by simp)] at h
    split at h
    · rename_i i rest hparked
      split at h
      · rename_i v hv
        have hroom := room_onChunk { t with parked := rest } i fun c => ((), c.unpark)
        rw [hv] at hroom
        have hlink := v.room_linkTail i
        rw [h, hroom] at hlink
        show u.room < t.parked.length + _
        rw [hlink, hparked]
        exact Nat.add_lt_add_right (Nat.lt_succ_self _) _
      · cases h
    · rename_i hparked
      dsimp only at h
      split at h
      · rename_i hlt
        have hlink := room_linkTail { t with
          chunks := t.chunks.push (.create t.chunks.size t.schema.capacity)
          chunkCount := t.chunkCount + 1 } t.chunks.size
        rw [h] at hlink
        have hroom : u.room =
            t.parked.length + (t.schema.maxChunks - (t.chunks.size + 1)) := by
          rw [hlink, room, Array.size_push]
        rw [hroom, room]
        omega
      · cases h

theorem WF.grows_of_appends (h : t.WF) (hlast : t.heldChunk? t.tail = some last)
    (hfull : last.free = [] ∧ last.nextOffset = last.capacity)
    (hi : i = t.parked.head?.getD t.chunks.size)
    (hparked : ∀ e, t.heldChunk? i = some e → e.parked = true) (hc : c.WF) (hindex : c.index = i)
    (hcap : c.capacity = t.schema.capacity) (hp : c.parked = false) (hmark : c.nextOffset = 0)
    (ha : t.Appends last i c u) : t.Grows u where
  wf := h.wf_of_appends hlast hfull hparked hc hindex hcap hp hmark ha
  id := ha.id
  schema := ha.schema
  tail := ha.tail.trans hi
  parked := ha.parked
  size := ha.size
  empty e he := by
    rw [ha.tail, ha.heldChunk?, if_pos rfl] at he
    cases he
    exact ⟨hc.free_eq_nil hmark, hmark⟩
  slot := h.slot?_of_appends hlast hparked hmark ha

theorem WF.grow_parked (h : t.WF) (hlast : t.heldChunk? t.tail = some last)
    (hfull : last.free = [] ∧ last.nextOffset = last.capacity) {rest : List Nat}
    (hparked : t.parked = i :: rest) :
    ∃ u log, t.grow t.tail = ⟨u, .ok (), log⟩ ∧ t.Grows u := by
  obtain ⟨c, hc, hcp⟩ := (h.mem_parked i).1 (hparked ▸ List.mem_cons_self ..)
  have hi : i ≠ t.tail := fun heq => by
    rw [h.tail_not_parked (heq ▸ hc)] at hcp
    cases hcp
  have hnodup : (i :: rest).Nodup := hparked ▸ h.nodup_parked
  have hmem (j : Nat) : j ∈ t.parked.tail ↔ j ∈ t.parked ∧ j ≠ i := by
    rw [hparked]
    exact mem_without [] rest hnodup j
  obtain ⟨u, log, hu, ha⟩ := exists_appends_linkTail (t.setChunk i c.unpark).chunks
    h.isOpen hlast hi (heldChunk?_setChunk hc _) ((size_setChunk ..).symm ▸ h.size_le)
    (by rw [size_setChunk, if_neg (by simp [hparked])]) (hparked ▸ hnodup.of_cons) hmem
  have honly : ∀ e, t.heldChunk? i = some e → e.parked = true := fun e he => by
    rw [hc] at he
    cases he
    exact hcp
  have hwf := h.chunk_wf hc
  refine ⟨u, log, ?_, h.grows_of_appends hlast hfull (by rw [hparked]; rfl) honly hwf.wf_unpark
    ((h.fits hc).index : c.index = i) (h.chunk_capacity hc : c.capacity = _) rfl
    (hwf.nextOffset_of_parked hcp) ha⟩
  have ho : { t with parked := rest }.closed = false := h.isOpen
  have hc' : { t with parked := rest }.heldChunk? i = some c := hc
  unfold grow
  rw [if_neg (by simp [h.isOpen]), if_neg (by simp), hparked]
  simp only [onChunk_eq ho hc']
  rw [← hu, size_setChunk, ← h.chunkCount_eq, hparked]
  rfl

theorem WF.grow_new (h : t.WF) (hlast : t.heldChunk? t.tail = some last)
    (hfull : last.free = [] ∧ last.nextOffset = last.capacity) (hparked : t.parked = [])
    (hlt : t.chunks.size < t.schema.maxChunks) :
    ∃ u log, t.grow t.tail = ⟨u, .ok (), log⟩ ∧ t.Grows u := by
  have hnone : t.heldChunk? t.chunks.size = none := heldChunk?_eq_none_iff.2 (Nat.le_refl _)
  have hi : t.chunks.size ≠ t.tail := (Nat.ne_of_lt (lt_of_heldChunk? hlast)).symm
  let c := Chunk.create t.chunks.size t.schema.capacity
  obtain ⟨u, log, hu, ha⟩ := exists_appends_linkTail (t.chunks.push c) h.isOpen hlast hi
    (fun j => Array.getElem?_push) (by rw [Array.size_push]; exact hlt)
    (by rw [Array.size_push, if_pos hparked]) (by simp [hparked]) fun j => by simp [hparked]
  have honly : ∀ e, t.heldChunk? t.chunks.size = some e → e.parked = true := fun e he => by
    rw [hnone] at he
    cases he
  refine ⟨u, log, ?_, h.grows_of_appends (c := c) hlast hfull (by rw [hparked]; rfl) honly
    (Chunk.wf_create _ _) rfl rfl rfl rfl ha⟩
  unfold grow
  rw [if_neg (by simp [h.isOpen]), if_neg (by simp), hparked]
  simp only [hlt, if_true]
  rw [← hu, Array.size_push, h.chunkCount_eq, hparked]
  rfl

/-- A full tail gets a successor: the chunk parked last or else a new one. Only when no chunk is
parked and no more chunks can be named does this fail. -/
theorem WF.grow_cases (h : t.WF) (hlast : t.heldChunk? t.tail = some last)
    (hfull : last.free = [] ∧ last.nextOffset = last.capacity) :
    (∃ u log, t.grow t.tail = ⟨u, .ok (), log⟩ ∧ t.Grows u) ∨
      t.grow t.tail = ⟨t, .error (.exhausted t.schema.maxChunks), []⟩ ∧ t.parked = [] ∧
        t.chunks.size = t.schema.maxChunks := by
  cases hparked : t.parked with
  | cons i rest => exact .inl (h.grow_parked hlast hfull hparked)
  | nil =>
    by_cases hlt : t.chunks.size < t.schema.maxChunks
    · exact .inl (h.grow_new hlast hfull hparked hlt)
    · right
      refine ⟨?_, rfl, Nat.le_antisymm h.size_le (Nat.le_of_not_lt hlt)⟩
      unfold grow
      rw [if_neg (by simp [h.isOpen]), if_neg (by simp), hparked]
      simp only [hlt, if_false]

end
end EntityStore.Tenant
