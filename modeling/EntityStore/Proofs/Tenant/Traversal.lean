import EntityStore.Proofs.Tenant.Run

/-! The chain as who holds the tenant sees it. Following the links forward from chunk 0 meets all
chunks in use and then the tail, and the links back lead the same way. -/

namespace EntityStore.Tenant

/-- The chunks met by following the links forward, up to one that has none. -/
inductive Walk (t : Tenant) : (start : Option Nat) → List Nat → Prop
  | stop : t.Walk none []
  | step {i : Nat} {c : Chunk} {is : List Nat} (hc : t.chunk? i = some c) (h : t.Walk c.next is) :
    t.Walk (some i) (i :: is)

/-- The chain of an open tenant and its parked chunks, where `is` are the chunks met on the way from
chunk 0. -/
structure Chained (t : Tenant) (is : List Nat) : Prop where
  walk : t.Walk (some 0) is
  nodup : is.Nodup
  mem_iff : ∀ i, i ∈ is ↔ ∃ c, t.chunk? i = some c ∧ c.parked = false
  last : is.getLast? = some t.tail
  next_tail : ∀ {c}, t.chunk? t.tail = some c → c.next = none
  prev_zero : ∀ {c}, t.chunk? 0 = some c → c.prev = none
  prev_iff : ∀ {j c}, j ∈ is → t.chunk? j = some c → ∀ i,
    c.prev = some i ↔ i ∈ is ∧ ∃ d, t.chunk? i = some d ∧ d.next = some j
  current : t.current = t.tail
  nodup_parked : t.parked.Nodup
  mem_parked : ∀ i, i ∈ t.parked ↔ ∃ c, t.chunk? i = some c ∧ c.parked = true
  parked_iff : ∀ {i c}, t.chunk? i = some c →
    (c.parked = true ↔ i ≠ 0 ∧ i ≠ t.tail ∧ c.allocated = [])
  full : ∀ {i c}, i ∈ is → i ≠ t.tail → t.chunk? i = some c → c.highWater = t.schema.capacity
  empty_of_parked : ∀ {i c}, t.chunk? i = some c → c.parked = true →
    c.highWater = 0 ∧ c.free = [] ∧ ∀ o, c.item? o = none ∧ c.stateItem? o = none

section
variable {t : Tenant} {i : Nat} {c : Chunk} {pre post : List Nat}

theorem Linked.walk (ho : t.closed = false) {p : Option Nat} {is : List Nat}
    (h : t.Linked p is none) : t.Walk is.head? is := by
  induction is generalizing p with
  | nil => exact .stop
  | cons i is ih =>
    obtain ⟨⟨c, hc, -, hn⟩, hrest⟩ := h
    have hnext : c.next = is.head? := by rw [hn, Option.or_none]
    exact .step ((chunk?_eq ho i).trans hc) (hnext ▸ ih hrest)

theorem Linked.links_eq (h : t.Linked none (pre ++ i :: post) none) (hc : t.heldChunk? i = some c) :
    c.prev = pre.getLast? ∧ c.next = post.head? := by
  obtain ⟨-, ⟨d, hd, hp, hn⟩, -⟩ := linked_append.1 h
  rw [hc] at hd
  cases hd
  rw [hp, hn, Option.or_none, Option.or_none]
  exact ⟨rfl, rfl⟩

theorem IsChain.prev_iff {is : List Nat} (h : t.IsChain is) {j : Nat} (hj : j ∈ is)
    (hc : t.heldChunk? j = some c) (i : Nat) :
    c.prev = some i ↔ i ∈ is ∧ ∃ d, t.heldChunk? i = some d ∧ d.next = some j := by
  constructor
  -- Both ends of a link stand next to each other in the list.
  · intro hprev
    obtain ⟨pre, post, rfl⟩ := List.append_of_mem hj
    obtain ⟨before, rfl⟩ :=
      List.getLast?_eq_some_iff.1 ((h.linked.links_eq hc).1.symm.trans hprev)
    have hmem : i ∈ before ++ [i] ++ j :: post := by simp
    obtain ⟨d, hd, -⟩ := (h.mem_iff i).1 hmem
    have hlinked := h.linked
    rw [List.append_assoc, List.singleton_append] at hlinked
    exact ⟨hmem, d, hd, (hlinked.links_eq hd).2⟩
  · rintro ⟨hi, d, hd, hnext⟩
    obtain ⟨pre, post, rfl⟩ := List.append_of_mem hi
    have hhead := (h.linked.links_eq hd).2.symm.trans hnext
    obtain ⟨after, rfl⟩ := List.head?_eq_some_iff.1 hhead
    have hlinked := h.linked
    rw [← List.singleton_append, ← List.append_assoc] at hlinked
    rw [(hlinked.links_eq hc).1, List.getLast?_concat]

theorem WF.parked_iff (h : t.WF) (hc : t.heldChunk? i = some c) :
    c.parked = true ↔ i ≠ 0 ∧ i ≠ t.tail ∧ c.allocated = [] := by
  have hcw := h.chunk_wf hc
  rw [hcw.allocated_eq_nil_iff]
  constructor
  · intro hp
    refine ⟨?_, ?_, (hcw.eq_nil_of_parked hp).2⟩
    · rintro rfl
      rw [h.zero_not_parked hc] at hp
      cases hp
    · rintro rfl
      rw [h.tail_not_parked hc] at hp
      cases hp
  · rintro ⟨h0, ht, hl⟩
    exact h.parked_of_drained hc h0 ht hl

theorem WF.empty_of_parked (h : t.WF) (hc : t.heldChunk? i = some c) (hp : c.parked = true) :
    c.highWater = 0 ∧ c.free = [] ∧ ∀ o, c.item? o = none ∧ c.stateItem? o = none := by
  have hcw := h.chunk_wf hc
  obtain ⟨hf, hl⟩ := hcw.eq_nil_of_parked hp
  refine ⟨hcw.highWater_eq.trans (hcw.nextOffset_of_parked hp), hf, fun o => ?_⟩
  have hdead := hcw.not_isLive_of_live_eq_zero hl o
  exact ⟨hcw.item?_eq_none hdead, hcw.stateItem?_eq_none hdead⟩

theorem WF.exists_chained (h : t.WF) : ∃ is, t.Chained is := by
  obtain ⟨is, his⟩ := h.chain
  have hget : ∀ i, t.chunk? i = t.heldChunk? i := chunk?_eq h.isOpen
  obtain ⟨pre, hpre⟩ := List.getLast?_eq_some_iff.1 his.last
  obtain ⟨post, hpost⟩ := List.head?_eq_some_iff.1 his.head
  refine ⟨is,
    { walk := his.head ▸ his.linked.walk h.isOpen
      nodup := his.nodup
      mem_iff := fun i => hget i ▸ his.mem_iff i
      last := his.last
      next_tail := fun hc => ?_
      prev_zero := fun hc => ?_
      prev_iff := fun {j c} hj hc i => ?_
      current := h.current_eq
      nodup_parked := h.nodup_parked
      mem_parked := fun i => hget i ▸ h.mem_parked i
      parked_iff := fun {i c} hc => h.parked_iff (hget i ▸ hc)
      full := fun {i c} hi ht hc => ?_
      empty_of_parked := fun {i c} hc hp => h.empty_of_parked (hget i ▸ hc) hp }⟩
  · rw [hget] at hc
    exact ((hpre ▸ his.linked).links_eq hc).2
  · rw [hget] at hc
    have hlinked : t.Linked none ([] ++ 0 :: post) none := hpost ▸ his.linked
    exact (hlinked.links_eq hc).1
  · rw [hget] at hc
    rw [hget]
    exact his.prev_iff hj hc i
  · rw [hget] at hc
    obtain ⟨d, hd, hp⟩ := (his.mem_iff i).1 hi
    rw [hc] at hd
    cases hd
    rw [(h.chunk_wf hc).highWater_eq, h.full hc hp ht, h.chunk_capacity hc]

end

/-- In every state that an open tenant can reach the chain leads through all chunks in use. -/
theorem chained_of_run (id : UInt32) (schema : IdSchema) (items : Items) (ops : List Store.Op) :
    ∃ is, ((Store.create id schema items).run ops).tenant.Chained is := by
  have hwf : (Store.create id schema items).tenant.WF := wf_create id schema
  exact (Store.wf_run hwf ops).exists_chained

end EntityStore.Tenant
