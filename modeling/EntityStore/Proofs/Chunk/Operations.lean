import EntityStore.Proofs.Chunk.Invariant

/-! What the operations of a chunk do. Each lemma says all that an answer tells: that the invariant
is kept, what becomes of the contents of the slots, and which parts stay as they are. -/

namespace EntityStore.Chunk

structure SamePlace (c d : Chunk) : Prop where
  index : d.index = c.index
  capacity : d.capacity = c.capacity
  prev : d.prev = c.prev
  next : d.next = c.next

/-- The chunk `d` is `c` with the slot at an offset handed out. -/
structure Takes (c : Chunk) (offset : Nat) (d : Chunk) : Prop where
  wf : d.WF
  place : SamePlace c d
  lt_capacity : offset < c.capacity
  content_before : c.content? offset = none
  content : ∀ o, d.content? o = if o = offset then some (none, none) else c.content? o
  live : d.live = c.live + 1
  parked_before : c.parked = false
  parked : d.parked = false
  free : d.free = c.free.tail
  le_nextOffset : c.nextOffset ≤ d.nextOffset

/-- The chunk `d` is `c` with the slot at an offset freed. -/
structure Frees (c : Chunk) (offset : Nat) (freed : Freed) (d : Chunk) : Prop where
  wf : d.WF
  place : SamePlace c d
  content_before : c.content? offset = some (freed.item, freed.stateItem)
  content : ∀ o, d.content? o = if o = offset then none else c.content? o
  live : d.live + 1 = c.live
  parked_before : c.parked = false
  parked : d.parked = false
  free : d.free = offset :: c.free
  nextOffset : d.nextOffset = c.nextOffset
  reopened : freed.reopened = true ↔ c.free = []
  drained : freed.drained = true ↔ d.live = 0

/-- The chunk `d` is `c`, which was empty, out of the chain and with nothing handed out. -/
structure Retires (c d : Chunk) : Prop where
  wf : d.WF
  index : d.index = c.index
  capacity : d.capacity = c.capacity
  content : ∀ o, d.content? o = c.content? o
  live_before : c.live = 0
  live : d.live = 0
  parked_before : c.parked = false
  parked : d.parked = true
  free : d.free = []
  prev : d.prev = none
  next : d.next = c.next

section
variable {c d : Chunk} {offset : Nat}

theorem content?_of_isLive (h : c.IsLive offset) :
    c.content? offset = some (c.item? offset, c.stateItem? offset) := if_pos h

theorem content?_of_not_isLive (h : ¬ c.IsLive offset) : c.content? offset = none := if_neg h

theorem isLive_of_content? {r : Option ItemId × Option ItemId} (h : c.content? offset = some r) :
    c.IsLive offset := by
  by_contra hl
  rw [content?_of_not_isLive hl] at h
  cases h

theorem WF.lt_capacity_of_isLive (h : c.WF) (hl : c.IsLive offset) : offset < c.capacity :=
  Nat.lt_of_lt_of_le hl.1 h.nextOffset_le

theorem WF.content?_of_handed (h : c.WF) (hdead : ¬ c.IsLive offset)
    (hlive : ∀ o, d.IsLive o ↔ o = offset ∨ c.IsLive o) (hitem : d.item? = c.item?)
    (hstate : d.stateItem? = c.stateItem?) (o : Nat) :
    d.content? o = if o = offset then some (none, none) else c.content? o := by
  split
  · rename_i heq
    subst heq
    rw [content?_of_isLive ((hlive o).2 (.inl rfl)), hitem, hstate, h.item?_eq_none hdead,
      h.stateItem?_eq_none hdead]
  · rename_i hne
    simp only [content?, hlive, hne, false_or, hitem, hstate]

theorem WF.takes_vacant (h : c.WF) (hp : c.parked = false) {free : List Nat}
    (hf : c.free = offset :: free) : c.Takes offset (c.takeVacant offset free) := by
  have hnodup := h.nodup_free
  have hsub := h.lt_of_mem_free
  have hadd := h.live_add
  rw [hf] at hnodup hsub hadd
  obtain ⟨hnot, hfree⟩ := List.nodup_cons.1 hnodup
  have hlt : offset < c.nextOffset := hsub offset (List.mem_cons_self ..)
  have hlive (o : Nat) : (c.takeVacant offset free).IsLive o ↔ o = offset ∨ c.IsLive o := by
    simp only [IsLive, takeVacant, hf, List.mem_cons, not_or]
    constructor
    · rintro ⟨ho, hm⟩
      by_cases heq : o = offset
      · exact .inl heq
      · exact .inr ⟨ho, heq, hm⟩
    · rintro (rfl | ⟨ho, -, hm⟩)
      · exact ⟨hlt, hnot⟩
      · exact ⟨ho, hm⟩
  have hdead : ¬ c.IsLive offset := fun hl => hl.2 (by simp [hf])
  refine
    { wf := { h with
        length_vacant := by simpa [takeVacant] using h.length_vacant
        nodup_free := hfree
        lt_of_mem_free := fun o ho => hsub o (List.mem_cons_of_mem _ ho)
        contains_vacant := fun o => ?_
        live_add := by simp only [List.length_cons] at hadd; simp only [takeVacant]; omega
        live_of_item := fun hi => (hlive _).2 (.inr (h.live_of_item hi))
        live_of_stateItem := fun hi => (hlive _).2 (.inr (h.live_of_stateItem hi)) }
      place := ⟨rfl, rfl, rfl, rfl⟩
      lt_capacity := Nat.lt_of_lt_of_le hlt h.nextOffset_le
      content_before := content?_of_not_isLive hdead
      content := h.content?_of_handed hdead hlive rfl rfl
      live := rfl
      parked_before := hp
      parked := hp
      free := by rw [hf]; rfl
      le_nextOffset := Nat.le_refl _ }
  have hv := h.contains_vacant o
  rw [hf, List.mem_cons] at hv
  simp only [takeVacant, BitSet.contains_erase, Bool.and_eq_true, bne_iff_ne, hv]
  constructor
  · rintro ⟨hne, heq | ho⟩
    · exact absurd heq hne
    · exact ho
  · intro ho
    exact ⟨fun heq => hnot (heq ▸ ho), .inr ho⟩

theorem WF.takes_fresh (h : c.WF) (hp : c.parked = false) (hf : c.free = [])
    (hlt : c.nextOffset < c.capacity) :
    c.Takes c.nextOffset c.takeFresh := by
  have hlive (o : Nat) : c.takeFresh.IsLive o ↔ o = c.nextOffset ∨ c.IsLive o := by
    simp only [IsLive, takeFresh, hf, List.not_mem_nil, not_false_eq_true, and_true]
    omega
  have hdead : ¬ c.IsLive c.nextOffset := fun hl => (Nat.lt_irrefl _ hl.1).elim
  exact
    { wf := { h with
        nextOffset_le := hlt
        highWater_eq := rfl
        lt_of_mem_free := fun o ho => Nat.lt_succ_of_lt (h.lt_of_mem_free o ho)
        live_add := by have := h.live_add; simp only [takeFresh]; omega
        live_of_item := fun hi => (hlive _).2 (.inr (h.live_of_item hi))
        live_of_stateItem := fun hi => (hlive _).2 (.inr (h.live_of_stateItem hi))
        nextOffset_of_parked := fun hp' => absurd hp' (by simp [takeFresh, hp]) }
      place := ⟨rfl, rfl, rfl, rfl⟩
      lt_capacity := hlt
      content_before := content?_of_not_isLive hdead
      content := h.content?_of_handed hdead hlive rfl rfl
      live := rfl
      parked_before := hp
      parked := hp
      free := by simp [takeFresh, hf]
      le_nextOffset := Nat.le_succ _ }

theorem WF.takes_of_allocate (h : c.WF) (ha : c.allocate = (some offset, d)) :
    c.Takes offset d := by
  unfold allocate at ha
  split at ha
  · cases ha
  · rename_i hp
    split at ha
    · rename_i hf
      cases ha
      exact h.takes_vacant (by simpa using hp) hf
    · rename_i hf
      split at ha
      · rename_i hlt
        cases ha
        exact h.takes_fresh (by simpa using hp) hf hlt
      · cases ha

theorem WF.of_allocate_eq_none (h : c.WF) (ha : c.allocate = (none, d)) :
    d = c ∧ (c.parked = true ∨ c.free = [] ∧ c.nextOffset = c.capacity) := by
  unfold allocate at ha
  split at ha
  · rename_i hp
    cases ha
    exact ⟨rfl, .inl hp⟩
  · split at ha
    · cases ha
    · rename_i hf
      split at ha
      · cases ha
      · rename_i hlt
        cases ha
        exact ⟨rfl, .inr ⟨hf, Nat.le_antisymm h.nextOffset_le (Nat.le_of_not_lt hlt)⟩⟩

theorem WF.takes_of_reuse (h : c.WF) {more : Bool} (hr : c.reuse = (some (offset, more), d)) :
    c.Takes offset d ∧ (more = true ↔ d.free ≠ []) := by
  unfold reuse at hr
  split at hr
  · cases hr
  · rename_i hf
    cases hr
    have hp : c.parked = false := by
      by_contra hp
      simp [(h.eq_nil_of_parked (by simpa using hp)).1] at hf
    exact ⟨h.takes_vacant hp hf, by simp [takeVacant]⟩

theorem WF.vacant_of_takes (h : c.WF) (hd : c.Takes offset d) (hf : c.free ≠ []) :
    c.free = offset :: d.free ∧ d.nextOffset = c.nextOffset := by
  obtain ⟨o, free, hc⟩ := List.exists_cons_of_ne_nil hf
  have hfree : d.free = free := by rw [hd.free, hc, List.tail_cons]
  have hmark : d.nextOffset = c.nextOffset := by
    have hadd := h.live_add
    have hadd' := hd.wf.live_add
    rw [hc, List.length_cons] at hadd
    rw [hfree, hd.live] at hadd'
    omega
  obtain ⟨hlt, hmem⟩ := isLive_of_content? ((hd.content offset).trans (if_pos rfl))
  have hvacant : offset ∈ c.free := by
    by_contra hn
    have hcontent := content?_of_isLive (c := c) ⟨hmark ▸ hlt, hn⟩
    rw [hd.content_before] at hcontent
    cases hcontent
  rw [hc, List.mem_cons] at hvacant
  rw [hc, hfree, hvacant.resolve_right (hfree ▸ hmem)]
  exact ⟨rfl, hmark⟩

theorem of_reuse_eq_none (hr : c.reuse = (none, d)) : d = c ∧ c.free = [] := by
  unfold reuse at hr
  split at hr
  · rename_i hf
    cases hr
    exact ⟨rfl, hf⟩
  · cases hr

theorem WF.isLive_iff (h : c.WF) :
    c.IsLive offset ↔ ¬ c.nextOffset ≤ offset ∧ c.vacant.contains offset = false := by
  rw [IsLive, Nat.not_le, ← Bool.not_eq_true, h.contains_vacant]

theorem getD_setIfInBounds_none (xs : Array (Option ItemId)) (i j : Nat) :
    (xs.setIfInBounds i none)[j]?.getD none = if j = i then none else xs[j]?.getD none := by
  rw [Array.getElem?_setIfInBounds]
  by_cases h : i = j
  · subst h
    by_cases hi : i < xs.size <;> simp [hi]
  · simp [h, Ne.symm h]

theorem getD_setIfInBounds_some {xs : Array (Option ItemId)} {i : Nat} (hi : i < xs.size)
    (a : ItemId) (j : Nat) :
    (xs.setIfInBounds i (some a))[j]?.getD none = if j = i then some a else xs[j]?.getD none := by
  rw [Array.getElem?_setIfInBounds]
  by_cases h : i = j
  · subst h
    simp [hi]
  · simp [h, Ne.symm h]

theorem item?_vacate (c : Chunk) (offset o : Nat) :
    (c.vacate offset).item? o = if o = offset then none else c.item? o :=
  getD_setIfInBounds_none c.slots offset o

theorem stateItem?_vacate (c : Chunk) (offset o : Nat) :
    (c.vacate offset).stateItem? o = if o = offset then none else c.stateItem? o := by
  simp only [stateItem?, vacate]
  cases c.stateSlots with
  | none => simp
  | some slots => exact getD_setIfInBounds_none slots offset o

theorem isLive_vacate (c : Chunk) (offset o : Nat) :
    (c.vacate offset).IsLive o ↔ o ≠ offset ∧ c.IsLive o := by
  simp only [IsLive, vacate, List.mem_cons, not_or]
  tauto

theorem WF.live_pos (h : c.WF) (hl : c.IsLive offset) : 0 < c.live :=
  Nat.pos_of_ne_zero fun hz => h.not_isLive_of_live_eq_zero hz offset hl

theorem WF.parked_eq_false (h : c.WF) (hl : c.IsLive offset) : c.parked = false := by
  by_contra hp
  exact absurd hl.1 (by simp [h.nextOffset_of_parked (by simpa using hp)])

theorem WF.wf_vacate (h : c.WF) (hl : c.IsLive offset) : (c.vacate offset).WF := by
  have hpos := h.live_pos hl
  have hadd := h.live_add
  refine
    { h with
      size_slots := by simpa [vacate] using h.size_slots
      size_stateSlots := fun slots hslots => ?_
      length_vacant := by simpa [vacate] using h.length_vacant
      nodup_free := List.nodup_cons.2 ⟨hl.2, h.nodup_free⟩
      lt_of_mem_free := fun o ho => ?_
      contains_vacant := fun o => ?_
      live_add := by simp only [vacate, List.length_cons]; omega
      live_of_item := fun {o _} hi => (isLive_vacate c offset o).2 ?_
      live_of_stateItem := fun {o _} hi => (isLive_vacate c offset o).2 ?_ }
  · obtain ⟨old, hold, rfl⟩ := Option.map_eq_some_iff.1 hslots
    simpa [vacate] using h.size_stateSlots old hold
  · rcases List.mem_cons.1 ho with rfl | ho
    · exact hl.1
    · exact h.lt_of_mem_free o ho
  · have hlt : offset < c.vacant.length := by
      rw [h.length_vacant]
      exact h.lt_capacity_of_isLive hl
    simp only [vacate, BitSet.contains_insert hlt, Bool.or_eq_true, beq_iff_eq, h.contains_vacant,
      List.mem_cons]
  · rw [item?_vacate] at hi
    split at hi
    · cases hi
    · exact ⟨‹_›, h.live_of_item hi⟩
  · rw [stateItem?_vacate] at hi
    split at hi
    · cases hi
    · exact ⟨‹_›, h.live_of_stateItem hi⟩

theorem WF.frees_vacate (h : c.WF) (hl : c.IsLive offset) {freed : Freed}
    (hi : freed.item = c.item? offset) (hs : freed.stateItem = c.stateItem? offset)
    (hr : freed.reopened = c.free.isEmpty) (hd : freed.drained = ((c.vacate offset).live == 0)) :
    c.Frees offset freed (c.vacate offset) := by
  have hpos := h.live_pos hl
  refine
    { wf := h.wf_vacate hl
      place := ⟨rfl, rfl, rfl, rfl⟩
      content_before := by rw [content?_of_isLive hl, hi, hs]
      content := fun o => ?_
      live := by simp only [vacate]; omega
      parked_before := h.parked_eq_false hl
      parked := h.parked_eq_false hl
      free := rfl
      nextOffset := rfl
      reopened := by rw [hr, List.isEmpty_iff]
      drained := by rw [hd, beq_iff_eq] }
  by_cases ho : o = offset
  · rw [if_pos ho]
    exact content?_of_not_isLive fun hl' => ((isLive_vacate c offset o).1 hl').1 ho
  · simp only [content?, isLive_vacate, item?_vacate, stateItem?_vacate, ne_eq, ho,
      not_false_eq_true, true_and, if_false]

theorem WF.frees_of_release (h : c.WF) {freed : Freed} (hr : c.release offset = (.ok freed, d)) :
    c.Frees offset freed d := by
  unfold release at hr
  split at hr
  · cases hr
  · rename_i hlt
    split at hr
    · cases hr
    · rename_i hv
      cases hr
      exact h.frees_vacate (h.isLive_iff.2 ⟨hlt, by simpa using hv⟩) rfl rfl rfl rfl

theorem WF.of_release_eq_error (h : c.WF) {e : SlotError} (hr : c.release offset = (.error e, d)) :
    d = c ∧ c.content? offset = none ∧ (e = .alreadyFree ↔ offset ∈ c.free) := by
  unfold release at hr
  split at hr
  · rename_i hle
    cases hr
    refine ⟨rfl, content?_of_not_isLive fun hl => Nat.not_le.2 hl.1 hle, ?_⟩
    have : offset ∉ c.free := fun hm => Nat.not_le.2 (h.lt_of_mem_free offset hm) hle
    simp [this]
  · split at hr
    · rename_i hv
      cases hr
      have hm := (h.contains_vacant offset).1 hv
      exact ⟨rfl, content?_of_not_isLive fun hl => hl.2 hm, by simp [hm]⟩
    · cases hr

theorem content?_of_written {a b : Option ItemId} (hl : c.IsLive offset)
    (hlive : ∀ o, d.IsLive o ↔ c.IsLive o)
    (hitem : ∀ o, d.item? o = if o = offset then a else c.item? o)
    (hstate : ∀ o, d.stateItem? o = if o = offset then b else c.stateItem? o) (o : Nat) :
    d.content? o = if o = offset then some (a, b) else c.content? o := by
  by_cases heq : o = offset
  · subst heq
    rw [content?_of_isLive ((hlive o).2 hl), hitem, hstate, if_pos rfl, if_pos rfl, if_pos rfl]
  · simp only [content?, hlive, hitem, hstate, heq, if_false]

theorem WF.wf_put (h : c.WF) (hl : c.IsLive offset) (item : ItemId) : (c.put offset item).WF :=
  have hlt : offset < c.slots.size := by
    rw [h.size_slots]
    exact h.lt_capacity_of_isLive hl
  { h with
    size_slots := by simpa [put] using h.size_slots
    live_of_item := fun {o i} hi => by
      rw [item?, put, getD_setIfInBounds_some hlt] at hi
      split at hi
      · rename_i heq
        exact heq ▸ hl
      · exact h.live_of_item hi
    live_of_stateItem := h.live_of_stateItem }

theorem WF.content?_put (h : c.WF) (hl : c.IsLive offset) (item : ItemId) (o : Nat) :
    (c.put offset item).content? o =
      if o = offset then some (some item, c.stateItem? offset) else c.content? o := by
  have hlt : offset < c.slots.size := by
    rw [h.size_slots]
    exact h.lt_capacity_of_isLive hl
  have hlive (o : Nat) : (c.put offset item).IsLive o ↔ c.IsLive o := Iff.rfl
  refine content?_of_written hl hlive (getD_setIfInBounds_some hlt item) (fun o => ?_) o
  split
  · rename_i heq
    rw [heq]
    rfl
  · rfl

theorem WF.stateItem?_putState (h : c.WF) (hl : c.IsLive offset) (item : ItemId) (o : Nat) :
    (c.putState offset item).stateItem? o =
      if o = offset then some item else c.stateItem? o := by
  have hlt := h.lt_capacity_of_isLive hl
  simp only [stateItem?, putState]
  cases hs : c.stateSlots with
  | none =>
    simp only [Option.getD_none, Option.bind_some, Option.bind_none]
    rw [getD_setIfInBounds_some (by simpa using hlt), Array.getElem?_replicate]
    split
    · rfl
    · split <;> rfl
  | some slots =>
    exact getD_setIfInBounds_some (by simpa [h.size_stateSlots slots hs] using hlt) item o

theorem WF.wf_putState (h : c.WF) (hl : c.IsLive offset) (item : ItemId) :
    (c.putState offset item).WF :=
  { h with
    size_stateSlots := by
      intro slots hslots
      cases hslots
      cases hs : c.stateSlots with
      | none => simp [putState]
      | some old => simpa [putState] using h.size_stateSlots old hs
    live_of_item := h.live_of_item
    live_of_stateItem := fun {o i} hi => by
      rw [h.stateItem?_putState hl] at hi
      split at hi
      · rename_i heq
        exact heq ▸ hl
      · exact h.live_of_stateItem hi }

theorem WF.content?_putState (h : c.WF) (hl : c.IsLive offset) (item : ItemId) (o : Nat) :
    (c.putState offset item).content? o =
      if o = offset then some (c.item? offset, some item) else c.content? o := by
  have hlive (o : Nat) : (c.putState offset item).IsLive o ↔ c.IsLive o := Iff.rfl
  refine content?_of_written hl hlive (fun o => ?_) (h.stateItem?_putState hl item) o
  split
  · rename_i heq
    rw [heq]
    rfl
  · rfl

theorem WF.wf_reset (h : c.WF) (hl : c.live = 0) : c.reset.WF where
  size_slots := h.size_slots
  size_stateSlots := h.size_stateSlots
  length_vacant := by simpa [reset] using h.length_vacant
  nextOffset_le := Nat.zero_le _
  highWater_eq := rfl
  nodup_free := .nil
  lt_of_mem_free := by simp [reset]
  contains_vacant := by simp [reset]
  live_add := by simp [reset, hl]
  live_of_item hi := absurd (h.live_of_item hi) (h.not_isLive_of_live_eq_zero hl _)
  live_of_stateItem hi := absurd (h.live_of_stateItem hi) (h.not_isLive_of_live_eq_zero hl _)
  nextOffset_of_parked _ := rfl

theorem WF.of_links (h : c.WF) (prev next : Option Nat) : { c with prev, next }.WF :=
  { h with live_of_item := h.live_of_item, live_of_stateItem := h.live_of_stateItem }

theorem WF.retires (h : c.WF) {prev next : Option Nat}
    (hr : c.retire = (some (prev, next), d)) :
    c.Retires d ∧ prev = c.prev ∧ next = c.next := by
  unfold retire park at hr
  split at hr
  · rename_i hp
    split at hp
    · cases hp
    · rename_i hlp
      cases hp
      cases hr
      obtain ⟨hl, hp⟩ : c.live = 0 ∧ c.parked = false := by simpa using hlp
      refine ⟨?_, rfl, rfl⟩
      exact
        { wf := (h.wf_reset hl).of_links none c.next
          index := rfl
          capacity := rfl
          content := fun o => by
            rw [content?_of_not_isLive (h.not_isLive_of_live_eq_zero hl o)]
            exact content?_of_not_isLive fun hlive => Nat.not_lt_zero _ hlive.1
          live_before := hl
          live := hl
          parked_before := hp
          parked := rfl
          free := rfl
          prev := rfl
          next := rfl }
  · cases hr

theorem exists_retire (hl : c.live = 0) (hp : c.parked = false) :
    ∃ d, c.retire = (some (c.prev, c.next), d) := by
  unfold retire park
  rw [if_neg (by simp [hl, hp])]
  exact ⟨_, rfl⟩

theorem WF.wf_unpark (h : c.WF) : c.unpark.WF :=
  { h with
    live_of_item := h.live_of_item
    live_of_stateItem := h.live_of_stateItem
    nextOffset_of_parked := fun hp => by cases hp }

end
end EntityStore.Chunk
