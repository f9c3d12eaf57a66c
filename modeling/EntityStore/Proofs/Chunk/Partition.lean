import EntityStore.Proofs.Chunk.Operations
import Mathlib.Data.Set.Card
import Mathlib.Logic.Function.Basic

/-! How the slots of a chunk stand. What a chunk replies tells of each slot whether it is unused,
live or freed, and what is registered at it. Whatever a chunk is asked, as long as items are put at
live slots only, this is how its slots stand; and slots that are freed and then handed out again
leave the chunk as it was, the one freed last coming first. -/

namespace EntityStore.Chunk

inductive Call where
  | allocate
  | reuse
  | free (offset : Nat)
  | put (offset : Nat) (item : ItemId)
  | putState (offset : Nat) (item : ItemId)
  | park
  | unpark

inductive Reply where
  | handed (offset : Option Nat)
  | reused (offset : Option (Nat × Bool))
  | freed (result : Except SlotError Freed)
  | parked (done : Bool)
  | done
  deriving DecidableEq

def serve (c : Chunk) : Call → Reply × Chunk
  | .allocate => (.handed c.allocate.1, c.allocate.2)
  | .reuse => (.reused c.reuse.1, c.reuse.2)
  | .free offset => (.freed (c.release offset).1, (c.release offset).2)
  | .put offset item => (.done, c.put offset item)
  | .putState offset item => (.done, c.putState offset item)
  | .park => (.parked c.park.1, c.park.2)
  | .unpark => (.done, c.unpark)

def serveAll (c : Chunk) : List Call → List Reply × Chunk
  | [] => ([], c)
  | call :: calls =>
    let (reply, c) := c.serve call
    let (replies, c) := c.serveAll calls
    (reply :: replies, c)

inductive Standing where
  | unused
  | live (item stateItem : Option ItemId)
  | freed
  deriving DecidableEq

namespace Standing

def isLive : Standing → Bool
  | live .. => true
  | _ => false

def item? : Standing → Option ItemId
  | live item _ => item
  | _ => none

def stateItem? : Standing → Option ItemId
  | live _ stateItem => stateItem
  | _ => none

end Standing

/-- How the slots stand after a call, from how they stood before and from the reply. -/
def note (st : Nat → Standing) : Call → Reply → Nat → Standing
  | _, .handed (some offset) => Function.update st offset (.live none none)
  | _, .reused (some (offset, _)) => Function.update st offset (.live none none)
  | .free offset, .freed (.ok _) => Function.update st offset .freed
  | .put offset item, _ => Function.update st offset (.live (some item) (st offset).stateItem?)
  | .putState offset item, _ => Function.update st offset (.live (st offset).item? (some item))
  | _, .parked true => fun _ => .unused
  | _, _ => st

/-- Items are put at live slots only. -/
def Allows (st : Nat → Standing) : Call → Prop
  | .put offset _ => (st offset).isLive = true
  | .putState offset _ => (st offset).isLive = true
  | _ => True

/-- A chunk together with how its slots stand by its replies. -/
structure Noted where
  chunk : Chunk
  standing : Nat → Standing

namespace Noted

def create (index capacity : Nat) : Noted := ⟨.create index capacity, fun _ => .unused⟩

def step (n : Noted) (call : Call) : Noted :=
  let (reply, c) := n.chunk.serve call
  ⟨c, note n.standing call reply⟩

def run (n : Noted) (calls : List Call) : Noted := calls.foldl step n

def Permits (n : Noted) : List Call → Prop
  | [] => True
  | call :: calls => Allows n.standing call ∧ (n.step call).Permits calls

end Noted

/-- How a slot stands by what the chunk holds. -/
def standing (c : Chunk) (offset : Nat) : Standing :=
  match c.content? offset with
  | some (item, stateItem) => .live item stateItem
  | none => if offset < c.nextOffset then .freed else .unused

section
variable {c d : Chunk} {offset : Nat}

theorem standing_of_content? {r : Option ItemId × Option ItemId} (h : c.content? offset = some r) :
    c.standing offset = .live r.1 r.2 := by
  unfold standing
  rw [h]

theorem standing_of_content?_eq_none (h : c.content? offset = none) :
    c.standing offset = if offset < c.nextOffset then .freed else .unused := by
  unfold standing
  rw [h]

/-! ### What the standings say -/

theorem isLive_standing (c : Chunk) (offset : Nat) :
    (c.standing offset).isLive = true ↔ c.IsLive offset := by
  by_cases h : c.IsLive offset
  · rw [standing_of_content? (content?_of_isLive h)]
    simp [h, Standing.isLive]
  · rw [standing_of_content?_eq_none (content?_of_not_isLive h)]
    split <;> simp [h, Standing.isLive]

theorem standing_eq_unused_iff (c : Chunk) (offset : Nat) :
    c.standing offset = .unused ↔ c.nextOffset ≤ offset := by
  by_cases h : c.IsLive offset
  · rw [standing_of_content? (content?_of_isLive h)]
    simp [h.1]
  · rw [standing_of_content?_eq_none (content?_of_not_isLive h)]
    split <;> simp <;> omega

theorem WF.standing_eq_freed_iff (h : c.WF) (offset : Nat) :
    c.standing offset = .freed ↔ offset ∈ c.free := by
  by_cases hl : c.IsLive offset
  · rw [standing_of_content? (content?_of_isLive hl)]
    simp [hl.2]
  · rw [standing_of_content?_eq_none (content?_of_not_isLive hl)]
    split
    · rename_i hlt
      simpa [IsLive, hlt] using hl
    · rename_i hle
      simpa using fun hmem => hle (h.lt_of_mem_free offset hmem)

theorem WF.item?_eq_standing (h : c.WF) (offset : Nat) :
    c.item? offset = (c.standing offset).item? := by
  by_cases hl : c.IsLive offset
  · rw [standing_of_content? (content?_of_isLive hl)]
    rfl
  · rw [standing_of_content?_eq_none (content?_of_not_isLive hl), h.item?_eq_none hl]
    split <;> rfl

theorem WF.stateItem?_eq_standing (h : c.WF) (offset : Nat) :
    c.stateItem? offset = (c.standing offset).stateItem? := by
  by_cases hl : c.IsLive offset
  · rw [standing_of_content? (content?_of_isLive hl)]
    rfl
  · rw [standing_of_content?_eq_none (content?_of_not_isLive hl), h.stateItem?_eq_none hl]
    split <;> rfl

/-! ### What calls do to them -/

theorem standing_eq_update {s : Standing}
    (hcontent : ∀ o, o ≠ offset → d.content? o = c.content? o)
    (hmark : ∀ o, o ≠ offset → (o < d.nextOffset ↔ o < c.nextOffset))
    (hs : d.standing offset = s) : d.standing = Function.update c.standing offset s := by
  funext o
  by_cases ho : o = offset
  · rw [ho, Function.update_self, hs]
  · rw [Function.update_of_ne ho]
    simp only [standing, hcontent o ho, hmark o ho]

theorem WF.lt_nextOffset_of_takes (h : c.WF) (hd : c.Takes offset d) {o : Nat} (ho : o ≠ offset) :
    o < d.nextOffset ↔ o < c.nextOffset := by
  refine ⟨fun hlt => ?_, fun hlt => Nat.lt_of_lt_of_le hlt hd.le_nextOffset⟩
  by_cases hf : c.free = []
  · have hadd := h.live_add
    have hadd' := hd.wf.live_add
    rw [hd.free, hd.live, hf] at hadd'
    rw [hf] at hadd
    obtain ⟨hoffset, -⟩ := isLive_of_content? ((hd.content offset).trans (if_pos rfl))
    have hdead : ¬ c.IsLive offset := fun hl => by
      have hnone := hd.content_before
      rw [content?_of_isLive hl] at hnone
      cases hnone
    have hge : ¬ offset < c.nextOffset := fun hl => hdead ⟨hl, by simp [hf]⟩
    simp only [List.length_nil, List.tail_nil] at hadd hadd'
    omega
  · rwa [(h.vacant_of_takes hd hf).2] at hlt

theorem WF.standing_of_takes (h : c.WF) (hd : c.Takes offset d) :
    d.standing = Function.update c.standing offset (.live none none) :=
  standing_eq_update (fun o ho => (hd.content o).trans (if_neg ho))
    (fun _ => h.lt_nextOffset_of_takes hd)
    (standing_of_content? ((hd.content offset).trans (if_pos rfl)))

theorem standing_of_frees {freed : Freed} (hd : c.Frees offset freed d) :
    d.standing = Function.update c.standing offset .freed := by
  have hlt : offset < d.nextOffset := hd.nextOffset ▸ (isLive_of_content? hd.content_before).1
  have hs : d.standing offset = .freed := by
    rw [standing_of_content?_eq_none ((hd.content offset).trans (if_pos rfl)), if_pos hlt]
  exact standing_eq_update (fun o ho => (hd.content o).trans (if_neg ho))
    (fun o _ => by rw [hd.nextOffset]) hs

theorem WF.standing_put (h : c.WF) (hl : c.IsLive offset) (item : ItemId) :
    (c.put offset item).standing =
      Function.update c.standing offset (.live (some item) (c.standing offset).stateItem?) := by
  rw [← h.stateItem?_eq_standing]
  exact standing_eq_update (fun o ho => (h.content?_put hl item o).trans (if_neg ho))
    (fun _ _ => Iff.rfl) (standing_of_content? ((h.content?_put hl item offset).trans (if_pos rfl)))

theorem WF.standing_putState (h : c.WF) (hl : c.IsLive offset) (item : ItemId) :
    (c.putState offset item).standing =
      Function.update c.standing offset (.live (c.standing offset).item? (some item)) := by
  rw [← h.item?_eq_standing]
  exact standing_eq_update (fun o ho => (h.content?_putState hl item o).trans (if_neg ho))
    (fun _ _ => Iff.rfl)
    (standing_of_content? ((h.content?_putState hl item offset).trans (if_pos rfl)))

theorem standing_of_nextOffset_eq_zero (hn : c.nextOffset = 0) : c.standing = fun _ => .unused :=
  funext fun o => (c.standing_eq_unused_iff o).2 (hn ▸ Nat.zero_le o)

/-- What one call does: the chunk stays in order, and its slots stand as the reply tells. -/
theorem WF.note_serve (h : c.WF) {call : Call} (ha : Allows c.standing call) :
    (c.serve call).2.WF ∧ (c.serve call).2.capacity = c.capacity ∧
      (c.serve call).2.standing = note c.standing call (c.serve call).1 := by
  cases call with
  | allocate =>
    rcases hc : c.allocate with ⟨_ | offset, d⟩
    · obtain ⟨rfl, -⟩ := h.of_allocate_eq_none hc
      simp only [serve, hc]
      exact ⟨h, trivial, rfl⟩
    · have hd := h.takes_of_allocate hc
      simp only [serve, hc]
      exact ⟨hd.wf, hd.place.capacity, h.standing_of_takes hd⟩
  | reuse =>
    rcases hc : c.reuse with ⟨_ | ⟨offset, more⟩, d⟩
    · obtain ⟨rfl, -⟩ := of_reuse_eq_none hc
      simp only [serve, hc]
      exact ⟨h, trivial, rfl⟩
    · obtain ⟨hd, -⟩ := h.takes_of_reuse hc
      simp only [serve, hc]
      exact ⟨hd.wf, hd.place.capacity, h.standing_of_takes hd⟩
  | free offset =>
    rcases hc : c.release offset with ⟨e | freed, d⟩
    · obtain ⟨rfl, -⟩ := h.of_release_eq_error hc
      simp only [serve, hc]
      exact ⟨h, trivial, rfl⟩
    · have hd := h.frees_of_release hc
      simp only [serve, hc]
      exact ⟨hd.wf, hd.place.capacity, standing_of_frees hd⟩
  | put offset item =>
    have hl := (isLive_standing c offset).1 ha
    exact ⟨h.wf_put hl item, rfl, h.standing_put hl item⟩
  | putState offset item =>
    have hl := (isLive_standing c offset).1 ha
    exact ⟨h.wf_putState hl item, rfl, h.standing_putState hl item⟩
  | park =>
    by_cases hp : c.live ≠ 0 ∨ c.parked = true
    · simp only [serve, park, if_pos hp]
      exact ⟨h, trivial, rfl⟩
    · simp only [serve, park, if_neg hp]
      have hl : c.live = 0 := by simpa using (not_or.1 hp).1
      exact ⟨h.wf_reset hl, rfl, standing_of_nextOffset_eq_zero rfl⟩
  | unpark => exact ⟨h.wf_unpark, rfl, rfl⟩

/-! ### What a free reports -/

theorem release_of_nextOffset_le (hle : c.nextOffset ≤ offset) :
    c.release offset = (.error .unallocated, c) := by
  unfold release
  rw [if_pos hle]

theorem WF.release_of_mem_free (h : c.WF) (hm : offset ∈ c.free) :
    c.release offset = (.error .alreadyFree, c) := by
  unfold release
  rw [if_neg (Nat.not_le.2 (h.lt_of_mem_free offset hm)), if_pos ((h.contains_vacant offset).2 hm)]

theorem WF.release_of_isLive (h : c.WF) (hl : c.IsLive offset) :
    ∃ freed, c.release offset = (.ok freed, c.vacate offset) := by
  obtain ⟨hlt, hv⟩ := h.isLive_iff.1 hl
  unfold release
  rw [if_neg hlt, if_neg (by simp [hv])]
  exact ⟨_, rfl⟩

theorem WF.live_eq_zero_iff (h : c.WF) : c.live = 0 ↔ ∀ o, ¬ c.IsLive o := by
  rw [← h.allocated_eq_nil_iff, List.eq_nil_iff_forall_not_mem]
  exact forall_congr' fun o => not_congr (h.mem_allocated o)

theorem WF.release_of_standing (h : c.WF) {item stateItem : Option ItemId}
    (hs : c.standing offset = .live item stateItem) :
    ∃ freed d, c.release offset = (.ok freed, d) ∧ freed.item = item ∧
      freed.stateItem = stateItem ∧
      (freed.reopened = true ↔ ∀ o, c.standing o ≠ .freed) ∧
      (freed.drained = true ↔ ∀ o, (c.standing o).isLive = true → o = offset) := by
  have hl : c.IsLive offset := by
    rw [← isLive_standing, hs]
    rfl
  obtain ⟨freed, hr⟩ := h.release_of_isLive hl
  have hd := h.frees_of_release hr
  have hcontent := standing_of_content? hd.content_before
  rw [hs, Standing.live.injEq] at hcontent
  refine ⟨freed, c.vacate offset, hr, hcontent.1.symm, hcontent.2.symm, ?_, ?_⟩
  · rw [hd.reopened, List.eq_nil_iff_forall_not_mem]
    exact forall_congr' fun o => not_congr (h.standing_eq_freed_iff o).symm
  · rw [hd.drained, hd.wf.live_eq_zero_iff]
    refine forall_congr' fun o => ?_
    rw [isLive_vacate, isLive_standing, not_and', not_ne_iff]

/-! ### Freeing and handing out again -/

/-- The chunk `d` differs from `c` at most in what is registered and in its neighbours. -/
structure SameBooks (c d : Chunk) : Prop where
  free : d.free = c.free
  vacant : d.vacant = c.vacant
  nextOffset : d.nextOffset = c.nextOffset
  highWater : d.highWater = c.highWater
  live : d.live = c.live
  parked : d.parked = c.parked

theorem SameBooks.refl (c : Chunk) : c.SameBooks c := ⟨rfl, rfl, rfl, rfl, rfl, rfl⟩

theorem WF.allocate_of_vacate (h : c.WF) (hl : c.IsLive offset)
    (hd : (c.vacate offset).SameBooks d) :
    d.allocate.1 = some offset ∧ c.SameBooks d.allocate.2 := by
  have hparked : d.parked = false := hd.parked.trans (h.parked_eq_false hl)
  have hfree : d.free = offset :: c.free := hd.free
  have hallocate : d.allocate = (some offset, d.takeVacant offset c.free) := by
    simp [allocate, hparked, hfree]
  have hpos := h.live_pos hl
  rw [hallocate]
  exact ⟨rfl,
    { free := rfl
      vacant := by
        show d.vacant.erase offset = c.vacant
        rw [hd.vacant]
        exact BitSet.erase_insert (h.isLive_iff.1 hl).2
      nextOffset := hd.nextOffset
      highWater := hd.highWater
      live := by
        show d.live + 1 = c.live
        rw [hd.live]
        exact Nat.sub_add_cancel hpos
      parked := hd.parked }⟩

def freeAll (c : Chunk) (offsets : List Nat) : List Reply × Chunk :=
  c.serveAll (offsets.map .free)

def allocateAll (c : Chunk) (n : Nat) : List Reply × Chunk :=
  c.serveAll (List.replicate n .allocate)

/-- Slots that are freed are handed out again in reverse, which leaves the books as they were. -/
structure Reverses (c : Chunk) (offsets : List Nat) : Prop where
  freed : ∀ reply ∈ (c.freeAll offsets).1, ∃ freed, reply = .freed (.ok freed)
  handed : ((c.freeAll offsets).2.allocateAll offsets.length).1 =
    offsets.reverse.map fun offset => .handed (some offset)
  books : c.SameBooks ((c.freeAll offsets).2.allocateAll offsets.length).2

theorem serveAll_append (c : Chunk) (calls more : List Call) : c.serveAll (calls ++ more) =
    ((c.serveAll calls).1 ++ ((c.serveAll calls).2.serveAll more).1,
      ((c.serveAll calls).2.serveAll more).2) := by
  induction calls generalizing c with
  | nil => rfl
  | cons call calls ih => simp only [List.cons_append, serveAll, ih]

theorem allocateAll_succ (c : Chunk) (n : Nat) : c.allocateAll (n + 1) =
    ((c.allocateAll n).1 ++ [.handed (c.allocateAll n).2.allocate.1],
      (c.allocateAll n).2.allocate.2) := by
  unfold allocateAll
  rw [List.replicate_succ', serveAll_append]
  rfl

theorem WF.reverses (h : c.WF) {offsets : List Nat} (hnodup : offsets.Nodup)
    (hlive : ∀ offset ∈ offsets, c.IsLive offset) : c.Reverses offsets := by
  induction offsets generalizing c with
  | nil => exact ⟨nofun, rfl, .refl c⟩
  | cons offset offsets ih =>
    obtain ⟨hnot, hnodup⟩ := List.nodup_cons.1 hnodup
    have hl := hlive offset (List.mem_cons_self ..)
    obtain ⟨freed, hfreed⟩ := h.release_of_isLive hl
    have hfree : c.freeAll (offset :: offsets) =
        (.freed (.ok freed) :: ((c.vacate offset).freeAll offsets).1,
          ((c.vacate offset).freeAll offsets).2) := by
      simp only [freeAll, List.map_cons, serveAll, serve, hfreed]
    -- The other slots stay live, so they come back first.
    have hrest := ih (h.wf_vacate hl) hnodup fun o ho => by
      refine (isLive_vacate c offset o).2 ⟨?_, hlive o (List.mem_cons_of_mem _ ho)⟩
      rintro rfl
      exact hnot ho
    obtain ⟨hnext, hbooks⟩ := h.allocate_of_vacate hl hrest.books
    refine ⟨?_, ?_, ?_⟩
    · rw [hfree]
      exact List.forall_mem_cons.2 ⟨⟨freed, rfl⟩, hrest.freed⟩
    · rw [hfree, List.length_cons, allocateAll_succ, hrest.handed, hnext, List.reverse_cons,
        List.map_append]
      rfl
    · rw [hfree, List.length_cons, allocateAll_succ]
      exact hbooks

end

namespace Noted
variable {n : Noted} {capacity : Nat}

/-- The chunk is in order, and its slots stand as its replies tell. -/
structure Agrees (capacity : Nat) (n : Noted) : Prop where
  wf : n.chunk.WF
  capacity : n.chunk.capacity = capacity
  standing : n.chunk.standing = n.standing

theorem agrees_create (index capacity : Nat) : (create index capacity).Agrees capacity :=
  ⟨wf_create index capacity, rfl, standing_of_nextOffset_eq_zero rfl⟩

theorem Agrees.step (h : n.Agrees capacity) {call : Call} (ha : Allows n.standing call) :
    (n.step call).Agrees capacity := by
  obtain ⟨hwf, hcapacity, hstanding⟩ := h.wf.note_serve (h.standing ▸ ha)
  exact ⟨hwf, hcapacity.trans h.capacity, hstanding.trans (by rw [h.standing]; rfl)⟩

theorem Agrees.run (h : n.Agrees capacity) {calls : List Call} (hp : n.Permits calls) :
    (n.run calls).Agrees capacity := by
  induction calls generalizing n with
  | nil => exact h
  | cons call calls ih => exact ih (h.step hp.1) hp.2

/-- Each slot of a chunk is unused, live or freed, as its replies tell. The mark, the stack, the set
of vacant offsets, the count and the two rows of slots all say the same, what a free reports is
true, and slots that are freed are handed out again in reverse. -/
structure Partitioned (capacity : Nat) (n : Noted) : Prop where
  nextOffset_le : n.chunk.nextOffset ≤ capacity
  highWater : n.chunk.highWater = n.chunk.nextOffset
  unused : ∀ o, n.standing o = .unused ↔ n.chunk.nextOffset ≤ o
  live : ∀ o, (n.standing o).isLive = true ↔ o ∈ n.chunk.allocated
  freed : ∀ o, n.chunk.free.count o = if n.standing o = .freed then 1 else 0
  vacant : ∀ o, n.chunk.vacant.contains o = true ↔ n.standing o = .freed
  count : n.chunk.live = {o | (n.standing o).isLive = true}.ncard
  item : ∀ o, n.chunk.item? o = (n.standing o).item?
  stateItem : ∀ o, n.chunk.stateItem? o = (n.standing o).stateItem?
  release : ∀ o item stateItem, n.standing o = .live item stateItem →
    ∃ freed d, n.chunk.release o = (.ok freed, d) ∧ freed.item = item ∧
      freed.stateItem = stateItem ∧
      (freed.reopened = true ↔ ∀ p, n.standing p ≠ .freed) ∧
      (freed.drained = true ↔ ∀ p, (n.standing p).isLive = true → p = o)
  release_freed : ∀ o, n.standing o = .freed → n.chunk.release o = (.error .alreadyFree, n.chunk)
  release_unused : ∀ o, n.standing o = .unused →
    n.chunk.release o = (.error .unallocated, n.chunk)
  reverses : ∀ offsets : List Nat, offsets.Nodup →
    (∀ o ∈ offsets, (n.standing o).isLive = true) → n.chunk.Reverses offsets

theorem Agrees.partitioned (h : n.Agrees capacity) : n.Partitioned capacity := by
  have hwf := h.wf
  have hlive (o : Nat) : (n.standing o).isLive = true ↔ o ∈ n.chunk.allocated := by
    rw [← h.standing, isLive_standing, hwf.mem_allocated]
  refine
    { nextOffset_le := h.capacity ▸ hwf.nextOffset_le
      highWater := hwf.highWater_eq
      unused := h.standing ▸ n.chunk.standing_eq_unused_iff
      live := hlive
      freed := fun o => ?_
      vacant := fun o => ?_
      count := ?_
      item := h.standing ▸ hwf.item?_eq_standing
      stateItem := h.standing ▸ hwf.stateItem?_eq_standing
      release := h.standing ▸ fun o item stateItem hs => hwf.release_of_standing hs
      release_freed := fun o hs => ?_
      release_unused := fun o hs => ?_
      reverses := fun offsets hnodup hoffsets => ?_ }
  · rw [hwf.nodup_free.count, ← h.standing]
    simp only [hwf.standing_eq_freed_iff]
  · rw [hwf.contains_vacant, ← h.standing, hwf.standing_eq_freed_iff]
  · have hset : {o | (n.standing o).isLive = true} = ↑n.chunk.allocated.toFinset := by
      ext o
      rw [List.coe_toFinset, Set.mem_ofPred_eq, Set.mem_ofPred_eq, hlive]
    have hnodup : n.chunk.allocated.Nodup := List.nodup_range.filter _
    rw [hset, Set.ncard_coe_finset, List.toFinset_card_of_nodup hnodup, hwf.length_allocated]
  · rw [← h.standing] at hs
    exact hwf.release_of_mem_free ((hwf.standing_eq_freed_iff o).1 hs)
  · rw [← h.standing] at hs
    exact release_of_nextOffset_le ((standing_eq_unused_iff _ o).1 hs)
  · refine hwf.reverses hnodup fun o ho => ?_
    exact (isLive_standing _ o).1 (h.standing ▸ hoffsets o ho)

/-- Whatever is asked of a chunk, as long as items are put at live slots only, its slots are divided
into unused, live and freed ones as its replies tell. -/
theorem partitioned_of_run (index capacity : Nat) {calls : List Call}
    (h : (create index capacity).Permits calls) :
    ((create index capacity).run calls).Partitioned capacity :=
  ((agrees_create index capacity).run h).partitioned

/-- A slot that is freed twice and taken again, and a chunk that is parked and then used again. -/
theorem partitioned_of_run_parked :
    (create 3 4).Permits [.allocate, .put 0 7, .allocate, .free 0, .free 0, .reuse, .putState 0 8,
      .free 1, .free 0, .park, .allocate, .unpark, .allocate, .put 0 9] ∧
    ((create 3 4).run [.allocate, .put 0 7, .allocate, .free 0, .free 0, .reuse, .putState 0 8,
      .free 1, .free 0, .park, .allocate, .unpark, .allocate, .put 0 9]).Partitioned 4 := by
  have h : (create 3 4).Permits [.allocate, .put 0 7, .allocate, .free 0, .free 0, .reuse,
      .putState 0 8, .free 1, .free 0, .park, .allocate, .unpark, .allocate, .put 0 9] :=
    ⟨trivial, rfl, trivial, trivial, trivial, trivial, rfl, trivial, trivial, trivial, trivial,
      trivial, trivial, rfl, trivial⟩
  exact ⟨h, partitioned_of_run 3 4 h⟩

end Noted
end EntityStore.Chunk
