import EntityStore.Tenant.Basic

/-! Handing out slots: first those freed before, then the fresh ones of the tail, and then those
of one more chunk, which is the one parked last or else a new one. -/

namespace EntityStore.Tenant

theorem reusable_onHeldChunk {ρ : Type} (t : Tenant) (i : Nat) (f : Chunk → ρ × Chunk) :
    (t.onHeldChunk i f).2.reusable = t.reusable := by
  unfold onHeldChunk
  split <;> rfl

theorem reusable_onChunk {ρ : Type} (t : Tenant) (i : Nat) (f : Chunk → ρ × Chunk) :
    (t.onChunk i f).2.reusable = t.reusable := by
  unfold onChunk
  split
  · rfl
  · exact reusable_onHeldChunk t i f

/-- Takes a freed slot of the first chunk on the queue that has one. The entries before it are stale
and leave the queue; the chunk goes to the end of the queue if it has more. -/
def reuse (t : Tenant) : Option (Nat × Nat) × Tenant :=
  match _hq : t.reusable.pop? with
  | none => (none, t)
  | some (i, rest) =>
    match _hu : { t with reusable := rest }.onChunk i Chunk.reuse with
    | (some (some (offset, more)), u) =>
      (some (i, offset),
        { u with reusable := if more then u.reusable.push i else u.reusable
                 live := u.live + 1 })
    | (_, u) => u.reuse
termination_by t.reusable.toList.length
decreasing_by
  have hr := reusable_onChunk { t with reusable := rest } i Chunk.reuse
  rw [_hu] at hr
  rw [show u.reusable = rest from hr]
  exact Fifo.length_of_pop? _hq

def linkTail (t : Tenant) (i : Nat) : Outcome Tenant (Except PoolError Unit) :=
  let last := t.tail
  let t := t.modifyChunk last (·.setNext (some i))
  let t := t.modifyChunk i (·.link (some last) none)
  ⟨{ t with tail := i, current := i }, .ok (), [.chunkLinked t.id i t.chunkCount]⟩

/-- Lengthens the chain by the chunk parked last, or else by a new one. Nothing is done if the tail
is not the chunk that was found full. -/
def grow (t : Tenant) (observed : Nat) : Outcome Tenant (Except PoolError Unit) :=
  if t.closed then ⟨t, .error .closed, []⟩
  else if t.tail ≠ observed then ⟨t, .ok (), []⟩
  else match t.parked with
    | i :: parked =>
      match { t with parked }.onChunk i fun c => ((), c.unpark) with
      | (some (), t) => t.linkTail i
      | (none, t) => ⟨t, .error .closed, []⟩
    | [] =>
      let i := t.chunks.size
      if i < t.schema.maxChunks then
        { t with chunks := t.chunks.push (.create i t.schema.capacity),
                 chunkCount := t.chunkCount + 1 }.linkTail i
      else ⟨t, .error (.exhausted t.schema.maxChunks), []⟩

/-- How many more times the chain can grow. -/
def room (t : Tenant) : Nat := t.parked.length + (t.schema.maxChunks - t.chunks.size)

/-- Takes a slot of the current chunk, and tries again behind it as long as it is full and the chain
grows. The events so far stand in `log`. -/
def extend (log : List Event) (t : Tenant) : Outcome Tenant (Except PoolError (Nat × Nat)) :=
  let i := t.current
  match t.onChunk i Chunk.allocate with
  | (none, u) => ⟨u, .error .closed, log⟩
  | (some (some offset), u) => ⟨{ u with live := u.live + 1 }, .ok (i, offset), log⟩
  | (some none, u) =>
    match u.grow i with
    | ⟨v, .error e, more⟩ => ⟨v, .error e, log ++ more⟩
    | ⟨v, .ok (), more⟩ =>
      -- Only a stale `current`, which nothing here leaves behind, keeps the chain from growing.
      if v.room < t.room then v.extend (log ++ more) else ⟨v, .error .closed, log ++ more⟩
termination_by t.room

def allocate (t : Tenant) : Outcome Tenant (Except PoolError (Nat × Nat)) :=
  if t.closed then ⟨t, .error .closed, []⟩
  else match t.reuse with
    | (some place, t) => ⟨t, .ok place, []⟩
    | (none, t) => t.extend []

/-- Takes a slot of one chunk directly, which the tenant's count of live slots does not see. Who
holds the chunk can do this even when the tenant is closed. -/
def allocateIn (t : Tenant) (i : Nat) : Outcome Tenant (Option Nat) :=
  let (offset, t) := t.onHeldChunk i Chunk.allocate
  ⟨t, offset.join, []⟩

def nextId (t : Tenant) : Outcome Tenant (Except PoolError UInt32) :=
  let schema := t.schema
  t.allocate.map (·.map fun (i, offset) => schema.encode i offset)

/-- Takes a slot for an item and, if one is given, for its state item, and records it on them. -/
def register (t : Tenant) (items : Items) (item : ItemId) (stateItem : Option ItemId) :
    Outcome (Tenant × Items) (Except PoolError UInt32) :=
  match t.allocate with
  | ⟨t, .error e, log⟩ => ⟨(t, items), .error e, log⟩
  | ⟨t, .ok (i, offset), log⟩ =>
    let id := t.schema.encode i offset
    let place : ChunkRef := ⟨t.id, .ofNat i⟩
    let items := items.modify item (·.place id place)
    let items := items.modify? stateItem (·.placeState id place)
    let log := log ++ [.registered t.id id]
    let t := match stateItem with
      | some s => t.modifyHeldChunk i (·.putState offset s)
      | none => t
    ⟨(t.modifyHeldChunk i (·.put offset item), items), .ok id, log⟩

end EntityStore.Tenant
