import EntityStore.Tenant.Basic

/-! Freeing slots. What was registered at the slot is detached from it, so that a stale copy of its
identifier cannot free the slot once it is used again. -/

namespace EntityStore.Tenant

/-- Parks a chunk that was drained and takes it out of the chain; the first chunk and the tail
stay. -/
def reclaim (t : Tenant) (i : Nat) : Outcome Tenant Unit :=
  if i = 0 ∨ i = t.tail ∨ t.closed then ⟨t, (), []⟩
  else match t.onChunk i Chunk.retire with
    | (some (some (prev, next)), t) =>
      let t := match prev with
        | some p => t.modifyChunk p (·.setNext next)
        | none => t
      let t := match next with
        | some n => t.modifyChunk n (·.setPrev prev)
        | none => t
      ⟨{ t with parked := i :: t.parked }, (), [.chunkParked t.id i]⟩
    | (_, t) => ⟨t, (), []⟩

def detachItems (items : Items) (id : UInt32) (freed : Freed) : Items :=
  let items := items.modify? freed.item (·.place (IdSchema.detach id) none)
  items.modify? freed.stateItem (·.placeState (IdSchema.detach id) none)

def freeId (t : Tenant) (items : Items) (id : UInt32) :
    Outcome (Tenant × Items) (Except PoolError (Option ItemId)) :=
  if t.closed then ⟨(t, items), .error .closed, []⟩
  else if IdSchema.isDetached id then
    ⟨(t, items), .error (.invalidId id), [.detachedRefused t.id id]⟩
  else
    let (i, offset) := t.schema.decode id
    match t.onChunk i (·.release offset) with
    | (none, t) => ⟨(t, items), .error (.invalidId id), []⟩
    | (some (.error e), t) =>
      let cause := match e with
        | .unallocated => .invalidId id
        | .alreadyFree => .alreadyFree id
      ⟨(t, items), .error cause, [.freeFailed t.id id e]⟩
    | (some (.ok freed), t) =>
      let t := { t with live := t.live - 1 }
      let items := detachItems items id freed
      let t := if freed.reopened then { t with reusable := t.reusable.push i } else t
      let o := if freed.drained then t.reclaim i else ⟨t, (), []⟩
      ⟨(o.state, items), .ok freed.item, o.log⟩

/-- Whether an item's header says that it is registered in a chunk of this tenant. -/
def owns (t : Tenant) (h : Header) : Bool :=
  match h.chunk with
  | some r => r.tenant == t.id && r.chunk.toNat == (t.schema.decode h.id).1
  | none => false

/-- Frees the slot that an item is registered at; items of other tenants are refused. -/
def freeItem (t : Tenant) (items : Items) (item : ItemId) :
    Outcome (Tenant × Items) (Except PoolError (Option ItemId)) :=
  let h := items.header item
  if t.owns h then t.freeId items h.id
  else ⟨(t, items), .error (.invalidId h.id), [.foreignRefused t.id h.id]⟩

end EntityStore.Tenant
