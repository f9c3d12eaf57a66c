import EntityStore.Tenant.Allocation
import EntityStore.Tenant.Release

/-! Requests for many slots at once, carried out one by one. -/

namespace EntityStore.Tenant

/-- Takes `count` slots and lists the answers; the first failure ends the list. -/
def nextIds : (count : Nat) → (t : Tenant) → Outcome Tenant (List (Except PoolError UInt32))
  | 0, t => ⟨t, [], []⟩
  | count + 1, t =>
    match t.nextId with
    | ⟨t, .error e, log⟩ => ⟨t, [.error e], log⟩
    | ⟨t, .ok id, log⟩ => ((nextIds count t).map (.ok id :: ·)).after log

/-- Registers `count` new items, each with a new state item if `states` is set. The items made for
the call that fails stay. -/
def registerNew (states : Bool) :
    (count : Nat) → (t : Tenant) → (items : Items) →
      Outcome (Tenant × Items) (List (Except PoolError UInt32))
  | 0, t, items => ⟨(t, items), [], []⟩
  | count + 1, t, items =>
    let (item, items) := items.create
    let (stateItem, items) :=
      if states then let (s, items) := items.create; (some s, items) else (none, items)
    match t.register items item stateItem with
    | ⟨(t, items), .error e, log⟩ => ⟨(t, items), [.error e], log⟩
    | ⟨(t, items), .ok id, log⟩ => ((registerNew states count t items).map (.ok id :: ·)).after log

def freeIds (t : Tenant) (items : Items) :
    List UInt32 → Outcome (Tenant × Items) (List (Except PoolError (Option ItemId)))
  | [] => ⟨(t, items), [], []⟩
  | id :: ids =>
    match t.freeId items id with
    | ⟨(t, items), r, log⟩ => ((freeIds t items ids).map (r :: ·)).after log

def idRange (first last : UInt32) : List UInt32 :=
  (List.range' first.toNat (last.toNat - first.toNat)).map UInt32.ofNat

end EntityStore.Tenant
