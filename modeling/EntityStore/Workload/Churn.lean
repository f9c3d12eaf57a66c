import EntityStore.Tenant.Allocation
import EntityStore.Tenant.Release
import EntityStore.Tenant.Pass

/-! Churn: a tenant whose items are deleted and replaced over and over. Which items are deleted is
the choice of whoever runs it; the number of items stays the same. -/

namespace EntityStore.Workload

structure Churn where
  tenant : Tenant
  items : Items := {}
  live : Array UInt32 := #[]

namespace Churn

/-- Registers new items. The value of an item is its number. -/
def create (c : Churn) : (count : Nat) → Except PoolError Churn
  | 0 => .ok c
  | count + 1 =>
    let (item, items) := c.items.create
    match c.tenant.register items item none with
    | ⟨_, .error e, _⟩ => .error e
    | ⟨(tenant, items), .ok id, _⟩ => create { tenant, items, live := c.live.push id } count

def free (c : Churn) : List UInt32 → Except PoolError Churn
  | [] => .ok c
  | id :: ids =>
    match c.tenant.freeId c.items id with
    | ⟨_, .error e, _⟩ => .error e
    | ⟨(tenant, items), .ok _, _⟩ => free { c with tenant, items } ids

/-- A tenant with as many items as stay in use. -/
def start (schema : IdSchema) (count : Nat) : Except PoolError Churn :=
  create { tenant := .create 0 schema } count

/-- The number of items that a round replaces: a share of them, in hundredths, without its
fraction. -/
def share (percent live : Nat) : Nat :=
  (Float.ofNat live * (Float.ofNat percent / 100)).toUInt64.toNat

/-- Brings the items in use into an order and replaces the first `count`. -/
def round (order : Array UInt32 → Array UInt32) (count : Nat) (c : Churn) :
    Except PoolError Churn :=
  let live := order c.live
  ({ c with live := live.extract count live.size }.free (live.extract 0 count).toList).bind
    (·.create count)

/-- Takes the identifier at an index out of the list; the last one takes its place. -/
def pick (c : Churn) (i : Nat) : Option (UInt32 × Churn) :=
  (c.live[i]?).map fun id =>
    (id, { c with live := (c.live.swapIfInBounds i (c.live.size - 1)).pop })

def freeAt (c : Churn) : List Nat → Except PoolError Churn
  | [] => .ok c
  | i :: picks =>
    match c.pick i with
    | none => c.freeAt picks
    | some (id, c) => (c.free [id]).bind (·.freeAt picks)

/-- Deletes items one by one and then creates as many. -/
def punchHoles (picks : List Nat) (c : Churn) : Except PoolError Churn :=
  (c.freeAt picks).bind (·.create picks.length)

def valueSum (c : Churn) : UInt64 := c.tenant.items.foldl (fun sum item => sum + .ofNat item) 0

end Churn
end EntityStore.Workload
