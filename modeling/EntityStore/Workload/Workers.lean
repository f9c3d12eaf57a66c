import EntityStore.Key
import EntityStore.Repository
import EntityStore.Tenant.Batch
import EntityStore.Tenant.Pass

/-! Workers that share one structure. What they find in the end does not depend on how their steps
mix, so one works after the other here. -/

namespace EntityStore.Workload

def distinct (ids : List UInt32) : Nat :=
  (ids.foldl (fun (m : IntMap Unit) id => (m.put id ()).2) {}).size

def allEqual {α : Type} [BEq α] : List α → Bool
  | [] => true
  | a :: rest => rest.all (· == a)

/-- A tenant, its items, and the identifiers that workers took from it and kept. -/
structure SlotRun where
  tenant : Tenant
  items : Items := {}
  kept : Array UInt32 := #[]

namespace SlotRun

def greatest? (r : SlotRun) : Option UInt32 := r.kept.toList.max?

def matchesPositions (r : SlotRun) : Bool := r.tenant.positions == sortCodes r.kept.toList

def allocate (schema : IdSchema) (workers count : Nat) : SlotRun :=
  let o := Tenant.nextIds (workers * count) (.create 0 schema)
  { tenant := o.state, kept := (o.result.filterMap fun r => r.toOption).toArray }

/-- A round of one worker: an item is registered, and in every third round one of those that the
worker still keeps is freed. -/
def round (r : SlotRun) (n : Nat) : SlotRun :=
  let (item, items) := r.items.create
  match r.tenant.register items item none with
  | ⟨(tenant, items), .error _, _⟩ => { r with tenant, items }
  | ⟨(tenant, items), .ok id, _⟩ =>
    let kept := r.kept.push id
    if n % 3 = 2 then
      let i := n % kept.size
      let o := tenant.freeId items (kept.getD i 0)
      ⟨o.state.1, o.state.2, (kept.swapIfInBounds i (kept.size - 1)).pop⟩
    else ⟨tenant, items, kept⟩

def churn (schema : IdSchema) (workers count : Nat) : SlotRun :=
  let work (r : SlotRun) (_ : Nat) : SlotRun :=
    let s := (List.range count).foldl round { r with kept := #[] }
    { s with kept := r.kept ++ s.kept }
  (List.range workers).foldl work { tenant := .create 0 schema }

end SlotRun

/-- The codes that the workers got, worker by worker, and the index in the end. -/
structure IndexRun where
  codes : List (Except IndexError (List UInt32))
  index : ClassIndex Key

namespace IndexRun

/-- Each worker asks for the codes of the same `count` keys. -/
def run (hashBits workers count : Nat) : Except ConfigError IndexRun :=
  (ClassIndex.create hashBits).map fun (index, _) =>
    let keys := (List.range count).map fun n => Key.word32 (.ofNat n)
    let work (r : IndexRun) (_ : Nat) : IndexRun :=
      let o := r.index.getOrAddAll keys
      ⟨r.codes ++ [o.result], o.state⟩
    (List.range workers).foldl work ⟨[], index⟩

def agree (r : IndexRun) : Bool := allEqual (r.codes.map fun codes => codes.toOption)

def isDense (r : IndexRun) (count : Nat) : Bool :=
  r.codes.all fun codes =>
    codes.toOption.map sortCodes == some ((List.range' 1 count).map UInt32.ofNat)

end IndexRun

/-- The values that the workers got from a map, and how often a value was computed. -/
structure MapRun where
  values : List (List UInt32) := []
  calls : Nat := 0
  map : IntMap UInt32 := {}

namespace MapRun

/-- Asks for keys, whose values are computed from them where they have none. -/
def ask (calls : Nat) (map : IntMap UInt32) : List UInt32 → List UInt32 × Nat × IntMap UInt32
  | [] => ([], calls, map)
  | key :: keys =>
    let (value, called, map) := map.computeIfAbsent key id
    let (values, calls, map) := ask (calls + called.toNat) map keys
    (value :: values, calls, map)

def run (workers count : Nat) : MapRun :=
  let keys := (List.range count).map UInt32.ofNat
  let work (r : MapRun) (_ : Nat) : MapRun :=
    let (values, calls, map) := ask r.calls r.map keys
    ⟨values :: r.values, calls, map⟩
  (List.range workers).foldl work {}

def agree (r : MapRun) : Bool := allEqual r.values

end MapRun

/-- The compositions that the workers got, and the repository in the end. -/
structure CompositionRun where
  repository : Repository Key
  answers : List (Except Error (Composition Key))

namespace CompositionRun

/-- Each worker asks for the composition of the same `count` types, in an order of its own. -/
def run (workers count : Nat) : Except ConfigError CompositionRun :=
  let config : Config :=
    { name := "workers", chunkBit := ⟨4, .explicit⟩, classIndexBit := ⟨10, .explicit⟩ }
  (Repository.create config).map fun (repository, _) =>
    let types := (List.range count).map Key.component
    let work (r : CompositionRun) (n : Nat) : CompositionRun :=
      let o := r.repository.getOrCreate (types.rotateLeft n)
      ⟨o.state, r.answers ++ [o.result]⟩
    (List.range workers).foldl work ⟨repository, []⟩

def first? (r : CompositionRun) : Option (Composition Key) := r.answers.head?.bind (·.toOption)

def same (r : CompositionRun) : Bool := allEqual (r.answers.map fun c => c.toOption.map (·.tenant))

end CompositionRun
end EntityStore.Workload
