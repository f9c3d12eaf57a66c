import EntityStore.Config.Basic
import EntityStore.IntMap
import EntityStore.Layout
import EntityStore.Pool

/-! Repositories. A repository gives every set of component types one composition: the layout of its
components and the tenant of its entities. Sets are the nodes of a graph, with a link for each type
that was added to them, and a request walks from the empty set to its own type by type. A link that
is not there yet leads to the node under the ascending list of the codes. -/

namespace EntityStore

/-- The storage of the entities with one set of component types. -/
structure Composition (κ : Type) where
  hash : UInt64
  layout : Layout κ
  tenant : Nat
  deriving DecidableEq, Repr

namespace Composition
variable {κ α : Type} [BEq κ]

def hasType (c : Composition κ) (type : κ) : Bool := c.layout.contains type

def sort (c : Composition κ) (type : α → κ) (components : List α) : List α :=
  c.layout.sort type components

end Composition

/-- A set of component types that requests came by. -/
structure Node (κ : Type) where
  /-- The types by code. -/
  types : IntMap κ
  /-- The number of the node with one type more, by the code of that type. -/
  links : IntMap Nat := {}
  composition : Option (Composition κ) := none

instance {κ : Type} : Inhabited (Node κ) := ⟨{ types := {} }⟩

structure Repository (κ : Type) where
  config : Config
  index : ClassIndex κ
  pool : Pool
  /-- The nodes by number; node 0 is the empty set. -/
  nodes : Array (Node κ)
  /-- The numbers of the nodes under the ascending lists of their codes. -/
  table : Std.TreeMap (List UInt32) Nat

namespace Repository
variable {κ : Type} [BEq κ] [Hashable κ]

/-- Builds the class index and the pool of a configuration, and the node of the empty set. -/
def create (config : Config) : Except ConfigError (Repository κ × List Event) := do
  config.validate
  let (index, log) ← config.classIndex κ
  let schema ← config.idSchema
  return ({ config, index, pool := { schema }, nodes := #[{ types := {} }],
            table := Std.TreeMap.empty.insert [] 0 }, log ++ [.repositoryOpened config.summary])

/-- The number of sets that requests came by, the empty one included. -/
def nodeCount (r : Repository κ) : Nat := r.table.size

def node (r : Repository κ) (n : Nat) : Node κ := r.nodes[n]?.getD default

def modifyNode (r : Repository κ) (n : Nat) (f : Node κ → Node κ) : Repository κ :=
  { r with nodes := r.nodes.modify n f }

/-- The composition of a node, made on first use. -/
def compositionOf (r : Repository κ) (n : Nat) :
    Outcome (Repository κ) (Except Error (Composition κ)) :=
  let node := r.node n
  match node.composition with
  | some c => ⟨r, .ok c, []⟩
  | none =>
    match Layout.create r.index node.types.values with
    | ⟨index, .error e, log⟩ => ⟨{ r with index }, .error (.index e), log⟩
    | ⟨index, .ok layout, log⟩ =>
      match r.pool.newTenant with
      | ⟨pool, .error e, log'⟩ => ⟨{ r with index, pool }, .error (.pool e), log ++ log'⟩
      | ⟨pool, .ok tenant, log'⟩ =>
        let c : Composition κ := { hash := node.types.hash, layout, tenant }
        ⟨{ r with index, pool }.modifyNode n ({ · with composition := some c }), .ok c,
          log ++ log' ++ [.compositionCreated c.hash layout.size (.ofNat tenant)]⟩

/-- The node of a set of types by code, made on first use. -/
def nodeOf (r : Repository κ) (types : IntMap κ) : Nat × Repository κ :=
  let key := types.keys
  match r.table[key]? with
  | some n => (n, r)
  | none =>
    let n := r.nodes.size
    (n, { r with nodes := r.nodes.push { types }, table := r.table.insert key n })

/-- The node of a node's set with one type more. -/
def link (r : Repository κ) (n : Nat) (type : κ) :
    Outcome (Repository κ) (Except IndexError Nat) :=
  match r.index.getOrAdd type with
  | ⟨index, .error e, log⟩ => ⟨{ r with index }, .error e, log⟩
  | ⟨index, .ok code, log⟩ =>
    let r := { r with index }
    let node := r.node n
    if node.types.contains code then ⟨r, .ok n, log⟩
    else match node.links.get? code with
      | some m => ⟨r, .ok m, log⟩
      | none =>
        let (m, r) := r.nodeOf (node.types.clone.put code type).2
        ⟨r.modifyNode n fun node => { node with links := (node.links.put code m).2 }, .ok m, log⟩

/-- Follows the links of types, one after the other. -/
def walk (r : Repository κ) (n : Nat) :
    List κ → Outcome (Repository κ) (Except IndexError Nat)
  | [] => ⟨r, .ok n, []⟩
  | type :: rest =>
    match r.link n type with
    | ⟨r, .error e, log⟩ => ⟨r, .error e, log⟩
    | ⟨r, .ok n, log⟩ => (r.walk n rest).after log

def root (r : Repository κ) : Outcome (Repository κ) (Except Error (Composition κ)) :=
  r.compositionOf 0

/-- The composition of a set of distinct types, whatever their order. A list that repeats a type is
refused before any node is made. -/
def getOrCreate (r : Repository κ) (types : List κ) :
    Outcome (Repository κ) (Except Error (Composition κ)) :=
  match r.index.setHash types with
  | ⟨index, .error e, log⟩ => ⟨{ r with index }, .error (.index e), log⟩
  | ⟨index, .ok _, log⟩ =>
    match { r with index }.walk 0 types with
    | ⟨r, .error e, log'⟩ => ⟨r, .error (.index e), log ++ log'⟩
    | ⟨r, .ok n, log'⟩ => (r.compositionOf n).after (log ++ log')

def close (r : Repository κ) : Outcome (Repository κ) Unit :=
  let p := r.pool.close
  let x := r.index.close
  ⟨{ r with pool := p.state, index := x.state }, (), p.log ++ x.log⟩

end Repository
end EntityStore
