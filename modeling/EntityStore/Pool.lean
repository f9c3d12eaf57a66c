import EntityStore.Tenant.Basic

/-! Pools. A pool creates tenants with one identifier layout and finds them by their ids as long as
they are its members. Ids are words and begin again after the last one: a tenant that gets the id of
a member takes its place. A tenant is known by its number in the order of creation, and who holds
the number can use the tenant when it is no member any more. -/

namespace EntityStore

structure Pool where
  schema : IdSchema
  /-- All tenants ever created, by number. -/
  tenants : Array Tenant := #[]
  /-- The numbers of the members in ascending order. No two of them have the same id. -/
  members : List Nat := []
  closed : Bool := false

namespace Pool

/-- The id of the tenant with a number. -/
def idOf (n : Nat) : UInt32 := .ofNat n

def find? (p : Pool) (id : UInt32) : Option Nat := p.members.find? (idOf · == id)

def tenantCount (p : Pool) : Nat := p.members.length

def withTenant {ρ : Type} (p : Pool) (n : Nat) (f : Tenant → Outcome Tenant ρ) :
    Option (Outcome Pool ρ) :=
  (p.tenants[n]?).map fun t =>
    let o := f t
    ⟨{ p with tenants := p.tenants.setIfInBounds n o.state }, o.result, o.log⟩

/-- An operation on the tenant with a number that also changes items. -/
def withItems {ρ : Type} (p : Pool) (items : Items) (n : Nat)
    (f : Tenant → Items → Outcome (Tenant × Items) ρ) : Option (Outcome (Pool × Items) ρ) :=
  (p.tenants[n]?).map fun t =>
    let o := f t items
    ⟨({ p with tenants := p.tenants.setIfInBounds n o.state.1 }, o.state.2), o.result, o.log⟩

/-- Creates a tenant with an empty first chunk, enters it under its id and answers with its number.
A member with the same id is dropped, but not closed. -/
def newTenant (p : Pool) : Outcome Pool (Except PoolError Nat) :=
  if p.closed then ⟨p, .error .closed, []⟩
  else
    let n := p.tenants.size
    let t := Tenant.create (idOf n) p.schema
    let others := p.members.filter (idOf · != t.id)
    ⟨{ p with tenants := p.tenants.push t, members := others ++ [n] }, .ok n,
      [.tenantCreated t.id p.schema]⟩

/-- Closes a tenant, whether it is a member or not. It stays a member if it was one. -/
def closeTenant (p : Pool) (n : Nat) : Outcome Pool Unit :=
  (p.withTenant n Tenant.close).getD ⟨p, (), []⟩

def removeTenant (p : Pool) (id : UInt32) : Outcome Pool (Option Nat) :=
  match p.find? id with
  | none => ⟨p, none, []⟩
  | some n => ({ p with members := p.members.erase n }.closeTenant n).map fun _ => some n

def closeTenants (p : Pool) : List Nat → Outcome Pool Unit
  | [] => ⟨p, (), []⟩
  | n :: rest =>
    let o := p.closeTenant n
    (o.state.closeTenants rest).after o.log

/-- Closes and removes all members and refuses new ones. Closing again does nothing. -/
def close (p : Pool) : Outcome Pool Unit :=
  if p.closed then ⟨p, (), []⟩
  else
    let o := { p with closed := true, members := [] }.closeTenants p.members
    { o with log := o.log ++ [.poolClosed] }

end Pool
end EntityStore
