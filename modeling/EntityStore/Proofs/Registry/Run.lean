import EntityStore.Proofs.Registry.Change
import Mathlib.Data.List.Induction

/-! Runs of a pool. Items are registered and freed in any of its tenants, in any order and also
while they are registered elsewhere; headers follow as far as they can. -/

namespace EntityStore

/-- A call on a tenant, as an operation on the tenant and the items. -/
def Store.call (op : Store.Op) (t : Tenant) (items : Items) :
    Outcome (Tenant × Items) Store.Answer :=
  let (s, answer) := Store.step ⟨t, items⟩ op
  ⟨(s.tenant, s.items), answer, []⟩

namespace Registry

inductive Op where
  | newItem
  | newTenant
  /-- A call on the tenant with a number, which may have been closed or removed before. -/
  | call (n : Nat) (op : Store.Op)
  | closeTenant (n : Nat)
  | removeTenant (id : UInt32)
  | close

def create (schema : IdSchema) : Registry := { pool := { schema } }

/-- One step. A call that nobody can make with the items there are changes nothing. -/
def step (r : Registry) : Op → Registry
  | .newItem => { r with items := r.items.create.2 }
  | .newTenant => { r with pool := r.pool.newTenant.state }
  | .call n op =>
    if r.items.admits op then
      match r.pool.withItems r.items n (Store.call op) with
      | some o => ⟨o.state.1, o.state.2⟩
      | none => r
    else r
  | .closeTenant n => { r with pool := (r.pool.closeTenant n).state }
  | .removeTenant id => { r with pool := (r.pool.removeTenant id).state }
  | .close => { r with pool := r.pool.close.state }

def run (r : Registry) (ops : List Op) : Registry := ops.foldl step r

variable {schema : IdSchema} {r s : Registry} {role : Role} {n : Nat} {id : UInt32} {t : Tenant}
  {x : ItemId} {ops : List Op} {op : Op}

theorem run_concat (r : Registry) (ops : List Op) (op : Op) :
    r.run (ops ++ [op]) = (r.run ops).step op :=
  List.foldl_concat ..

/-! ### Steps of the pool -/

theorem keeps_of_tenants (ht : s.pool.tenants = r.pool.tenants) (hi : s.items = r.items) :
    r.Keeps s := by
  have htenant (n : Nat) : s.tenant? n = r.tenant? n := by rw [tenant?, ht, tenant?]
  have hget (role : Role) (n : Nat) (id : UInt32) : s.get? role n id = r.get? role n id := by
    rw [get?, htenant, get?]
  refine ⟨Nat.le_of_eq (congrArg Array.size ht).symm, fun role x => ?_, fun hx => ?_,
    fun ho _ => ?_⟩
  · rw [place, hi, place]
  · rwa [hget] at hx
  · obtain ⟨t, hn, hc⟩ := ho
    exact ⟨⟨t, htenant _ ▸ hn, hc⟩, fun role id => hget role _ id⟩

theorem Sound.of_tenants (h : Sound schema r) (ht : s.pool.tenants = r.pool.tenants)
    (hs : s.pool.schema = r.pool.schema) : Sound schema s := by
  have htenant (n : Nat) : s.tenant? n = r.tenant? n := by rw [tenant?, ht, tenant?]
  refine ⟨hs.trans h.pool, fun hn => ?_, fun hn => ?_, fun hn => ?_⟩ <;> rw [htenant] at hn
  · exact h.id hn
  · exact h.schema hn
  · exact h.wf hn

theorem Sound.closeTenant (h : Sound schema r) (n : Nat) :
    Sound schema (r.step (.closeTenant n)) ∧ r.Keeps (r.step (.closeTenant n)) := by
  cases ht : r.tenant? n with
  | none =>
    have hpool : (r.pool.closeTenant n).state = r.pool := by
      have hn : r.pool.tenants[n]? = none := ht
      rw [Pool.closeTenant, Pool.withTenant, hn]
      rfl
    rw [step, hpool]
    exact ⟨h, .refl r⟩
  | some t =>
    have hput : r.step (.closeTenant n) = r.put n t.close.state r.items := by
      have hn : r.pool.tenants[n]? = some t := ht
      rw [step, Pool.closeTenant, Pool.withTenant, hn]
      rfl
    have hc := t.closed_close
    rw [hput]
    refine ⟨h.put ht t.id_close t.schema_close (fun ho => ?_) r.items, keeps_put_closed ht hc⟩
    rw [hc] at ho
    cases ho

theorem Sound.closeTenants (h : Sound schema r) (ns : List Nat) :
    Sound schema { r with pool := (r.pool.closeTenants ns).state } ∧
      r.Keeps { r with pool := (r.pool.closeTenants ns).state } := by
  induction ns generalizing r with
  | nil => exact ⟨h, .refl r⟩
  | cons n ns ih =>
    obtain ⟨hsound, hkeeps⟩ := h.closeTenant n
    obtain ⟨hsound', hkeeps'⟩ := ih hsound
    exact ⟨hsound', hkeeps.trans hkeeps'⟩

theorem Sound.removeTenant (h : Sound schema r) (id : UInt32) :
    Sound schema (r.step (.removeTenant id)) ∧ r.Keeps (r.step (.removeTenant id)) := by
  rw [step, Pool.removeTenant]
  split
  · exact ⟨h, .refl r⟩
  · rename_i n _
    have hkeeps : r.Keeps { r with pool := { r.pool with members := r.pool.members.erase n } } :=
      keeps_of_tenants rfl rfl
    obtain ⟨hsound', hkeeps'⟩ := (h.of_tenants rfl rfl : Sound schema
      { r with pool := { r.pool with members := r.pool.members.erase n } }).closeTenant n
    exact ⟨hsound', hkeeps.trans hkeeps'⟩

theorem Sound.close (h : Sound schema r) :
    Sound schema (r.step .close) ∧ r.Keeps (r.step .close) := by
  rw [step, Pool.close]
  split
  · exact ⟨h, .refl r⟩
  · have hkeeps : r.Keeps { r with pool := { r.pool with closed := true, members := [] } } :=
      keeps_of_tenants rfl rfl
    obtain ⟨hsound', hkeeps'⟩ := (h.of_tenants rfl rfl : Sound schema
      { r with pool := { r.pool with closed := true, members := [] } }).closeTenants r.pool.members
    exact ⟨hsound', hkeeps.trans hkeeps'⟩

theorem Sound.newTenant (h : Sound schema r) :
    Sound schema (r.step .newTenant) ∧ r.Keeps (r.step .newTenant) := by
  rw [step, Pool.newTenant]
  split
  · exact ⟨h, .refl r⟩
  · have hcases {n : Nat} {t : Tenant} (hn : (r.pool.tenants.push
        (.create (.ofNat r.pool.tenants.size) r.pool.schema))[n]? = some t) :
        n = r.count ∧ t = .create (.ofNat n) schema ∨ r.tenant? n = some t := by
      rw [Array.getElem?_push, h.pool] at hn
      split at hn
      · rename_i heq
        exact .inl ⟨heq, heq ▸ (Option.some.inj hn).symm⟩
      · exact .inr hn
    refine ⟨⟨h.pool, fun hn => ?_, fun hn => ?_, fun hn => ?_⟩, ?_, fun _ _ => rfl, ?_, ?_⟩
    · rcases hcases hn with ⟨-, rfl⟩ | hn
      · rfl
      · exact h.id hn
    · rcases hcases hn with ⟨-, rfl⟩ | hn
      · rfl
      · exact h.schema hn
    · rcases hcases hn with ⟨-, rfl⟩ | hn
      · exact fun _ => Tenant.wf_create _ _
      · exact h.wf hn
    · exact Nat.le_of_lt (Nat.lt_of_lt_of_eq (Nat.lt_succ_self _) (Array.size_push ..).symm)
    · intro role n id x hx
      obtain ⟨t, hn, hget⟩ := exists_of_get? hx
      rcases hcases hn with ⟨-, rfl⟩ | hn
      · rw [role.get?_eq (Tenant.wf_create _ _), Tenant.ledger_create] at hget
        cases hget
      · exact (get?_eq hn role id).trans hget
    · intro n ho hlt
      obtain ⟨t, hn, hc⟩ := ho
      rcases hcases hn with ⟨rfl, -⟩ | hn'
      · exact absurd hlt (Nat.lt_irrefl _)
      · refine ⟨⟨t, hn', hc⟩, fun role id => ?_⟩
        rw [get?_eq hn, get?_eq hn']

theorem keeps_newItem (r : Registry) : r.Keeps (r.step .newItem) where
  count_le := Nat.le_refl _
  place role x := congrArg role.place (r.items.header_create x)
  found h := h
  stays h _ := ⟨h, fun _ _ => rfl⟩

/-- The answer of a call on a tenant, if there is the tenant and the call can be made. -/
def answer? (r : Registry) (n : Nat) (op : Store.Op) : Option Store.Answer :=
  if r.items.admits op then (r.tenant? n).map fun t => (Store.step ⟨t, r.items⟩ op).2 else none

theorem step_call_cases (r : Registry) (n : Nat) (op : Store.Op) :
    (∃ t, r.tenant? n = some t ∧ r.items.admits op = true ∧
      r.answer? n op = some (Store.step ⟨t, r.items⟩ op).2 ∧
      r.step (.call n op) = r.put n (Store.step ⟨t, r.items⟩ op).1.tenant
        (Store.step ⟨t, r.items⟩ op).1.items) ∨
    r.answer? n op = none ∧ r.step (.call n op) = r := by
  rw [step, answer?]
  by_cases hop : r.items.admits op = true
  · rw [if_pos hop, if_pos hop]
    cases ht : r.tenant? n with
    | none =>
      right
      have hn : r.pool.tenants[n]? = none := ht
      rw [Pool.withItems, hn]
      exact ⟨rfl, rfl⟩
    | some t =>
      left
      have hn : r.pool.tenants[n]? = some t := ht
      rw [Pool.withItems, hn]
      exact ⟨t, rfl, hop, rfl, rfl⟩
  · right
    rw [if_neg hop, if_neg hop]
    exact ⟨rfl, rfl⟩

theorem Sound.call (h : Sound schema r) (n : Nat) (op : Store.Op) :
    Sound schema (r.step (.call n op)) ∧ Change schema r (r.step (.call n op)) := by
  rcases r.step_call_cases n op with ⟨t, ht, hop, -, hstep⟩ | ⟨-, hstep⟩
  · have hmoves := Store.step_moves (s := ⟨t, r.items⟩) (h.wf ht) hop
    obtain ⟨hid, hschema, hwf⟩ := hmoves.same
    rw [hstep]
    exact ⟨h.put ht hid hschema hwf _, h.change_put ht hmoves⟩
  · rw [hstep]
    exact ⟨h, .keeps (.refl r)⟩

theorem Sound.step (h : Sound schema r) (op : Op) :
    Sound schema (r.step op) ∧ Change schema r (r.step op) := by
  cases op with
  | newItem => exact ⟨h.of_tenants rfl rfl, .keeps (keeps_newItem r)⟩
  | newTenant => exact h.newTenant.imp_right .keeps
  | call n op => exact h.call n op
  | closeTenant n => exact (h.closeTenant n).imp_right .keeps
  | removeTenant id => exact (h.removeTenant id).imp_right .keeps
  | close => exact h.close.imp_right .keeps

end Registry
end EntityStore
