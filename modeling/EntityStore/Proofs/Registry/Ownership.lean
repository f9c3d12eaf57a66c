import EntityStore.Proofs.Registry.Run

/-! Items of several pools. A tenant knows an item as its own by the number of a tenant and by a
chunk index. Each pool numbers its tenants from 0 on, so the pair tells the tenants of one pool
apart and not those of two. -/

namespace EntityStore
namespace Store
variable {s : Store} {op : Op} {x : ItemId}

def registered? : Op → Answer → Option ItemId
  | .register item _, .taken (.ok _) => some item
  | _, _ => none

def detached? : Answer → Option ItemId
  | .freed _ (.ok item) => item
  | _ => none

theorem place_of_registered (h : s.tenant.closed = false → s.tenant.WF)
    (hop : s.items.admits op = true) (hx : registered? op (s.step op).2 = some x) :
    ∃ id, Role.item.place ((s.step op).1.items.header x) =
      (id, some ⟨s.tenant.id, .ofNat (s.tenant.schema.decode id).1⟩) := by
  cases op with
  | register item stateItem =>
    cases hc : s.tenant.closed with
    | true =>
      simp only [step, Tenant.register, Tenant.allocate_of_closed hc] at hx
      cases hx
    | false =>
      rcases (h hc).register_cases s.items item stateItem with
        ⟨id, u, log, hr, -, -, -⟩ | ⟨e, u, log, hr, -⟩
      · simp only [step, hr] at hx ⊢
        have hitem : Role.item.entry (some item, stateItem) = some x := hx
        have hmark := s.items.place_mark (some item, stateItem) id
          (ChunkRef.unpack_pack_decode s.tenant.schema s.tenant.id id) .item x
        rw [if_pos ⟨hitem, Items.lt_of_admits hop hitem⟩] at hmark
        exact ⟨id, hmark⟩
      · simp only [step, hr] at hx
        cases hx
  | nextId => cases hx
  | freeId id => cases hx
  | freeItem item => cases hx
  | allocateIn chunk => cases hx
  | setHeaders items => cases hx

theorem place_of_freeId (h : s.tenant.WF) {id : UInt32}
    (hx : ∀ item, (s.tenant.freeId s.items id).result = .ok item → item ≠ some x) :
    Role.item.place ((s.tenant.freeId s.items id).state.2.header x) =
      Role.item.place (s.items.header x) := by
  rcases h.freeId_cases s.items id with ⟨freed, u, log, hf, -, -⟩ | ⟨e, log, hf, -⟩
  · rw [hf] at hx ⊢
    refine (s.items.place_mark (freed.item, freed.stateItem) (IdSchema.detach id) rfl .item x).trans
      (if_neg fun hitem => ?_)
    exact hx _ rfl hitem.1
  · rw [hf]

theorem place_step (h : s.tenant.closed = false → s.tenant.WF) (hop : s.items.admits op = true)
    (hreg : registered? op (s.step op).2 ≠ some x) (hdet : detached? (s.step op).2 ≠ some x) :
    Role.item.place ((s.step op).1.items.header x) = Role.item.place (s.items.header x) := by
  cases hc : s.tenant.closed with
  | true => rw [items_step_of_closed hc hop]
  | false =>
    have hwf := h hc
    have hfree {id : UInt32} (hdet : ∀ item, (s.tenant.freeId s.items id).result = .ok item →
        item ≠ some x) := place_of_freeId hwf hdet
    cases op with
    | nextId => rfl
    | register item stateItem =>
      rcases hwf.register_cases s.items item stateItem with
        ⟨id, u, log, hr, -, -, -⟩ | ⟨e, u, log, hr, -⟩
      · simp only [step, hr] at hreg ⊢
        refine (s.items.place_mark (some item, stateItem) id (ChunkRef.unpack_pack_decode
          s.tenant.schema s.tenant.id id) .item x).trans (if_neg fun hitem => ?_)
        exact hreg hitem.1
      · simp only [step, hr]
    | freeId id =>
      refine hfree fun item hr => ?_
      simp only [step, hr] at hdet
      exact hdet
    | freeItem item =>
      simp only [step, Tenant.freeItem] at hdet ⊢
      by_cases howns : s.tenant.owns (s.items.header item) = true
      · rw [if_pos howns] at hdet ⊢
        refine hfree fun item hr => ?_
        rw [hr] at hdet
        exact hdet
      · rw [if_neg howns]
    | allocateIn chunk => rfl
    | setHeaders items => cases hop

end Store

/-- Where items are registered: the numbers of the pool and of its tenant that an item was
registered with last, if it was not detached since and nobody else has written its header. -/
abbrev Owners := ItemId → Option (Nat × Nat)

/-- What the answer to a call on a tenant tells of where items are registered. -/
def Owners.note (owners : Owners) (owner : Nat × Nat) (op : Store.Op) (answer : Store.Answer) :
    Owners := fun x =>
  if Store.registered? op answer = some x then some owner
  else if Store.detached? answer = some x then none
  else owners x

namespace Registry
variable {schema : IdSchema} {r : Registry} {owners : Owners} {k n : Nat} {x : ItemId}

/-- The owners after a step of the pool with a number. -/
def ownersAfter (r : Registry) (k : Nat) (owners : Owners) : Op → Owners
  | .call n op => ((r.answer? n op).map (owners.note (k, n) op)).getD owners
  | _ => owners

theorem Sound.owner_step (h : Sound schema r) (op : Op) {k' : Nat}
    (hx : r.ownersAfter k owners op x = some (k', n)) :
    (k' = k ∧ n < (r.step op).count ∧ ∃ id, (r.step op).place .item x =
      (id, some ⟨.ofNat n, .ofNat (schema.decode id).1⟩)) ∨
    owners x = some (k', n) ∧ (r.step op).place .item x = r.place .item x := by
  cases op with
  | call m op =>
    rcases r.step_call_cases m op with ⟨t, ht, hop, hanswer, hstep⟩ | ⟨hanswer, hstep⟩
    · have hwf := h.wf ht
      rw [ownersAfter, hanswer, Option.map_some, Option.getD_some, Owners.note] at hx
      rw [hstep, count_put]
      split at hx
      · rename_i hreg
        cases hx
        obtain ⟨id, hplace⟩ := Store.place_of_registered hwf hop hreg
        rw [h.id ht, h.schema ht] at hplace
        exact .inl ⟨rfl, lt_count ht, id, hplace⟩
      · rename_i hreg
        split at hx
        · cases hx
        · rename_i hdet
          exact .inr ⟨hx, Store.place_step hwf hop hreg hdet⟩
    · rw [ownersAfter, hanswer] at hx
      rw [hstep]
      exact .inr ⟨hx, rfl⟩
  | newItem => exact .inr ⟨hx, r.keeps_newItem.place .item x⟩
  | newTenant => exact .inr ⟨hx, h.newTenant.2.place .item x⟩
  | closeTenant n => exact .inr ⟨hx, (h.closeTenant n).2.place .item x⟩
  | removeTenant id => exact .inr ⟨hx, (h.removeTenant id).2.place .item x⟩
  | close => exact .inr ⟨hx, h.close.2.place .item x⟩

end Registry

/-- Pools of one process, over the items that they share. -/
structure Cluster where
  pools : Array Pool := #[]
  items : Items := {}

namespace Cluster

inductive Op where
  | newPool (schema : IdSchema)
  | inPool (k : Nat) (op : Registry.Op)
  /-- The holder of an item writes its header. -/
  | setHeader (y : ItemId) (h : Header)

def registryAt? (c : Cluster) (k : Nat) : Option Registry := (c.pools[k]?).map (⟨·, c.items⟩)

def tenant? (c : Cluster) (k n : Nat) : Option Tenant := (c.registryAt? k).bind (·.tenant? n)

def put (c : Cluster) (k : Nat) (r : Registry) : Cluster :=
  ⟨c.pools.setIfInBounds k r.pool, r.items⟩

def step (c : Cluster) : Op → Cluster
  | .newPool schema => { c with pools := c.pools.push { schema } }
  | .inPool k op => ((c.registryAt? k).map fun r => c.put k (r.step op)).getD c
  | .setHeader y h => { c with items := c.items.modify y fun _ => h }

def ownersAfter (c : Cluster) (owners : Owners) : Op → Owners
  | .newPool _ => owners
  | .inPool k op => ((c.registryAt? k).map fun r => r.ownersAfter k owners op).getD owners
  | .setHeader y _ => fun x => if x = y then none else owners x

/-- The pools and the owners of the items after a run. -/
def run (ops : List Op) : Cluster × Owners :=
  ops.foldl (fun s op => (s.1.step op, s.1.ownersAfter s.2 op)) ({}, fun _ => none)

theorem run_concat (ops : List Op) (op : Op) :
    run (ops ++ [op]) = ((run ops).1.step op, (run ops).1.ownersAfter (run ops).2 op) :=
  List.foldl_concat ..

/-- All pools are sound, and the header of an item that has an owner names the number of the tenant
and the chunk that the layout of its pool reads from the identifier. -/
structure Sound (c : Cluster) (owners : Owners) : Prop where
  pools : ∀ {k r}, c.registryAt? k = some r → Registry.Sound r.pool.schema r
  owned : ∀ {x k n}, owners x = some (k, n) → ∃ r id, c.registryAt? k = some r ∧ n < r.count ∧
    r.place .item x = (id, some ⟨.ofNat n, .ofNat (r.pool.schema.decode id).1⟩)

variable {c : Cluster} {owners : Owners} {k n m : Nat} {r s : Registry} {t : Tenant} {x : ItemId}

theorem place_eq (h : c.registryAt? k = some r) (role : Role) (x : ItemId) :
    r.place role x = role.place (c.items.header x) := by
  obtain ⟨pool, -, rfl⟩ := Option.map_eq_some_iff.1 h
  rfl

theorem registryAt?_put (h : c.registryAt? k = some r) (s : Registry) (j : Nat) :
    (c.put k s).registryAt? j =
      if j = k then some s else (c.registryAt? j).map fun r => ⟨r.pool, s.items⟩ := by
  obtain ⟨pool, hpool, -⟩ := Option.map_eq_some_iff.1 h
  have hk : k < c.pools.size := (Array.getElem?_eq_some_iff.1 hpool).1
  unfold registryAt? put
  rw [Array.getElem?_setIfInBounds, Option.map_map]
  by_cases hjk : j = k
  · rw [if_pos hjk.symm, if_pos (hjk ▸ hk), if_pos hjk]
    rfl
  · rw [if_neg (Ne.symm hjk), if_neg hjk]
    rfl

theorem Sound.newPool (h : c.Sound owners) (schema : IdSchema) :
    (c.step (.newPool schema)).Sound owners := by
  have hold {j : Nat} {r : Registry} (hr : c.registryAt? j = some r) :
      (c.step (.newPool schema)).registryAt? j = some r := by
    obtain ⟨pool, hpool, rfl⟩ := Option.map_eq_some_iff.1 hr
    have hj : j < c.pools.size := (Array.getElem?_eq_some_iff.1 hpool).1
    rw [registryAt?, step, Array.getElem?_push, if_neg (Nat.ne_of_lt hj), hpool]
    rfl
  refine ⟨fun {j r} hr => ?_, fun hx => ?_⟩
  · obtain ⟨pool, hpool, rfl⟩ := Option.map_eq_some_iff.1 hr
    rw [step, Array.getElem?_push] at hpool
    split at hpool
    · cases hpool
      exact ⟨rfl, nofun, nofun, nofun⟩
    · exact h.pools (Option.map_eq_some_iff.2 ⟨pool, hpool, rfl⟩)
  · obtain ⟨r, id, hr, hrest⟩ := h.owned hx
    exact ⟨r, id, hold hr, hrest⟩

theorem Sound.inPool (h : c.Sound owners) (hr : c.registryAt? k = some r) (op : Registry.Op) :
    (c.put k (r.step op)).Sound (r.ownersAfter k owners op) := by
  obtain ⟨hsound, hchange⟩ := (h.pools hr).step op
  refine ⟨fun {j s} hs => ?_, fun {x j n} hx => ?_⟩
  · rw [registryAt?_put hr] at hs
    split at hs
    · cases hs
      rw [hsound.pool]
      exact hsound
    · obtain ⟨s', hs', rfl⟩ := Option.map_eq_some_iff.1 hs
      exact (h.pools hs').of_tenants rfl rfl
  · rcases (h.pools hr).owner_step op hx with ⟨rfl, hlt, id, hplace⟩ | ⟨hx, hplace⟩
    · refine ⟨r.step op, id, ?_, hlt, ?_⟩
      · rw [registryAt?_put hr, if_pos rfl]
      · rw [hplace, hsound.pool]
    · obtain ⟨s, id, hs, hlt, hat⟩ := h.owned hx
      by_cases hjk : j = k
      · subst hjk
        obtain rfl : r = s := Option.some.inj (hr.symm.trans hs)
        refine ⟨r.step op, id, ?_, Nat.lt_of_lt_of_le hlt hchange.count_le, ?_⟩
        · rw [registryAt?_put hr, if_pos rfl]
        · rw [hplace, hsound.pool]
          exact hat
      · refine ⟨⟨s.pool, (r.step op).items⟩, id, ?_, hlt, ?_⟩
        · rw [registryAt?_put hr, if_neg hjk, hs]
          rfl
        · rw [place_eq hr, ← place_eq hs] at hplace
          exact hplace.trans hat

theorem Sound.setHeader (h : c.Sound owners) (y : ItemId) (header : Header) :
    (c.step (.setHeader y header)).Sound (c.ownersAfter owners (.setHeader y header)) := by
  have hregistry (j : Nat) : (c.step (.setHeader y header)).registryAt? j =
      (c.registryAt? j).map fun r => ⟨r.pool, c.items.modify y fun _ => header⟩ := by
    rw [registryAt?, registryAt?, Option.map_map]
    rfl
  refine ⟨fun {j r} hr => ?_, fun {x j n} hx => ?_⟩
  · rw [hregistry] at hr
    obtain ⟨s, hs, rfl⟩ := Option.map_eq_some_iff.1 hr
    exact (h.pools hs).of_tenants rfl rfl
  · simp only [ownersAfter] at hx
    split at hx
    · cases hx
    · rename_i hxy
      obtain ⟨s, id, hs, hlt, hplace⟩ := h.owned hx
      have hkept : (c.items.modify y fun _ => header).header x = c.items.header x :=
        (c.items.header_modify? (some y) _ x).trans
          (if_neg fun hy => hxy (Option.some.inj hy.1).symm)
      refine ⟨⟨s.pool, c.items.modify y fun _ => header⟩, id, ?_, hlt, ?_⟩
      · rw [hregistry, hs]
        rfl
      · rw [place_eq hs, ← hkept] at hplace
        exact hplace

theorem sound_run (ops : List Op) : (run ops).1.Sound (run ops).2 := by
  induction ops using List.reverseRecOn with
  | nil => exact ⟨nofun, nofun⟩
  | append_singleton ops op ih =>
    rw [run_concat]
    cases op with
    | newPool schema => exact ih.newPool schema
    | inPool k op =>
      rw [step, ownersAfter]
      cases hr : (run ops).1.registryAt? k with
      | none => exact ih
      | some r => exact ih.inPool hr op
    | setHeader y header => exact ih.setHeader y header

/-- A tenant takes an item for its own if it has the number of the tenant that the item was
registered with and its layout reads the same chunk from the identifier, of whatever pool it is. -/
theorem Sound.owns_iff (h : c.Sound owners) (hcount : ∀ {j r}, c.registryAt? j = some r →
      r.count < UInt32.size) {k' : Nat} (hx : owners x = some (k, n))
    (hr : c.registryAt? k = some r)
    (ht : c.tenant? k' m = some t) :
    t.owns (c.items.header x) = true ↔ m = n ∧
      (t.schema.decode (c.items.header x).id).1 =
        (r.pool.schema.decode (c.items.header x).id).1 := by
  obtain ⟨r', id, hr', hn, hplace⟩ := h.owned hx
  obtain rfl : r = r' := Option.some.inj (hr.symm.trans hr')
  rw [place_eq hr] at hplace
  obtain ⟨hid, hchunk⟩ := Prod.mk.inj hplace
  obtain rfl : (c.items.header x).id = id := hid
  replace hchunk : (c.items.header x).chunk = _ := hchunk
  obtain ⟨s, hs, hm⟩ := Option.bind_eq_some_iff.1 ht
  have htenant : t.id = .ofNat m := (h.pools hs).id hm
  have hnumber : UInt32.ofNat n = UInt32.ofNat m ↔ m = n := by
    rw [← UInt32.toNat_inj, UInt32.toNat_ofNat_of_lt' (Nat.lt_trans hn (hcount hr)),
      UInt32.toNat_ofNat_of_lt' (Nat.lt_trans (Registry.lt_count hm) (hcount hs))]
    exact eq_comm
  unfold Tenant.owns
  rw [hchunk]
  simp only [Bool.and_eq_true, beq_iff_eq, htenant, hnumber,
    (r.pool.schema.toNat_ofNat_decode_fst _).1]
  exact and_congr_right fun _ => eq_comm

/-- At any time of any run, as long as there are tenant numbers left, an item that was registered
with one tenant is refused by every tenant of another number, which stays as it was. A tenant of
another pool that has the same number looks at the chunk only, and frees whatever it has at the
identifier. -/
theorem freeItem_of_run (ops : List Op)
    (hcount : ∀ pool ∈ (run ops).1.pools, pool.tenants.size < UInt32.size) {k' : Nat} {p : Pool}
    (hx : (run ops).2 x = some (k, n)) (hp : (run ops).1.pools[k]? = some p)
    (ht : (run ops).1.tenant? k' m = some t) :
    t.freeItem (run ops).1.items x =
      if m = n ∧ (t.schema.decode ((run ops).1.items.header x).id).1 =
          (p.schema.decode ((run ops).1.items.header x).id).1
      then t.freeId (run ops).1.items ((run ops).1.items.header x).id
      else ⟨(t, (run ops).1.items), .error (.invalidId ((run ops).1.items.header x).id),
        [.foreignRefused t.id ((run ops).1.items.header x).id]⟩ := by
  have hbound {j : Nat} {r : Registry} (hr : (run ops).1.registryAt? j = some r) :
      r.count < UInt32.size := by
    obtain ⟨pool, hpool, rfl⟩ := Option.map_eq_some_iff.1 hr
    exact hcount pool (Array.mem_of_getElem? hpool)
  have hr : (run ops).1.registryAt? k = some ⟨p, (run ops).1.items⟩ := by
    rw [registryAt?, hp]
    rfl
  have howns := (sound_run ops).owns_iff hbound hx hr ht
  unfold Tenant.freeItem
  simp only [howns]

/-- Two tenants of one pool. -/
theorem freeItem_of_run_neighbour :
    let s := run [.newPool ⟨2, by decide, by decide⟩, .inPool 0 .newTenant, .inPool 0 .newTenant,
      .inPool 0 .newItem, .inPool 0 (.call 1 (.register 0 none))]
    ∃ t, s.1.tenant? 0 0 = some t ∧
      t.freeItem s.1.items 0 =
        ⟨(t, s.1.items), .error (.invalidId 0), [.foreignRefused t.id 0]⟩ := by
  intro s
  have hcount : ∀ pool ∈ s.1.pools, pool.tenants.size < UInt32.size := by decide +kernel
  have hx : s.2 0 = some (0, 1) := by decide +kernel
  have hid : (s.1.items.header 0).id = 0 := by decide +kernel
  obtain ⟨p, hp⟩ : ∃ p, s.1.pools[0]? = some p := Option.isSome_iff_exists.1 (by decide +kernel)
  obtain ⟨t, ht⟩ : ∃ t, s.1.tenant? 0 0 = some t := Option.isSome_iff_exists.1 (by decide +kernel)
  refine ⟨t, ht, ?_⟩
  rw [freeItem_of_run _ hcount hx hp ht, if_neg fun hsame => absurd hsame.1 (by decide), hid]

/-- Two tenants of two pools. The first frees the item of the second, and gives up a slot of its
own. -/
theorem freeItem_of_twin :
    let s := run [.newPool ⟨2, by decide, by decide⟩, .newPool ⟨2, by decide, by decide⟩,
      .inPool 0 .newTenant, .inPool 1 .newTenant, .inPool 0 .newItem, .inPool 0 .newItem,
      .inPool 0 (.call 0 (.register 0 none)), .inPool 1 (.call 0 (.register 1 none))]
    s.2 1 = some (1, 0) ∧ ((s.1.tenant? 0 0).bind (·.get? 0)) = some 0 ∧
      ((s.1.tenant? 0 0).map fun t => (t.freeItem s.1.items 1).result) = some (.ok (some 0)) ∧
      ((s.1.tenant? 0 0).bind fun t => (t.freeItem s.1.items 1).state.1.get? 0) = none := by
  decide +kernel

end Cluster
end EntityStore
