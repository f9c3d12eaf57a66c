import EntityStore.Proofs.Tenant.Accounting
import EntityStore.Workload.Churn

/-! Churn under any choice of victims. Whatever is deleted, as many items are in use after each call
as there were at the start, and all of them fit into the chunks that they needed then. -/

namespace EntityStore

theorem Tenant.allocated_iff {t : Tenant} {id : UInt32} :
    t.Allocated id ↔ (t.ledger id).isSome := by
  cases hid : IdSchema.isDetached id with
  | true => simp [Allocated, hid, t.ledger_of_isDetached hid]
  | false =>
    rw [t.ledger_of_not_isDetached hid, Allocated]
    constructor
    · rintro ⟨-, c, hc, hl⟩
      rw [slot?_eq hc, Chunk.content?_of_isLive hl]
      rfl
    · intro hs
      obtain ⟨r, hr⟩ := Option.isSome_iff_exists.1 hs
      obtain ⟨c, hc, hcontent⟩ := exists_of_slot? hr
      exact ⟨hid, c, hc, Chunk.isLive_of_content? hcontent⟩

namespace Workload

/-- The identifiers of a list are in use, each with an item, and no others. The tenant has counted
them all, and no more than `peak` were ever in use at once. -/
structure Holds (schema : IdSchema) (t : Tenant) (ids : List UInt32) (peak : Nat) : Prop where
  schema : t.schema = schema
  fitted : Store.Fitted t peak
  behind : Store.Behind t 0
  nodup : ids.Nodup
  length_le : ids.length ≤ peak
  mem_iff : ∀ id, id ∈ ids ↔ (t.ledger id).isSome
  item : ∀ {id r}, t.ledger id = some r → r.1.isSome

namespace Holds
variable {schema : IdSchema} {t : Tenant} {ids ids' : List UInt32} {id : UInt32} {peak : Nat}

theorem perm (h : Holds schema t ids peak) (hp : ids.Perm ids') : Holds schema t ids' peak :=
  { h with
    item := h.item
    nodup := hp.nodup_iff.1 h.nodup
    length_le := hp.length_eq ▸ h.length_le
    mem_iff := fun id => hp.mem_iff.symm.trans (h.mem_iff id) }

theorem perm_positions (h : Holds schema t ids peak) : ids.Perm t.positions := by
  have hnodup : t.positions.Nodup := h.fitted.wf.pairwise_positions.imp UInt32.ne_of_lt
  refine (List.perm_ext_iff_of_nodup h.nodup hnodup).2 fun id => ?_
  rw [h.mem_iff, h.fitted.wf.mem_positions, Tenant.allocated_iff]

theorem liveCount_eq (h : Holds schema t ids peak) : t.liveCount = ids.length :=
  h.fitted.wf.length_positions.symm.trans h.perm_positions.length_eq.symm

theorem length_items (h : Holds schema t ids peak) : t.items.length = ids.length := by
  rw [← h.fitted.wf.filterMap_positions, h.perm_positions.length_eq,
    List.filterMap_length_eq_length]
  intro id hid
  obtain ⟨r, hr⟩ := Option.isSome_iff_exists.1 (Tenant.allocated_iff.1
    (h.fitted.wf.mem_positions.1 hid))
  rw [h.fitted.wf.get?_eq, hr]
  exact h.item hr

theorem item_update (h : Holds schema t ids peak) {v : Option (Option ItemId × Option ItemId)}
    (hv : ∀ r, v = some r → r.1.isSome) {k : UInt32} {r : Option ItemId × Option ItemId}
    (hk : Function.update t.ledger id v k = some r) : r.1.isSome := by
  by_cases heq : k = id
  · rw [heq, Function.update_self] at hk
    exact hv r hk
  · rw [Function.update_of_ne heq] at hk
    exact h.item hk

theorem register (h : Holds schema t ids peak) (hlt : ids.length < IdSchema.detachedBit)
    (items : Items) (item : ItemId) :
    ∃ id u items' log, t.register items item none = ⟨(u, items'), .ok id, log⟩ ∧
      Holds schema u (id :: ids) (max peak (ids.length + 1)) := by
  let s : Store := ⟨t, items⟩
  let op : Store.Op := .register item none
  have hwf := h.fitted.wf
  rcases hwf.register_cases items item none with ⟨id, u, log, hr, hid, hm, hb⟩ | ⟨e, u, log, hr, hb⟩
  · refine ⟨id, u, _, log, hr, ?_⟩
    have hs : (s.step op).1.tenant = u ∧ (s.step op).2 = .taken (.ok id) := by
      simp only [s, op, Store.step, hr, and_self]
    have hcount := hb.liveCount_add_one hwf hid hm
    rw [h.liveCount_eq] at hcount
    have hfitted := Store.Fitted.step (s := s) h.fitted op
    have hbehind := Store.behind_step (s := s) hwf h.behind op
    rw [hs.1] at hfitted
    rw [hs.1, hs.2] at hbehind
    have hnew : id ∉ ids := fun hmem => by
      simpa [hm] using (h.mem_iff id).1 hmem
    refine
      { schema := hb.schema.trans h.schema
        fitted := hcount ▸ hfitted
        behind := hbehind
        nodup := List.nodup_cons.2 ⟨hnew, h.nodup⟩
        length_le := Nat.le_max_right ..
        mem_iff := fun k => ?_
        item := fun {k r} hk => ?_ }
    · rw [List.mem_cons, h.mem_iff, hb.ledger]
      by_cases hk : k = id
      · simp [hk]
      · simp [hk]
    · rw [hb.ledger] at hk
      exact h.item_update (fun r hr => by cases hr; rfl) hk
  · have hs : (s.step op).2 = .taken (.error e) := by
      simp only [s, op, Store.step, hr]
    obtain ⟨-, hfull, -⟩ := (Store.Fitted.optimal (s := s) h.fitted).exhausted op e hs
    have hfull : t.liveCount = IdSchema.detachedBit := hfull
    rw [h.liveCount_eq] at hfull
    omega

theorem freeId (h : Holds schema t (id :: ids) peak) (items : Items) :
    ∃ item u items' log, t.freeId items id = ⟨(u, items'), .ok item, log⟩ ∧
      Holds schema u ids peak := by
  let s : Store := ⟨t, items⟩
  let op : Store.Op := .freeId id
  have hwf := h.fitted.wf
  have hsome := (h.mem_iff id).1 (List.mem_cons_self ..)
  rcases hwf.freeId_cases items id with ⟨freed, u, log, hf, hm, hb⟩ | ⟨e, log, hf, hm⟩
  · refine ⟨freed.item, u, _, log, hf, ?_⟩
    have hs : (s.step op).1.tenant = u ∧ (s.step op).2 = .freed id (.ok freed.item) := by
      simp only [s, op, Store.step, hf, and_self]
    have hcount : ids.length = u.liveCount :=
      Nat.succ.inj (h.liveCount_eq.symm.trans (hb.liveCount_sub_one hwf hm))
    have hfitted := Store.Fitted.step (s := s) h.fitted op
    have hbehind := Store.behind_step (s := s) hwf h.behind op
    obtain ⟨hnew, hnodup⟩ := List.nodup_cons.1 h.nodup
    have hle : ids.length ≤ peak := Nat.le_of_succ_le h.length_le
    rw [hs.1, ← hcount, Nat.max_eq_left hle] at hfitted
    rw [hs.1, hs.2] at hbehind
    refine
      { schema := hb.schema.trans h.schema
        fitted := hfitted
        behind := hbehind
        nodup := hnodup
        length_le := hle
        mem_iff := fun k => ?_
        item := fun {k r} hk => ?_ }
    · rw [hb.ledger]
      by_cases hk : k = id
      · simp [hk, hnew]
      · rw [Function.update_of_ne hk, ← h.mem_iff, List.mem_cons, or_iff_right hk]
    · rw [hb.ledger] at hk
      exact h.item_update (v := none) (fun r hr => by cases hr) hk
  · rw [hm] at hsome
    cases hsome

end Holds

namespace Churn
variable {schema : IdSchema} {c d : Churn} {ids : List UInt32} {peak count : Nat}

/-- Between two calls, or between the deletions and the new items of one. -/
abbrev Keeps (schema : IdSchema) (c : Churn) (peak : Nat) : Prop :=
  Holds schema c.tenant c.live.toList peak

theorem Keeps.create (h : Keeps schema c peak) (hle : c.live.size + count ≤ IdSchema.detachedBit) :
    ∃ d, c.create count = .ok d ∧ Keeps schema d (max peak (c.live.size + count)) ∧
      d.live.size = c.live.size + count := by
  induction count generalizing c peak with
  | zero =>
    refine ⟨c, rfl, ?_, rfl⟩
    rwa [Nat.add_zero, ← Array.length_toList, Nat.max_eq_left h.length_le]
  | succ count ih =>
    have hlt : c.live.toList.length < IdSchema.detachedBit := by
      rw [Array.length_toList]
      omega
    obtain ⟨id, u, items, log, hr, hu⟩ := h.register hlt c.items.create.2 c.items.create.1
    let next : Churn := { tenant := u, items, live := c.live.push id }
    have hnext : Keeps schema next (max peak (c.live.size + 1)) := by
      refine hu.perm ?_
      rw [Array.toList_push]
      exact (List.perm_append_singleton ..).symm
    have hsize : next.live.size = c.live.size + 1 := Array.size_push ..
    obtain ⟨d, hd, hkeeps, hlive⟩ := ih hnext (by omega)
    rw [hsize, Nat.add_right_comm] at hkeeps hlive
    refine ⟨d, ?_, ?_, hlive⟩
    · rw [Churn.create]
      simp only [hr]
      exact hd
    · rwa [Nat.max_assoc, Nat.max_eq_right (by omega : c.live.size + 1 ≤ c.live.size + count + 1)]
        at hkeeps

theorem exists_free (h : Holds schema c.tenant (ids ++ c.live.toList) peak) :
    ∃ d, c.free ids = .ok d ∧ Keeps schema d peak ∧ d.live = c.live := by
  induction ids generalizing c with
  | nil => exact ⟨c, rfl, h, rfl⟩
  | cons id ids ih =>
    -- What is still to be deleted is in use until its turn comes.
    obtain ⟨item, u, items, log, hf, hu⟩ := h.freeId c.items
    obtain ⟨d, hd, hkeeps, hlive⟩ := ih (c := { c with tenant := u, items }) hu
    refine ⟨d, ?_, hkeeps, hlive⟩
    rw [free]
    simp only [hf]
    exact hd

theorem perm_swap_pop {xs : Array UInt32} {i : Nat} (hi : i < xs.size) :
    (xs[i] :: (xs.swapIfInBounds i (xs.size - 1)).pop.toList).Perm xs.toList := by
  have hlast : xs.size - 1 < xs.size := by omega
  have hback : (xs.swap i (xs.size - 1)).pop.push xs[i] = xs.swap i (xs.size - 1) := by
    ext k <;> grind
  rw [Array.swapIfInBounds_def, dif_pos hi, dif_pos hlast]
  have hperm := (Array.swap_perm hi hlast).toList
  rw [← hback, Array.toList_push] at hperm
  exact (List.perm_append_singleton ..).symm.trans hperm

theorem exists_pick {i : Nat} (hi : i < c.live.size) :
    ∃ id d, c.pick i = some (id, d) ∧ d.tenant = c.tenant ∧
      (id :: d.live.toList).Perm c.live.toList :=
  ⟨c.live[i], { c with live := (c.live.swapIfInBounds i (c.live.size - 1)).pop },
    by rw [pick, Array.getElem?_eq_getElem hi, Option.map_some], rfl, perm_swap_pop hi⟩

/-! ### The calls -/

def Picks : (left : Nat) → List Nat → Prop
  | _, [] => True
  | left, i :: picks => i < left ∧ Picks (left - 1) picks

theorem Keeps.freeAt (h : Keeps schema c peak) {picks : List Nat} (hp : Picks c.live.size picks) :
    ∃ d, c.freeAt picks = .ok d ∧ Keeps schema d peak ∧
      d.live.size + picks.length = c.live.size := by
  induction picks generalizing c with
  | nil => exact ⟨c, rfl, h, rfl⟩
  | cons i picks ih =>
    obtain ⟨hi, hrest⟩ := hp
    obtain ⟨id, d, hpick, htenant, hperm⟩ := exists_pick hi
    have hsize : d.live.size + 1 = c.live.size := hperm.length_eq
    have hholds : Holds schema d.tenant ([id] ++ d.live.toList) peak := by
      rw [htenant]
      exact h.perm hperm.symm
    obtain ⟨e, he, hkeeps, hlive⟩ := exists_free hholds
    have hleft : e.live.size = c.live.size - 1 := by
      rw [hlive]
      omega
    obtain ⟨f, hf, hkeeps', hsize'⟩ := ih hkeeps (hleft ▸ hrest)
    refine ⟨f, ?_, hkeeps', ?_⟩
    · rw [Churn.freeAt]
      simp only [hpick, he, Except.bind]
      exact hf
    · rw [List.length_cons]
      omega

inductive Op where
  | round (order : Array UInt32 → Array UInt32) (count : Nat)
  | punchHoles (picks : List Nat)

/-- A choice that can be made among a number of items: any order of them with any share, or any
victims one after the other. -/
def Op.Possible (live : Nat) : Op → Prop
  | round order count => (∀ ids, (order ids).Perm ids) ∧ count ≤ live
  | punchHoles picks => Picks live picks

def step (c : Churn) : Op → Except PoolError Churn
  | .round order count => c.round order count
  | .punchHoles picks => c.punchHoles picks

def run (c : Churn) : List Op → Except PoolError Churn
  | [] => .ok c
  | op :: ops => (c.step op).bind (·.run ops)

theorem Keeps.refill (h : Keeps schema c peak) (hsize : c.live.size + count = peak)
    (hle : peak ≤ IdSchema.detachedBit) :
    ∃ d, c.create count = .ok d ∧ Keeps schema d peak ∧ d.live.size = peak := by
  have hroom : c.live.size + count ≤ IdSchema.detachedBit := hsize ▸ hle
  obtain ⟨d, hd, hkeeps, hlive⟩ := h.create hroom
  rw [hsize, Nat.max_self] at hkeeps
  exact ⟨d, hd, hkeeps, hlive.trans hsize⟩

theorem Keeps.step (h : Keeps schema c peak) (hsize : c.live.size = peak)
    (hle : peak ≤ IdSchema.detachedBit) {op : Op} (hop : op.Possible peak) :
    ∃ d, c.step op = .ok d ∧ Keeps schema d peak ∧ d.live.size = peak := by
  cases op with
  | round order count =>
    obtain ⟨hperm, hcount⟩ := hop
    let live := order c.live
    have hlive : live.size = peak := (hperm c.live).size_eq.trans hsize
    have hsplit : (live.extract 0 count).toList ++ (live.extract count live.size).toList =
        live.toList := by
      rw [← Array.toList_append, Array.extract_append_extract]
      simp
    have hholds : Holds schema c.tenant
        ((live.extract 0 count).toList ++ (live.extract count live.size).toList) peak := by
      rw [hsplit]
      exact h.perm (hperm c.live).toList.symm
    obtain ⟨d, hd, hkeeps, hrest⟩ :=
      exists_free (c := { c with live := live.extract count live.size }) hholds
    have hleft : d.live.size + count = peak := by
      rw [hrest, Array.size_extract]
      omega
    obtain ⟨e, he, hkeeps', hsize'⟩ := hkeeps.refill hleft hle
    refine ⟨e, ?_, hkeeps', hsize'⟩
    rw [Churn.step, round]
    simp only [hd, Except.bind, live, he]
  | punchHoles picks =>
    obtain ⟨d, hd, hkeeps, hleft⟩ := h.freeAt (hsize.symm ▸ hop)
    obtain ⟨e, he, hkeeps', hsize'⟩ := hkeeps.refill (hleft.trans hsize) hle
    refine ⟨e, ?_, hkeeps', hsize'⟩
    rw [Churn.step, punchHoles, hd]
    exact he

theorem Keeps.run (h : Keeps schema c peak) (hsize : c.live.size = peak)
    (hle : peak ≤ IdSchema.detachedBit) {ops : List Op} (hops : ∀ op ∈ ops, op.Possible peak) :
    ∃ d, c.run ops = .ok d ∧ Keeps schema d peak ∧ d.live.size = peak := by
  induction ops generalizing c with
  | nil => exact ⟨c, rfl, h, hsize⟩
  | cons op ops ih =>
    obtain ⟨hop, hrest⟩ := List.forall_mem_cons.1 hops
    obtain ⟨d, hd, hkeeps, hsize'⟩ := h.step hsize hle hop
    obtain ⟨e, he, hfinal⟩ := ih hkeeps hsize' hrest
    refine ⟨e, ?_, hfinal⟩
    rw [Churn.run, hd]
    exact he

theorem keeps_start (schema : IdSchema) (hle : count ≤ IdSchema.detachedBit) :
    ∃ c, start schema count = .ok c ∧ Keeps schema c count ∧ c.live.size = count := by
  let empty : Churn := { tenant := .create 0 schema }
  have hledger : empty.tenant.ledger = fun _ => none := Tenant.ledger_create 0 schema
  have hempty : Keeps schema empty 0 :=
    { schema := rfl
      fitted := Store.fitted_run 0 schema {} []
      behind := rfl
      nodup := .nil
      length_le := Nat.le_refl _
      mem_iff := fun id => by simp [hledger, empty]
      item := fun {id r} hr => by simp [hledger] at hr }
  have hsize : empty.live.size + count = count := Nat.zero_add count
  obtain ⟨c, hc, hkeeps, hlive⟩ := hempty.create (hsize.symm ▸ hle)
  rw [hsize] at hkeeps hlive
  exact ⟨c, hc, Nat.zero_max count ▸ hkeeps, hlive⟩

/-- The counts of a tenant that has `count` items in use: its own count, the identifiers on the
list, what passes over it find, and the least number of chunks for so many. -/
structure Steady (schema : IdSchema) (c : Churn) (count : Nat) : Prop where
  nodup : c.live.toList.Nodup
  mem_live : ∀ id, id ∈ c.live ↔ c.tenant.Allocated id
  live : c.tenant.live.toNat = count
  length_items : ∀ asked, (draw (ItemPass.next · c.tenant) asked {}).length = min asked count
  chunkCount : c.tenant.chunkCount = max 1 (count ⌈/⌉ schema.capacity)

theorem Keeps.steady (h : Keeps schema c count) (hsize : c.live.size = count) :
    c.Steady schema count where
  nodup := h.nodup
  mem_live id := by rw [← Array.mem_toList_iff, h.mem_iff, Tenant.allocated_iff]
  live := by
    rw [(h.behind.accounted h.fitted.wf).toNat_live rfl, h.liveCount_eq]
    exact hsize
  length_items asked := by
    rw [ItemPass.draw_next h.fitted.wf, List.length_take, h.length_items, Array.length_toList,
      hsize]
  chunkCount := by rw [h.fitted.chunkCount_eq, h.schema]

/-- Whatever is chosen in each call, no call fails and after each of them the counts are those of
the start. -/
theorem steady_of_run (schema : IdSchema) (hle : count ≤ IdSchema.detachedBit) {ops : List Op}
    (hops : ∀ op ∈ ops, op.Possible count) :
    ∃ c, (start schema count).bind (·.run ops) = .ok c ∧ c.Steady schema count := by
  obtain ⟨c, hc, hkeeps, hsize⟩ := keeps_start schema hle
  obtain ⟨d, hd, hkeeps', hsize'⟩ := hkeeps.run hsize hle hops
  refine ⟨d, ?_, hkeeps'.steady hsize'⟩
  rw [hc]
  exact hd

/-- Nine items in chunks of four: a round that turns the list around, and then every item is
deleted. -/
theorem steady_of_run_nine :
    let ops := [.round Array.reverse 5, .punchHoles [8, 0, 3, 5, 4, 0, 2, 1, 0]]
    9 ≤ IdSchema.detachedBit ∧ (∀ op ∈ ops, op.Possible 9) ∧
      ∃ c, (start ⟨2, by decide, by decide⟩ 9).bind (·.run ops) = .ok c ∧
        c.Steady ⟨2, by decide, by decide⟩ 9 := by
  intro ops
  have hle : 9 ≤ IdSchema.detachedBit := by decide
  have hops : ∀ op ∈ ops, op.Possible 9 := by
    refine List.forall_mem_cons.2 ⟨⟨fun ids => ?_, by decide⟩, List.forall_mem_singleton.2 ?_⟩
    · rw [Array.perm_iff_toList_perm, Array.toList_reverse]
      exact List.reverse_perm _
    · simp [Op.Possible, Picks]
  exact ⟨hle, hops, steady_of_run _ hle hops⟩

end Churn
end Workload
end EntityStore
