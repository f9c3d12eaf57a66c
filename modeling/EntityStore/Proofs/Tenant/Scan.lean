import EntityStore.Proofs.Sweep
import EntityStore.Proofs.Tenant.Closing
import EntityStore.Proofs.Tenant.Pass

/-! One pass over a tenant while any other calls come between its questions. -/

namespace EntityStore

structure Scan where
  store : Store
  pass : ItemPass := {}

namespace Scan

inductive Call where
  | op (op : Store.Op)
  /-- Asks the pass for the next item. -/
  | next
  | close

abbrev tenant (s : Scan) : Tenant := s.store.tenant

def step (s : Scan) : Call → Scan
  | .op op => { s with store := (s.store.step op).1 }
  | .next => { s with pass := (s.pass.next s.tenant).2 }
  | .close => { s with store := { s.store with tenant := s.tenant.close.state } }

def run (s : Scan) (calls : List Call) : Scan := calls.foldl step s

def answer (s : Scan) : Option (ItemId × (Nat × Nat)) :=
  (s.pass.next s.tenant).1.map fun x => (x, (s.pass.next s.tenant).2.lastRead)

def yielded (s : Scan) : Call → List (ItemId × (Nat × Nat))
  | .next => s.answer.toList
  | _ => []

def yields (s : Scan) : List Call → List (ItemId × (Nat × Nat))
  | [] => []
  | call :: calls => s.yielded call ++ (s.step call).yields calls

/-- A pass in the middle of a run. -/
structure Inv (schema : IdSchema) (s : Scan) : Prop where
  stands : s.pass.Stands
  schema : s.tenant.schema = schema
  wf : s.tenant.closed = false → s.tenant.WF

variable {schema : IdSchema} {s : Scan} {x : ItemId} {slot : Nat × Nat}
  {call : Call} {calls more : List Call}

theorem reads_of_answer (h : s.Inv schema) (ha : s.answer = some (x, slot)) :
    s.pass.Reads s.tenant x (s.step .next).pass ∧ (s.step .next).pass.lastRead = slot := by
  obtain ⟨y, hy, heq⟩ := Option.map_eq_some_iff.1 ha
  obtain ⟨rfl, hslot⟩ := Prod.mk.inj heq
  exact ⟨ItemPass.reads_next h.stands (Prod.ext hy rfl), hslot⟩

theorem goes_of_answer_eq_none (h : s.Inv schema) (ha : s.answer = none) :
    s.pass.Goes s.tenant none (s.step .next).pass ∧
      (s.tenant.WF → ∀ slot, (s.step .next).pass.Remains slot → s.tenant.itemAt? slot = none) :=
  ItemPass.goes_next h.stands (Prod.ext (Option.map_eq_none_iff.1 ha) rfl)

theorem goes_next (h : s.Inv schema) :
    ∃ read, s.pass.Goes s.tenant read (s.step .next).pass ∧ read = s.answer.map (·.2) := by
  cases ha : s.answer with
  | none => exact ⟨none, (goes_of_answer_eq_none h ha).1, rfl⟩
  | some y =>
    obtain ⟨hreads, hslot⟩ := reads_of_answer h ha
    exact ⟨_, hreads.goes, congrArg some hslot⟩

theorem Inv.step (h : s.Inv schema) (call : Call) : (s.step call).Inv schema := by
  cases call with
  | op op =>
    cases hc : s.tenant.closed with
    | true =>
      obtain ⟨chunks, -, hchunks⟩ := (Store.step_of_closed hc op).1
      have hchunks : (s.step (.op op)).tenant = { s.tenant with chunks } := hchunks
      refine ⟨h.stands, hchunks ▸ h.schema, fun ho => ?_⟩
      rw [hchunks, hc] at ho
      cases ho
    | false =>
      obtain ⟨m, -, hb⟩ := Store.step_becomes (h.wf hc) op
      exact ⟨h.stands, hb.schema.trans h.schema, fun _ => hb.wf⟩
  | next =>
    obtain ⟨read, hgoes, -⟩ := goes_next h
    exact ⟨hgoes.stands, h.schema, h.wf⟩
  | close =>
    refine ⟨h.stands, s.tenant.schema_close.trans h.schema, fun ho => ?_⟩
    have hclosed : (s.step .close).tenant.closed = true := s.tenant.closed_close
    rw [hclosed] at ho
    cases ho

theorem remains_of_step (h : s.Inv schema) (call : Call) (hr : (s.step call).pass.Remains slot) :
    s.pass.Remains slot := by
  cases call with
  | op op => exact hr
  | next =>
    obtain ⟨read, hgoes, -⟩ := goes_next h
    exact hgoes.remains slot hr
  | close => exact hr

theorem remains_or_answer (h : s.Inv schema) (hwf : s.tenant.WF)
    (hitem : s.tenant.itemAt? slot = some x) (hr : s.pass.Remains slot) :
    (s.step .next).pass.Remains slot ∨ s.answer = some (x, slot) := by
  obtain ⟨read, hgoes, hread⟩ := goes_next h
  rcases hgoes.skips hwf slot hr (Option.isSome_iff_exists.2 ⟨x, hitem⟩) with hr | rfl
  · exact .inl hr
  · obtain ⟨⟨y, k⟩, ha, rfl⟩ := Option.map_eq_some_iff.1 hread.symm
    obtain ⟨hreads, hslot⟩ := reads_of_answer h ha
    have hy : s.tenant.itemAt? k = some y := hslot ▸ hreads.item
    obtain rfl : x = y := Option.some.inj (hitem.symm.trans hy)
    exact .inr ha

/-- The scan as a pass that the other calls do not turn back. -/
def sweep (schema : IdSchema) : Sweep Scan Call (ItemId × (Nat × Nat)) where
  step := step
  out := yielded
  Inv := Inv schema
  Remains s y := s.pass.Remains y.2
  Kept s y := s.tenant.WF ∧ s.tenant.itemAt? y.2 = some y.1
  Before y z := Prod.Lex (· < ·) (· < ·) y.2 z.2
  inv_step := Inv.step
  remains_of_step {_} h {call _} hr := remains_of_step h call hr
  pairwise_out {s} _ call := by
    cases call with
    | next => cases ha : s.answer <;> simp [yielded, ha]
    | op op => exact .nil
    | close => exact .nil
  remains_of_out {_} h {call y} hy := by
    cases call with
    | next =>
      obtain ⟨hreads, hslot⟩ := reads_of_answer h (Option.mem_toList.1 hy)
      exact hslot ▸ hreads.remains
    | op op => cases hy
    | close => cases hy
  before_of_out {_} h {call y z} hy hz := by
    cases call with
    | next =>
      obtain ⟨hreads, hslot⟩ := reads_of_answer h (Option.mem_toList.1 hy)
      exact hslot ▸ hreads.after _ hz
    | op op => cases hy
    | close => cases hy
  remains_or_out {_} h {call y} hkept hr := by
    cases call with
    | next => exact (remains_or_answer h hkept.1 hkept.2 hr).imp_right Option.mem_toList.2
    | op op => exact .inl hr
    | close => exact .inl hr

theorem yields_eq_outputs (schema : IdSchema) (s : Scan) (calls : List Call) :
    s.yields calls = (sweep schema).outputs s calls := by
  induction calls generalizing s with
  | nil => rfl
  | cons call calls ih => rw [yields, ih, Sweep.outputs, sweep]

theorem run_append (s : Scan) (calls more : List Call) :
    s.run (calls ++ more) = (s.run calls).run more :=
  (sweep s.tenant.schema).run_append s calls more

theorem yields_append (s : Scan) (calls more : List Call) :
    s.yields (calls ++ more) = s.yields calls ++ (s.run calls).yields more := by
  simp only [yields_eq_outputs s.tenant.schema]
  exact (sweep s.tenant.schema).outputs_append s calls more

theorem Inv.run (h : s.Inv schema) (calls : List Call) : (s.run calls).Inv schema :=
  (sweep schema).inv_run h calls

theorem pairwise_yields (h : s.Inv schema) (calls : List Call) :
    (s.yields calls).Pairwise fun y z => Prod.Lex (· < ·) (· < ·) y.2 z.2 := by
  rw [yields_eq_outputs schema]
  exact (sweep schema).pairwise_outputs h calls

theorem nodup_yields (h : s.Inv schema) (calls : List Call) :
    ((s.yields calls).map (·.2)).Nodup := by
  refine List.pairwise_map.2 ((pairwise_yields h calls).imp fun {y z} hlt heq => ?_)
  rw [heq, Prod.lex_def] at hlt
  omega

theorem remains_or_yielded (h : s.Inv schema) (hr : s.pass.Remains slot)
    (hkept : ∀ part, part <+: calls → (s.run part).tenant.WF ∧
      (s.run part).tenant.itemAt? slot = some x) :
    (s.run calls).pass.Remains slot ∨ (x, slot) ∈ s.yields calls := by
  rw [yields_eq_outputs schema]
  exact (sweep schema).remains_or_outputs (a := (x, slot)) h hr hkept

/-! ### After closing -/

/-- The scan `u` is what a call makes of `s` when the tenant is closed. -/
structure Halts (s u : Scan) : Prop where
  closed : u.tenant.closed = true
  standing : u.pass.standing = s.pass.standing
  following : u.pass.following = s.pass.following
  itemAt? : ∀ slot, u.tenant.itemAt? slot = s.tenant.itemAt? slot

theorem halts_close (s : Scan) : s.Halts (s.step .close) :=
  ⟨s.tenant.closed_close, rfl, rfl, s.tenant.itemAt?_close⟩

theorem halts_step (hc : s.tenant.closed = true) (call : Call) : s.Halts (s.step call) := by
  cases call with
  | op op =>
    obtain ⟨⟨chunks, -, hchunks⟩, hitem⟩ := Store.step_of_closed hc op
    have hchunks : (s.step (.op op)).tenant = { s.tenant with chunks } := hchunks
    exact ⟨hchunks ▸ hc, rfl, rfl, hitem⟩
  | next =>
    have hpass : (s.step .next).pass = (s.pass.stay s.tenant).2 :=
      congrArg Prod.snd (ItemPass.next_of_closed hc s.pass)
    exact ⟨hc, hpass ▸ ItemPass.standing_stay .., hpass ▸ ItemPass.following_stay .., fun _ => rfl⟩
  | close => exact halts_close s

theorem stands_on_yields (h : s.Inv schema) (hc : s.tenant.closed = true)
    (hy : (x, slot) ∈ s.yields calls) :
    s.pass.standing = some slot.1 ∧ s.tenant.itemAt? slot = some x := by
  induction calls generalizing s with
  | nil => cases hy
  | cons call calls ih =>
    have hhalts := halts_step hc call
    rcases List.mem_append.1 hy with hy | hy
    · cases call with
      | next =>
        obtain ⟨hreads, rfl⟩ := reads_of_answer h (Option.mem_toList.1 hy)
        exact ⟨hhalts.standing ▸ hreads.standing, hreads.item⟩
      | op op => cases hy
      | close => cases hy
    · obtain ⟨hstanding, hitem⟩ := ih (h.step call) hhalts.closed hy
      exact ⟨hhalts.standing ▸ hstanding, hhalts.itemAt? slot ▸ hitem⟩

theorem answer_eq_none_iff (h : s.Inv schema) (hc : s.tenant.closed = true) :
    s.answer = none ↔ s.pass.Spent s.tenant := by
  constructor
  · intro ha
    refine ItemPass.spent_of_stay (Prod.ext ?_ rfl)
    rw [← ItemPass.next_of_closed hc]
    exact Option.map_eq_none_iff.1 ha
  · intro hspent
    cases ha : s.answer with
    | none => rfl
    | some y =>
      -- The slot read would be in the chunk stood on and yet not be in it.
      obtain ⟨hreads, -⟩ := reads_of_answer h ha
      have hhalts := halts_step hc .next
      have hstanding := h.stands _ (hhalts.standing ▸ hreads.standing)
      have hle := hspent _ hreads.remains (Option.isSome_iff_exists.2 ⟨_, hreads.item⟩)
      omega

theorem closed_run (hc : s.tenant.closed = true) (calls : List Call) :
    (s.run calls).tenant.closed = true := by
  induction calls generalizing s with
  | nil => exact hc
  | cons call calls ih => exact ih (halts_step hc call).closed

theorem spent_run (h : s.Inv schema) (hc : s.tenant.closed = true)
    (hs : s.pass.Spent s.tenant) (calls : List Call) :
    (s.run calls).pass.Spent (s.run calls).tenant := by
  induction calls generalizing s with
  | nil => exact hs
  | cons call calls ih =>
    have hhalts := halts_step hc call
    refine ih (h.step call) hhalts.closed fun slot hr hsome => ?_
    rw [hhalts.itemAt?] at hsome
    rw [hhalts.following]
    exact hs slot (remains_of_step h call hr) hsome

theorem answer_run_eq_none (h : s.Inv schema) (hc : s.tenant.closed = true)
    (ha : s.answer = none) (calls : List Call) : (s.run calls).answer = none := by
  have hspent := (answer_eq_none_iff h hc).1 ha
  have hclosed := closed_run hc calls
  exact (answer_eq_none_iff (h.run calls) hclosed).2 (spent_run h hc hspent calls)

theorem stands_on_yields_of_close (h : s.Inv schema)
    (hy : (x, slot) ∈ (s.step .close).yields calls) :
    s.pass.standing = some slot.1 ∧ s.tenant.itemAt? slot = some x := by
  have hhalts := halts_close s
  obtain ⟨hstanding, hitem⟩ := stands_on_yields (h.step .close) hhalts.closed hy
  rw [hhalts.itemAt?] at hitem
  exact ⟨hstanding, hitem⟩

theorem length_yields_le (h : s.Inv schema) (hc : s.tenant.closed = true) {n : Nat}
    (hn : ∀ {x slot}, (x, slot) ∈ s.yields calls → slot.2 < n) :
    (s.yields calls).length ≤ n := by
  have hsub : (s.yields calls).map (·.2) ⊆
      (List.range n).map fun o => (s.pass.standing.getD 0, o) := by
    intro slot hslot
    obtain ⟨⟨x, i, o⟩, hy, rfl⟩ := List.mem_map.1 hslot
    obtain ⟨hstanding, -⟩ := stands_on_yields h hc hy
    rw [hstanding]
    exact List.mem_map_of_mem (List.mem_range.2 (hn hy))
  have hlength := (List.subperm_of_subset (nodup_yields h calls) hsub).length_le
  simpa using hlength

/-! ### What a pass guarantees -/

/-- What a pass from `s` on guarantees at the moment when the calls have been made: what it finds is
what a look-up finds, it goes upwards, and by its end it has found all that was there throughout.
Closing the tenant ends it in the chunk it stands on. -/
structure WeaklyConsistent (schema : IdSchema) (s : Scan) (calls : List Call) : Prop where
  current : ∀ x slot, (s.run calls).tenant.closed = false →
    (s.run calls).answer = some (x, slot) →
    ∃ id, schema.decode id = slot ∧ (s.run calls).tenant.get? id = some x
  increasing : (s.yields calls).Pairwise fun y z => Prod.Lex (· < ·) (· < ·) y.2 z.2
  complete : (s.run calls).answer = none → ∀ id x,
    (∀ part, part <+: calls → (s.run part).tenant.get? id = some x) →
    (x, schema.decode id) ∈ s.yields calls ∧
      ∀ more, ((s.yields (calls ++ more)).map (·.2)).count (schema.decode id) = 1
  closing : (s.run calls).tenant.closed = false → ∀ more,
    (∀ x slot, (x, slot) ∈ ((s.run calls).step .close).yields more →
      (s.run calls).pass.standing = some slot.1 ∧
        ∃ id, schema.decode id = slot ∧ (s.run calls).tenant.get? id = some x) ∧
    (((s.run calls).step .close).yields more).length ≤ schema.capacity ∧
    ((((s.run calls).step .close).run more).answer = none →
      ∀ rest, (((s.run calls).step .close).run (more ++ rest)).answer = none)

theorem exists_get?_of_answer (h : s.Inv schema) (ho : s.tenant.closed = false)
    (ha : s.answer = some (x, slot)) :
    ∃ id, schema.decode id = slot ∧ s.tenant.get? id = some x := by
  obtain ⟨hreads, rfl⟩ := reads_of_answer h ha
  exact h.schema ▸ (h.wf ho).exists_get? hreads.item

theorem yields_complete (h : s.Inv schema) (hr : ∀ slot, s.pass.Remains slot)
    (ha : (s.run calls).answer = none) {id : UInt32}
    (hkept : ∀ part, part <+: calls → (s.run part).tenant.get? id = some x) :
    (x, schema.decode id) ∈ s.yields calls := by
  have hkept (part : List Call) (hpart : part <+: calls) : (s.run part).tenant.WF ∧
      (s.run part).tenant.itemAt? (schema.decode id) = some x := by
    have hget := hkept part hpart
    have hinv := h.run part
    exact ⟨hinv.wf (Tenant.isOpen_of_get? hget), hinv.schema ▸ Tenant.itemAt?_of_get? hget⟩
  refine (remains_or_yielded h (hr _) hkept).resolve_left fun hr => ?_
  obtain ⟨hwf, hitem⟩ := hkept calls (List.prefix_refl calls)
  obtain ⟨hgoes, hnone⟩ := goes_of_answer_eq_none (h.run calls) ha
  have hsome := Option.isSome_iff_exists.2 ⟨x, hitem⟩
  have hr := (hgoes.skips hwf _ hr hsome).resolve_right nofun
  rw [hnone hwf _ hr] at hitem
  cases hitem

theorem Inv.weaklyConsistent (h : s.Inv schema) (hr : ∀ slot, s.pass.Remains slot)
    (calls : List Call) : WeaklyConsistent schema s calls where
  current x slot ho ha := exists_get?_of_answer (h.run calls) ho ha
  increasing := pairwise_yields h calls
  complete ha id x hkept := by
    have hy := yields_complete h hr ha hkept
    refine ⟨hy, fun more => List.count_eq_one_of_mem (nodup_yields h _) ?_⟩
    rw [yields_append]
    exact List.mem_map_of_mem (f := fun y => y.2) (List.mem_append_left _ hy)
  closing ho more := by
    have hinv := h.run calls
    have hwf := hinv.wf ho
    have hclosed : ((s.run calls).step .close).tenant.closed = true := (halts_close _).closed
    refine ⟨fun x slot hy => ?_, ?_, fun ha rest => ?_⟩
    · obtain ⟨hstanding, hitem⟩ := stands_on_yields_of_close hinv hy
      exact ⟨hstanding, hinv.schema ▸ hwf.exists_get? hitem⟩
    · refine length_yields_le (hinv.step .close) hclosed fun hy => ?_
      obtain ⟨-, hitem⟩ := stands_on_yields_of_close hinv hy
      rw [← hinv.schema]
      exact (hwf.lt_of_itemAt? hitem).2
    · rw [run_append]
      exact answer_run_eq_none ((hinv.step .close).run more) (closed_run hclosed more) ha rest

/-- A pass over an open tenant in any state that it can reach is weakly consistent, whatever calls
come between its questions. -/
theorem weaklyConsistent_of_run (id : UInt32) (schema : IdSchema) (items : Items)
    (ops : List Store.Op) (calls : List Call) :
    WeaklyConsistent schema { store := (Store.create id schema items).run ops } calls := by
  have hwf : (Store.create id schema items).tenant.WF := Tenant.wf_create id schema
  have hinv : Inv schema { store := (Store.create id schema items).run ops } :=
    ⟨nofun, Store.schema_run hwf ops, fun _ => Store.wf_run hwf ops⟩
  exact hinv.weaklyConsistent (fun slot => .inl (Nat.zero_le _)) calls

end Scan
end EntityStore
