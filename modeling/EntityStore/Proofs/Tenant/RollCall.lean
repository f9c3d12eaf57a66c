import EntityStore.Proofs.Sweep
import EntityStore.Proofs.Tenant.Listing

/-! One pass over the identifiers of a tenant while any other calls come between its questions. The
pass takes the identifiers of a chunk down when it enters the chunk, and yields them as they were
then, also when the chunk has been drained, parked and filled again in the meantime. -/

namespace EntityStore

namespace IdPass
variable {schema : IdSchema} {t : Tenant} {p q r : IdPass} {id : UInt32} {found : Option UInt32}

/-- Whether an identifier may still come. -/
def Remains (schema : IdSchema) (p : IdPass) (id : UInt32) : Prop :=
  IdSchema.isDetached id = false ∧ (id ∈ p.pending ∨ p.following ≤ (schema.decode id).1)

/-- Between `p` and `q` the pass enters the chunk of an identifier, which is in use at the time. -/
def Enters (p : IdPass) (t : Tenant) (q : IdPass) (id : UInt32) : Prop :=
  p.following ≤ (t.schema.decode id).1 ∧ (t.schema.decode id).1 < q.following ∧ t.Allocated id

/-- What was taken down goes upwards and belongs to chunks that were entered. -/
structure Ordered (schema : IdSchema) (p : IdPass) : Prop where
  ascending : p.pending.Pairwise (· < ·)
  entered : ∀ id ∈ p.pending, IdSchema.isDetached id = false ∧ (schema.decode id).1 < p.following

/-- The pass `p` goes on to `q` without going back. It finds `found`, which comes before all that is
left, and passes over no other identifier in use. -/
structure Goes (p : IdPass) (t : Tenant) (found : Option UInt32) (q : IdPass) : Prop where
  ordered : q.Ordered t.schema
  following_le : p.following ≤ q.following
  remains : ∀ {id}, q.Remains t.schema id → p.Remains t.schema id
  skips : ∀ {id}, t.Allocated id → p.Remains t.schema id →
    q.Remains t.schema id ∨ found = some id
  ahead : ∀ {id}, found = some id → p.Remains t.schema id
  before : ∀ {id k}, found = some id → q.Remains t.schema k → id < k
  enters : ∀ {id}, id ∈ q.pending ∨ found = some id → id ∈ p.pending ∨ p.Enters t q id

theorem Goes.trans (h : p.Goes t none q) (h' : q.Goes t found r) : p.Goes t found r where
  ordered := h'.ordered
  following_le := Nat.le_trans h.following_le h'.following_le
  remains hr := h.remains (h'.remains hr)
  skips ha hp := h'.skips ha ((h.skips ha hp).resolve_right nofun)
  ahead hf := h.remains (h'.ahead hf)
  before := h'.before
  enters {id} hid := by
    rcases h'.enters hid with hq | ⟨hge, hlt, ha⟩
    · refine (h.enters (.inl hq)).imp_right fun ⟨hge, hlt, ha⟩ => ?_
      exact ⟨hge, Nat.lt_of_lt_of_le hlt h'.following_le, ha⟩
    · exact .inr ⟨Nat.le_trans h.following_le hge, hlt, ha⟩

theorem goes_pending (hp : p.Ordered t.schema) {pending : List UInt32}
    (hpending : p.pending = id :: pending) : p.Goes t (some id) { p with pending } := by
  obtain ⟨hascending, hentered⟩ := hp
  rw [hpending] at hascending hentered
  obtain ⟨hbefore, hascending⟩ := List.pairwise_cons.1 hascending
  obtain ⟨⟨hid, hchunk⟩, hentered⟩ := List.forall_mem_cons.1 hentered
  refine
    { ordered := ⟨hascending, hentered⟩
      following_le := Nat.le_refl _
      remains := fun {k} ⟨hk, hr⟩ => ⟨hk, hr.imp_left fun hm => ?_⟩
      skips := fun {k} _ ⟨hk, hr⟩ => ?_
      ahead := fun hf => ?_
      before := fun {a k} hf ⟨hk, hr⟩ => ?_
      enters := fun {k} hk => .inl ?_ }
  · rw [hpending]
    exact List.mem_cons_of_mem id hm
  · rw [hpending] at hr
    rcases hr with hm | hge
    · rcases List.mem_cons.1 hm with rfl | hm
      · exact .inr rfl
      · exact .inl ⟨hk, .inl hm⟩
    · exact .inl ⟨hk, .inr hge⟩
  · obtain rfl := Option.some.inj hf
    exact ⟨hid, .inl (hpending ▸ List.mem_cons_self ..)⟩
  · obtain rfl := Option.some.inj hf
    rcases hr with hm | hge
    · exact hbefore k hm
    · -- The chunks not entered yet come after that of the identifier.
      exact t.schema.lt_of_decode hid hk (Prod.lex_def.2 (.inl (Nat.lt_of_lt_of_le hchunk hge)))
  · rw [hpending, List.mem_cons]
    exact hk.symm.imp_left fun hf => (Option.some.inj hf).symm

theorem goes_enter (h : t.WF) (hnil : p.pending = []) (he : p.enter? t = some q) :
    p.Goes t none q := by
  obtain ⟨c, hc, rfl⟩ := Option.map_eq_some_iff.1 he
  rw [h.chunkAfter?_eq] at hc
  refine
    { ordered := ⟨h.pairwise_idsIn hc, fun id hid => ?_⟩
      following_le := Nat.le_succ _
      remains := fun {id} ⟨hid, hr⟩ => ⟨hid, .inr ?_⟩
      skips := fun {id} ha ⟨hid, hr⟩ => .inl ⟨hid, ?_⟩
      ahead := nofun
      before := nofun
      enters := fun {id} hid => .inr ?_ }
  · obtain ⟨⟨hid, -⟩, hchunk⟩ := (h.mem_idsIn hc).1 hid
    exact ⟨hid, Nat.lt_succ_of_le (Nat.le_of_eq hchunk)⟩
  · rcases hr with hm | hge
    · exact Nat.le_of_eq ((h.mem_idsIn hc).1 hm).2.symm
    · exact Nat.le_of_succ_le hge
  · have hge : p.following ≤ (t.schema.decode id).1 := hr.resolve_left (by simp [hnil])
    rcases Nat.eq_or_lt_of_le hge with heq | hlt
    · exact .inl ((h.mem_idsIn hc).2 ⟨ha, heq.symm⟩)
    · exact .inr hlt
  · obtain ⟨ha, hchunk⟩ := (h.mem_idsIn hc).1 (hid.resolve_right nofun)
    exact ⟨Nat.le_of_eq hchunk.symm, Nat.lt_succ_of_le (Nat.le_of_eq hchunk), ha⟩

theorem goes_next (h : t.WF) (hp : p.Ordered t.schema) : p.Goes t (p.next t).1 (p.next t).2 := by
  fun_induction next p t with
  | case1 p id pending hpending => exact goes_pending hp hpending
  | case2 p hnil he =>
    refine
      { ordered := hp
        following_le := Nat.le_refl _
        remains := fun hr => hr
        skips := fun _ hr => .inl hr
        ahead := fun hf => by cases hf
        before := fun hf => by cases hf
        enters := fun hid => .inl (hid.resolve_right fun hf => by cases hf) }
  | case3 p hnil q he ih =>
    have hgoes := goes_enter h hnil he
    exact hgoes.trans (ih hgoes.ordered)

theorem spent_of_next (h : t.WF) (hn : (p.next t).1 = none) :
    (p.next t).2.pending = [] ∧ t.heldChunk? (p.next t).2.following = none := by
  fun_induction next p t with
  | case1 p id pending hpending => cases hn
  | case2 p hnil he =>
    rw [← h.chunkAfter?_eq]
    exact ⟨hnil, Option.map_eq_none_iff.1 he⟩
  | case3 p hnil q he ih => exact ih hn

theorem not_remains_of_next (h : t.WF) (hn : (p.next t).1 = none) (ha : t.Allocated id) :
    ¬ (p.next t).2.Remains t.schema id := by
  obtain ⟨hnil, hnone⟩ := spent_of_next h hn
  obtain ⟨-, c, hc, -⟩ := ha
  rintro ⟨-, hm | hge⟩
  · rw [hnil] at hm
    cases hm
  · have hsize := Tenant.heldChunk?_eq_none_iff.1 hnone
    exact absurd (Tenant.lt_of_heldChunk? hc) (Nat.not_lt.2 (Nat.le_trans hsize hge))

end IdPass

structure RollCall where
  store : Store
  pass : IdPass := {}

namespace RollCall

inductive Call where
  | op (op : Store.Op)
  /-- Asks the pass for the next identifier. -/
  | next

abbrev tenant (s : RollCall) : Tenant := s.store.tenant

def step (s : RollCall) : Call → RollCall
  | .op op => { s with store := (s.store.step op).1 }
  | .next => { s with pass := (s.pass.next s.tenant).2 }

def run (s : RollCall) (calls : List Call) : RollCall := calls.foldl step s

def answer (s : RollCall) : Option UInt32 := (s.pass.next s.tenant).1

def yielded (s : RollCall) : Call → List UInt32
  | .next => s.answer.toList
  | .op _ => []

def yields (s : RollCall) : List Call → List UInt32
  | [] => []
  | call :: calls => s.yielded call ++ (s.step call).yields calls

structure Inv (schema : IdSchema) (s : RollCall) : Prop where
  wf : s.tenant.WF
  ordered : s.pass.Ordered schema
  schema : s.tenant.schema = schema

/-- During the calls the pass enters the chunk of an identifier, which is in use at that moment. -/
def Entered (s : RollCall) (calls : List Call) (id : UInt32) : Prop :=
  ∃ part, part ++ [.next] <+: calls ∧
    (s.run part).pass.Enters (s.run part).tenant ((s.run part).step .next).pass id

variable {schema : IdSchema} {s : RollCall} {id : UInt32} {calls : List Call}

theorem Inv.goes (h : s.Inv schema) : s.pass.Goes s.tenant s.answer (s.step .next).pass :=
  IdPass.goes_next h.wf (h.schema.symm ▸ h.ordered)

theorem Inv.step (h : s.Inv schema) (call : Call) : (s.step call).Inv schema := by
  cases call with
  | op op =>
    obtain ⟨m, -, hb⟩ := Store.step_becomes h.wf op
    exact ⟨hb.wf, h.ordered, hb.schema.trans h.schema⟩
  | next => exact ⟨h.wf, h.schema ▸ h.goes.ordered, h.schema⟩

/-- The roll call as a pass that the other calls do not turn back. -/
def sweep (schema : IdSchema) : Sweep RollCall Call UInt32 where
  step := step
  out := yielded
  Inv := Inv schema
  Remains s := s.pass.Remains schema
  Kept s := s.tenant.Allocated
  Before := (· < ·)
  inv_step := Inv.step
  remains_of_step {_} h {call id} hr := by
    cases call with
    | op op => exact hr
    | next =>
      obtain rfl := h.schema
      exact h.goes.remains hr
  pairwise_out {s} _ call := by
    cases call with
    | op op => exact .nil
    | next => cases ha : s.answer <;> simp [yielded, ha]
  remains_of_out {_} h {call id} hid := by
    cases call with
    | op op => cases hid
    | next =>
      obtain rfl := h.schema
      exact h.goes.ahead (Option.mem_toList.1 hid)
  before_of_out {_} h {call id k} hid hr := by
    cases call with
    | op op => cases hid
    | next =>
      obtain rfl := h.schema
      exact h.goes.before (Option.mem_toList.1 hid) hr
  remains_or_out {_} h {call id} ha hr := by
    cases call with
    | op op => exact .inl hr
    | next =>
      obtain rfl := h.schema
      exact (h.goes.skips ha hr).imp_right Option.mem_toList.2

theorem yields_eq_outputs (schema : IdSchema) (s : RollCall) (calls : List Call) :
    s.yields calls = (sweep schema).outputs s calls := by
  induction calls generalizing s with
  | nil => rfl
  | cons call calls ih => rw [yields, ih, Sweep.outputs, sweep]

theorem yields_append (s : RollCall) (calls more : List Call) :
    s.yields (calls ++ more) = s.yields calls ++ (s.run calls).yields more := by
  simp only [yields_eq_outputs s.tenant.schema]
  exact (sweep s.tenant.schema).outputs_append s calls more

theorem Inv.run (h : s.Inv schema) (calls : List Call) : (s.run calls).Inv schema :=
  (sweep schema).inv_run h calls

theorem pairwise_yields (h : s.Inv schema) (calls : List Call) :
    (s.yields calls).Pairwise (· < ·) := by
  rw [yields_eq_outputs schema]
  exact (sweep schema).pairwise_outputs h calls

theorem remains_or_yielded (h : s.Inv schema) (hr : s.pass.Remains schema id)
    (hkept : ∀ part, part <+: calls → (s.run part).tenant.Allocated id) :
    (s.run calls).pass.Remains schema id ∨ id ∈ s.yields calls := by
  rw [yields_eq_outputs schema]
  exact (sweep schema).remains_or_outputs h hr hkept

theorem Entered.append (h : s.Entered calls id) (more : List Call) :
    s.Entered (calls ++ more) id := by
  obtain ⟨part, hpart, he⟩ := h
  exact ⟨part, hpart.trans (List.prefix_append calls more), he⟩

theorem entered_of_run (h : s.Inv schema) (hnil : s.pass.pending = [])
    (hid : id ∈ (s.run calls).pass.pending ∨ id ∈ s.yields calls) : s.Entered calls id := by
  -- By induction on the last call, as the entry may lie many calls back: what is yielded was still
  -- pending before the call, or its chunk is entered in it.
  induction calls using List.reverseRecOn with
  | nil =>
    rcases hid with hid | hid
    · rw [show (s.run []).pass.pending = [] from hnil] at hid
      cases hid
    · cases hid
  | append_singleton calls call ih =>
    have hrun : s.run (calls ++ [call]) = (s.run calls).step call := List.foldl_concat ..
    have hyields : s.yields (calls ++ [call]) = s.yields calls ++ (s.run calls).yielded call := by
      rw [yields_append]
      exact congrArg _ (List.append_nil _)
    rw [hrun, hyields, List.mem_append] at hid
    cases call with
    | op op => exact (ih (hid.imp_right (·.resolve_right nofun))).append _
    | next =>
      rcases or_left_comm.1 hid with hid | hid
      · exact (ih (.inr hid)).append _
      · have hid := hid.imp_right Option.mem_toList.1
        rcases (h.run calls).goes.enters hid with hid | he
        · exact (ih (.inl hid)).append _
        · exact ⟨calls, List.prefix_refl _, he⟩

/-- What a pass over the identifiers guarantees at the moment when the calls have been made. -/
structure Consistent (s : RollCall) (calls : List Call) : Prop where
  increasing : (s.yields calls).Pairwise (· < ·)
  entered : ∀ id ∈ s.yields calls, s.Entered calls id
  complete : (s.run calls).answer = none → ∀ id,
    (∀ part, part <+: calls → (s.run part).tenant.Allocated id) →
    id ∈ s.yields calls ∧ ∀ more, (s.yields (calls ++ more)).count id = 1

theorem Inv.consistent (h : s.Inv schema) (hnil : s.pass.pending = [])
    (hstart : s.pass.following = 0) (calls : List Call) : s.Consistent calls where
  increasing := pairwise_yields h calls
  entered id hid := entered_of_run h hnil (.inr hid)
  complete ha id hkept := by
    have hid := (hkept [] List.nil_prefix).1
    have hr : s.pass.Remains schema id := ⟨hid, .inr (hstart ▸ Nat.zero_le _)⟩
    have hend := h.run calls
    have hy : id ∈ s.yields calls := by
      refine (remains_or_yielded h hr hkept).resolve_left fun hr => ?_
      obtain rfl := hend.schema
      have hallocated := hkept calls (List.prefix_refl calls)
      have hr := (hend.goes.skips hallocated hr).resolve_right (by rw [ha]; nofun)
      exact IdPass.not_remains_of_next hend.wf ha hallocated hr
    refine ⟨hy, fun more => List.count_eq_one_of_mem ?_ ?_⟩
    · exact (pairwise_yields h _).imp UInt32.ne_of_lt
    · rw [yields_append]
      exact List.mem_append_left _ hy

end RollCall

/-- What passes find in a tenant when nothing comes between their questions: the identifiers in use
upwards, as many as the chunks count, and the items that are registered at them in the same
order. -/
structure Tenant.Listed (t : Tenant) : Prop where
  draw_ids : ∀ count, draw (IdPass.next · t) count {} = t.positions.take count
  mem_iff : ∀ id, id ∈ t.positions ↔ t.Allocated id
  ascending : t.positions.Pairwise (· < ·)
  length_eq : t.positions.length = t.liveCount
  draw_items : ∀ count,
    draw (ItemPass.next · t) count {} = (t.positions.filterMap t.get?).take count

theorem Tenant.WF.listed {t : Tenant} (h : t.WF) : t.Listed where
  draw_ids := IdPass.draw_next h
  mem_iff _ := h.mem_positions
  ascending := h.pairwise_positions
  length_eq := h.length_positions
  draw_items count := by rw [h.filterMap_positions, ItemPass.draw_next h]

/-- A pass over the identifiers of an open tenant goes upwards whatever calls come between its
questions, yields only what was in use in a chunk that it entered, and misses nothing that stays in
use. Without such calls it finds exactly what is in use. -/
theorem RollCall.consistent_of_run (id : UInt32) (schema : IdSchema) (items : Items)
    (ops : List Store.Op) (calls : List Call) :
    Consistent { store := (Store.create id schema items).run ops } calls ∧
      ((Store.create id schema items).run ops).tenant.Listed := by
  have hcreate : (Store.create id schema items).tenant.WF := Tenant.wf_create id schema
  have hwf := Store.wf_run hcreate ops
  have hinv : Inv schema { store := (Store.create id schema items).run ops } :=
    ⟨hwf, ⟨.nil, nofun⟩, Store.schema_run hcreate ops⟩
  exact ⟨hinv.consistent rfl rfl calls, hwf.listed⟩

end EntityStore
