import EntityStore.Proofs.Pool
import EntityStore.Proofs.Registry.Tracking

/-! Closing is final and reaches every tenant. A tenant is closed directly, by its removal or with
its pool, and from then on it refuses all calls, also those of who still holds it. -/

namespace EntityStore.Registry

variable {schema : IdSchema} {r : Registry} {n : Nat} {t u : Tenant} {op : Op} {ops : List Op}

/-! ### What a run reports -/

/-- The number of the tenant that a step creates. -/
def made (r : Registry) : Op → List Nat
  | .newTenant => (r.pool.newTenant.result.toOption).toList
  | _ => []

/-- The number of the tenant that a step removes from the pool. -/
def dropped (r : Registry) : Op → List Nat
  | .removeTenant id => (r.pool.removeTenant id).result.toList
  | _ => []

/-- The number of the tenant that a step closes directly. -/
def shut (r : Registry) : Op → List Nat
  | .closeTenant n => if n < r.count then [n] else []
  | _ => []

/-- What the steps of a run report, one after the other. -/
def along (report : Registry → Op → List Nat) (r : Registry) : List Op → List Nat
  | [] => []
  | op :: ops => report r op ++ along report (r.step op) ops

theorem along_concat (report : Registry → Op → List Nat) (r : Registry) (ops : List Op) (op : Op) :
    along report r (ops ++ [op]) = along report r ops ++ report (r.run ops) op := by
  induction ops generalizing r with
  | nil => exact List.append_nil _
  | cons op' ops ih =>
    rw [List.cons_append, along, ih, ← List.append_assoc]
    rfl

theorem run_append (r : Registry) (ops more : List Op) :
    r.run (ops ++ more) = (r.run ops).run more :=
  List.foldl_append

theorem made_eq (r : Registry) (op : Op) :
    r.made op = [] ∧ (r.step op).count = r.count ∨
      op = .newTenant ∧ r.pool.closed = false ∧ r.made op = [r.count] ∧
        (r.step op).count = r.count + 1 := by
  cases op with
  | newTenant =>
    cases hc : r.pool.closed with
    | true =>
      left
      simp [made, step, Pool.newTenant, hc, count, Except.toOption]
    | false =>
      right
      simp [made, step, Pool.newTenant, hc, count, Except.toOption]
  | newItem => exact .inl ⟨rfl, rfl⟩
  | call m op =>
    left
    rcases r.step_call_cases m op with ⟨t, -, -, -, hstep⟩ | ⟨-, hstep⟩ <;> rw [hstep]
    · exact ⟨rfl, r.count_put ..⟩
    · exact ⟨rfl, rfl⟩
  | closeTenant k => exact .inl ⟨rfl, (r.pool.closeTenant_spec k).2⟩
  | removeTenant id => exact .inl ⟨rfl, (r.pool.removeTenant_spec id).2⟩
  | close => exact .inl ⟨rfl, r.pool.close_spec.2.1⟩

/-! ### One step -/

/-- The numbers of all tenants that a step closes. -/
def closes (r : Registry) : Op → List Nat
  | .closeTenant n => [n]
  | .removeTenant id => (r.pool.find? id).toList
  | .close => if r.pool.closed then [] else r.pool.members
  | _ => []

/-- What becomes of a tenant in one step: it is closed or left alone, or it gets a call. -/
inductive Fate (r : Registry) (op : Op) (n : Nat) (t : Tenant) : Tenant → Prop
  | closes (hn : n ∈ r.closes op) : Fate r op n t t.close.state
  | rests (hn : n ∉ r.closes op) : Fate r op n t t
  | works (hn : n ∉ r.closes op) (items : Items) (call : Store.Op) :
    Fate r op n t (Store.step ⟨t, items⟩ call).1.tenant

theorem fate_of_map (ht : r.tenant? n = some t) {s : Registry}
    (hs : s.tenant? n = (r.tenant? n).map fun t => if n ∈ r.closes op then t.close.state else t) :
    ∃ u, s.tenant? n = some u ∧ r.Fate op n t u := by
  rw [ht, Option.map_some] at hs
  by_cases hn : n ∈ r.closes op
  · rw [if_pos hn] at hs
    exact ⟨_, hs, .closes hn⟩
  · rw [if_neg hn] at hs
    exact ⟨_, hs, .rests hn⟩

theorem exists_fate (ht : r.tenant? n = some t) (op : Op) :
    ∃ u, (r.step op).tenant? n = some u ∧ r.Fate op n t u := by
  cases op with
  | newItem => exact ⟨t, ht, .rests List.not_mem_nil⟩
  | newTenant =>
    refine ⟨t, ?_, .rests List.not_mem_nil⟩
    rw [step, Pool.newTenant]
    split
    · exact ht
    · exact (Array.getElem?_push_lt (lt_count ht)).trans
        ((Array.getElem?_eq_getElem _).symm.trans ht)
  | call m call =>
    rcases r.step_call_cases m call with ⟨v, hv, -, -, hstep⟩ | ⟨-, hstep⟩ <;> rw [hstep]
    · rw [tenant?_put hv]
      by_cases hn : n = m
      · subst hn
        obtain rfl : t = v := Option.some.inj (ht.symm.trans hv)
        rw [if_pos rfl]
        exact ⟨_, rfl, .works List.not_mem_nil r.items call⟩
      · rw [if_neg hn]
        exact ⟨t, ht, .rests List.not_mem_nil⟩
    · exact ⟨t, ht, .rests List.not_mem_nil⟩
  | closeTenant k =>
    refine fate_of_map ht ?_
    simp only [closes, List.mem_singleton]
    exact r.pool.tenants_closeTenant k n
  | removeTenant id =>
    refine fate_of_map ht ?_
    rw [step, Pool.removeTenant, closes]
    split
    · rename_i hid
      simp [hid, tenant?]
    · rename_i k hid
      simpa [hid, tenant?, Outcome.map] using Pool.tenants_closeTenant _ k n
  | close =>
    refine fate_of_map ht ?_
    rw [step, Pool.close, closes]
    split
    · simp
    · exact Pool.tenants_closeTenants _ _ n

theorem Sound.closed_of_fate (h : Sound schema r) (ht : r.tenant? n = some t)
    (hf : r.Fate op n t u) : u.closed = true ↔ t.closed = true ∨ n ∈ r.closes op := by
  cases hf with
  | closes hn => simp [t.closed_close, hn]
  | rests hn => simp [hn]
  | works hn items call => rw [Store.closed_step (s := ⟨t, items⟩) (h.wf ht), or_iff_left hn]

theorem Sound.counts_of_fate (h : Sound schema r) (ht : r.tenant? n = some t)
    (hf : r.Fate op n t u) (hc : u.closed = true) :
    u.chunkCount = t.chunkCount ∧ ((t.closed = true → t.live = 0) → u.live = 0) := by
  cases hf with
  | closes hn => exact ⟨t.chunkCount_close, Tenant.live_close⟩
  | rests hn => exact ⟨rfl, fun hlive => hlive hc⟩
  | works hn items call =>
    rw [Store.closed_step (s := ⟨t, items⟩) (h.wf ht)] at hc
    obtain ⟨⟨chunks, -, hu⟩, -⟩ := Store.step_of_closed (s := ⟨t, items⟩) hc call
    rw [hu]
    exact ⟨rfl, fun hlive => hlive hc⟩

/-- The members of a pool are the tenants that it has created and has neither removed nor left
behind when it was closed. Others are closed, unless a tenant created later has got their id. -/
structure Orderly (r : Registry) : Prop where
  keyed : r.pool.Keyed
  empty : r.pool.closed = true → r.pool.members = []
  outside : ∀ {n t}, r.tenant? n = some t → n ∉ r.pool.members → r.count ≤ n + UInt32.size →
    t.closed = true
  live : ∀ {n t}, r.tenant? n = some t → t.closed = true → t.live = 0

theorem closed_pool_step (r : Registry) (op : Op) :
    (r.step op).pool.closed = true ↔ r.pool.closed = true ∨ op = .close := by
  cases op with
  | newItem => simp [step]
  | newTenant =>
    rw [step, Pool.newTenant]
    split <;> simp
  | call m call =>
    rcases r.step_call_cases m call with ⟨v, -, -, -, hstep⟩ | ⟨-, hstep⟩ <;> simp [hstep, put]
  | closeTenant k => simp [step, r.pool.closeTenant_spec]
  | removeTenant id => simp [step, r.pool.removeTenant_spec]
  | close => simp [step, r.pool.close_spec]

theorem Orderly.keyed_step (h : r.Orderly) (op : Op) : (r.step op).pool.Keyed := by
  cases op with
  | newItem => exact h.keyed
  | newTenant => exact h.keyed.newTenant
  | call m call =>
    rcases r.step_call_cases m call with ⟨v, -, -, -, hstep⟩ | ⟨-, hstep⟩ <;> rw [hstep]
    · exact h.keyed.of_sublist (.refl _) (r.count_put ..)
    · exact h.keyed
  | closeTenant k =>
    have hmembers := r.pool.members_closeTenant k
    exact h.keyed.of_sublist (hmembers ▸ .refl _) (r.pool.closeTenant_spec k).2
  | removeTenant id => exact h.keyed.removeTenant id
  | close => exact h.keyed.close

theorem Orderly.mem_members_of_made_nil (h : r.Orderly) (hmade : r.made op = []) (n : Nat) :
    n ∈ (r.step op).pool.members ↔ n ∈ r.pool.members ∧ n ∉ r.dropped op ∧ op ≠ .close := by
  cases op with
  | newItem => simp [step, dropped]
  | newTenant =>
    rw [made, Pool.newTenant] at hmade
    rw [step, Pool.newTenant]
    split at hmade
    · rw [if_pos ‹_›]
      simp [dropped]
    · cases hmade
  | call m call =>
    rcases r.step_call_cases m call with ⟨v, -, -, -, hstep⟩ | ⟨-, hstep⟩ <;>
      simp [hstep, put, dropped]
  | closeTenant k => simp [step, dropped, Pool.members_closeTenant]
  | removeTenant id =>
    rw [step, h.keyed.mem_members_removeTenant, dropped, Pool.result_removeTenant,
      Option.mem_toList]
    simp
  | close =>
    have hmembers := r.pool.close_spec.2.2
    simp [step, hmembers]
    exact fun hc => h.empty hc ▸ List.not_mem_nil

theorem Orderly.mem_members_step (h : r.Orderly) (op : Op) (n : Nat) :
    n ∈ (r.step op).pool.members ↔ (n ∈ r.pool.members ∨ n ∈ r.made op) ∧
      (r.step op).count ≤ n + UInt32.size ∧ n ∉ r.dropped op ∧ op ≠ .close := by
  rcases r.made_eq op with ⟨hmade, hcount⟩ | ⟨rfl, ho, hmade, hcount⟩ <;> rw [hmade, hcount]
  · have hle : n ∈ r.pool.members → r.count ≤ n + UInt32.size := h.keyed.size_le n
    rw [h.mem_members_of_made_nil hmade]
    simp only [List.not_mem_nil, or_false]
    tauto
  · have hmem : n ∈ (r.step .newTenant).pool.members ↔
        (n ∈ r.pool.members ∨ n = r.count) ∧ r.count + 1 ≤ n + UInt32.size :=
      h.keyed.mem_members_newTenant ho
    simp [hmem, dropped]

theorem exists_origin (hu : (r.step op).tenant? n = some u) :
    (∃ t, r.tenant? n = some t ∧ r.Fate op n t u) ∨
      op = .newTenant ∧ r.pool.closed = false ∧ n = r.count ∧ r.made op = [n] ∧
        u.closed = false := by
  cases ht : r.tenant? n with
  | some t =>
    obtain ⟨v, hv, hf⟩ := exists_fate ht op
    obtain rfl : v = u := Option.some.inj (hv.symm.trans hu)
    exact .inl ⟨t, rfl, hf⟩
  | none =>
    have hle : r.count ≤ n := Array.getElem?_eq_none_iff.1 ht
    have hlt := lt_count hu
    rcases r.made_eq op with ⟨-, hcount⟩ | ⟨rfl, ho, hmade, hcount⟩
    · omega
    · obtain rfl : n = r.count := by omega
      refine .inr ⟨rfl, ho, rfl, hmade, ?_⟩
      rw [step, Pool.newTenant, if_neg (by simp [ho])] at hu
      cases Option.some.inj (hu.symm.trans Array.getElem?_push_size)
      rfl

theorem Orderly.mem_closes_iff (h : r.Orderly) (hn : n < r.count) (op : Op) :
    n ∈ r.closes op ↔
      n ∈ r.shut op ∨ n ∈ r.dropped op ∨ op = .close ∧ n ∈ r.pool.members := by
  cases op with
  | newItem => simp [closes, shut, dropped]
  | newTenant => simp [closes, shut, dropped]
  | call m call => simp [closes, shut, dropped]
  | closeTenant k =>
    have hshut : n ∈ r.shut (.closeTenant k) ↔ n = k := by
      rw [shut]
      split
      · exact List.mem_singleton
      · exact ⟨fun hm => (List.not_mem_nil hm).elim, fun hk => absurd (hk ▸ hn) ‹_›⟩
    simp [closes, hshut, dropped]
  | removeTenant id => simp [closes, shut, dropped, Pool.result_removeTenant]
  | close =>
    simp only [closes, shut, dropped, List.not_mem_nil, false_or, true_and]
    split
    · rw [h.empty ‹_›]
    · rfl

theorem count_le_step (r : Registry) (op : Op) : r.count ≤ (r.step op).count := by
  rcases r.made_eq op with ⟨-, hcount⟩ | ⟨-, -, -, hcount⟩
  · exact Nat.le_of_eq hcount.symm
  · exact hcount ▸ Nat.le_succ _

theorem count_step_of_closed (h : r.pool.closed = true ∨ op = .close) :
    (r.step op).count = r.count := by
  rcases r.made_eq op with ⟨-, hcount⟩ | ⟨rfl, hopen, -, -⟩
  · exact hcount
  · rw [hopen] at h
    exact h.elim nofun nofun

theorem Orderly.step (h : r.Orderly) (hs : Sound schema r) (op : Op) : (r.step op).Orderly where
  keyed := h.keyed_step op
  empty hc := by
    refine List.eq_nil_iff_forall_not_mem.2 fun n hn => ?_
    obtain ⟨hn, -, -, hop⟩ := (h.mem_members_step op n).1 hn
    have hc := ((r.closed_pool_step op).1 hc).resolve_right hop
    rcases r.made_eq op with ⟨hmade, -⟩ | ⟨-, ho, -⟩
    · rw [hmade, h.empty hc] at hn
      exact hn.elim List.not_mem_nil List.not_mem_nil
    · rw [hc] at ho
      cases ho
  outside {n u} hu hn hle := by
    rw [h.mem_members_step] at hn
    rcases exists_origin hu with ⟨t, ht, hf⟩ | ⟨rfl, -, -, hmade, -⟩
    · rw [hs.closed_of_fate ht hf, h.mem_closes_iff (Registry.lt_count ht)]
      by_cases hm : n ∈ r.pool.members
      · right
        by_cases hop : op = .close
        · exact .inr (.inr ⟨hop, hm⟩)
        · by_contra hcloses
          exact hn ⟨.inl hm, hle, fun hd => hcloses (.inr (.inl hd)), hop⟩
      · exact .inl (h.outside ht hm (Nat.le_trans (r.count_le_step op) hle))
    · -- A new tenant is not outside.
      rw [hmade] at hn
      exact absurd ⟨.inr (List.mem_singleton_self n), hle, List.not_mem_nil, nofun⟩ hn
  live {n u} hu hc := by
    rcases exists_origin hu with ⟨t, ht, hf⟩ | ⟨-, -, -, -, ho⟩
    · exact (hs.counts_of_fate ht hf hc).2 (h.live ht)
    · rw [hc] at ho
      cases ho

/-! ### Runs -/

theorem orderly_run (schema : IdSchema) (ops : List Op) : ((create schema).run ops).Orderly := by
  induction ops using List.reverseRecOn with
  | nil => exact ⟨⟨.nil, nofun, nofun⟩, fun _ => rfl, nofun, nofun⟩
  | append_singleton ops op ih =>
    rw [run_concat]
    exact ih.step (sound_run schema ops) op

theorem created_run (schema : IdSchema) (ops : List Op) :
    along made (create schema) ops = List.range ((create schema).run ops).count := by
  induction ops using List.reverseRecOn with
  | nil => rfl
  | append_singleton ops op ih =>
    rw [along_concat, run_concat, ih]
    rcases made_eq ((create schema).run ops) op with ⟨hmade, hcount⟩ | ⟨-, -, hmade, hcount⟩
    · rw [hmade, hcount, List.append_nil]
    · rw [hmade, hcount, List.range_succ]

theorem closed_pool_run (schema : IdSchema) (ops : List Op) :
    ((create schema).run ops).pool.closed = true ↔ .close ∈ ops := by
  induction ops using List.reverseRecOn with
  | nil => exact ⟨nofun, nofun⟩
  | append_singleton ops op ih =>
    rw [run_concat, closed_pool_step, ih, List.mem_append, List.mem_singleton, eq_comm]

theorem lt_count_of_shut (hn : n ∈ r.shut op) : n < r.count := by
  unfold shut at hn
  split at hn
  · split at hn
    · exact List.mem_singleton.1 hn ▸ ‹_›
    · cases hn
  · cases hn

theorem Orderly.lt_count_of_dropped (h : r.Orderly) (hn : n ∈ r.dropped op) : n < r.count := by
  unfold dropped at hn
  split at hn
  · rw [Pool.result_removeTenant, Option.mem_toList, h.keyed.find?_eq_some_iff] at hn
    exact h.keyed.lt_size n hn.1
  · cases hn

theorem lt_count_of_along (report : Registry → Op → List Nat) (schema : IdSchema)
    (hreport : ∀ {r : Registry} {op : Op} {n : Nat}, r.Orderly → n ∈ report r op → n < r.count)
    (hn : n ∈ along report (create schema) ops) : n < ((create schema).run ops).count := by
  induction ops using List.reverseRecOn with
  | nil => cases hn
  | append_singleton ops op ih =>
    rw [along_concat, List.mem_append] at hn
    rw [run_concat]
    refine Nat.lt_of_lt_of_le ?_ (count_le_step _ op)
    exact hn.elim ih (hreport (orderly_run schema ops))

theorem lt_count_of_shut_run (hn : n ∈ along shut (create schema) ops) :
    n < ((create schema).run ops).count :=
  lt_count_of_along shut schema (fun _ => lt_count_of_shut) hn

theorem lt_count_of_dropped_run (hn : n ∈ along dropped (create schema) ops) :
    n < ((create schema).run ops).count :=
  lt_count_of_along dropped schema Orderly.lt_count_of_dropped hn

/-- The members are the tenants created and not removed, until the pool is closed or their ids are
given out again. -/
theorem mem_members_run (schema : IdSchema) (ops : List Op) (n : Nat) :
    n ∈ ((create schema).run ops).pool.members ↔ n < ((create schema).run ops).count ∧
      ((create schema).run ops).count ≤ n + UInt32.size ∧
      n ∉ along dropped (create schema) ops ∧ .close ∉ ops := by
  induction ops using List.reverseRecOn with
  | nil => exact ⟨nofun, nofun⟩
  | append_singleton ops op ih =>
    have ho := orderly_run schema ops
    have hclosed := closed_pool_run schema ops
    rw [run_concat, ho.mem_members_step, ih, along_concat, List.mem_append, List.mem_append,
      List.mem_singleton, eq_comm (a := Op.close)]
    rcases made_eq ((create schema).run ops) op with
      ⟨hmade, hcount⟩ | ⟨rfl, hopen, hmade, hcount⟩ <;> rw [hmade, hcount]
    · simp only [List.not_mem_nil, or_false, not_or]
      constructor
      · rintro ⟨⟨hlt, hle, hold, hopen⟩, -, hnew, hop⟩
        exact ⟨hlt, hle, ⟨hold, hnew⟩, hopen, hop⟩
      · rintro ⟨hlt, hle, ⟨hold, hnew⟩, hopen, hop⟩
        exact ⟨⟨hlt, hle, hold, hopen⟩, hle, hnew, hop⟩
    · -- A number that is given out now has not been removed before.
      have hfresh : n = ((create schema).run ops).count →
          n ∉ along dropped (create schema) ops := by
        rintro rfl hn
        exact Nat.lt_irrefl _ (lt_count_of_dropped_run hn)
      have hnot : .close ∉ ops := by
        rw [← hclosed, hopen]
        exact Bool.false_ne_true
      rw [List.mem_singleton, Nat.lt_succ_iff_lt_or_eq]
      simp only [dropped, List.not_mem_nil, or_false, ne_eq, reduceCtorEq, not_false_eq_true,
        and_true]
      constructor
      · rintro ⟨⟨hlt, -, hold, -⟩ | rfl, hle⟩
        · exact ⟨.inl hlt, hle, hold, hnot⟩
        · exact ⟨.inr rfl, hle, hfresh rfl, hnot⟩
      · rintro ⟨hn, hle, hold, -⟩
        exact ⟨hn.imp_left fun hlt => ⟨hlt, Nat.le_of_succ_le hle, hold, hnot⟩, hle⟩

/-- A tenant whose id was given out again is not closed with its pool. -/
theorem closed_iff_run (ht : ((create schema).run ops).tenant? n = some t) :
    t.closed = true ↔ n ∈ along shut (create schema) ops ∨
      n ∈ along dropped (create schema) ops ∨
      .close ∈ ops ∧ ((create schema).run ops).count ≤ n + UInt32.size := by
  induction ops using List.reverseRecOn generalizing t with
  | nil => cases ht
  | append_singleton ops op ih =>
    have hsound := sound_run schema ops
    have ho := orderly_run schema ops
    have hclosed := closed_pool_run schema ops
    rw [run_concat] at ht
    rw [run_concat, along_concat, along_concat, List.mem_append, List.mem_append, List.mem_append,
      List.mem_singleton, eq_comm (a := Op.close)]
    rcases exists_origin ht with ⟨v, hv, hf⟩ | ⟨rfl, hopen, rfl, -, hc⟩
    · -- The pool closes only its members, but who is none was removed and so is closed already.
      have hmember := mem_members_run schema ops n
      have hlt := lt_count hv
      -- The ids go on only as long as the pool is not closed.
      have hcount : .close ∈ ops ∨ op = .close →
          (((create schema).run ops).step op).count = ((create schema).run ops).count :=
        fun hop => count_step_of_closed (hop.imp_left hclosed.2)
      rw [hsound.closed_of_fate hv hf, ih hv, ho.mem_closes_iff hlt]
      constructor
      · rintro ((hn | hn | ⟨hop, hle⟩) | hn | hn | ⟨hop, hm⟩)
        · exact .inl (.inl hn)
        · exact .inr (.inl (.inl hn))
        · exact .inr (.inr ⟨.inl hop, hcount (.inl hop) ▸ hle⟩)
        · exact .inl (.inr hn)
        · exact .inr (.inl (.inr hn))
        · exact .inr (.inr ⟨.inr hop, hcount (.inr hop) ▸ (hmember.1 hm).2.1⟩)
      · rintro ((hn | hn) | (hn | hn) | ⟨hop, hle⟩)
        · exact .inl (.inl hn)
        · exact .inr (.inl hn)
        · exact .inl (.inr (.inl hn))
        · exact .inr (.inr (.inl hn))
        · rw [hcount hop] at hle
          by_cases hclose : .close ∈ ops
          · exact .inl (.inr (.inr ⟨hclose, hle⟩))
          · by_cases hn : n ∈ along dropped (create schema) ops
            · exact .inl (.inr (.inl hn))
            · have hm := hmember.2 ⟨hlt, hle, hn, hclose⟩
              exact .inr (.inr (.inr ⟨hop.resolve_left hclose, hm⟩))
    · have hshut : _ ∉ along shut (create schema) ops :=
        fun hn => Nat.lt_irrefl _ (lt_count_of_shut_run hn)
      have hdropped : _ ∉ along dropped (create schema) ops :=
        fun hn => Nat.lt_irrefl _ (lt_count_of_dropped_run hn)
      have hnot : .close ∉ ops := by
        rw [← hclosed, hopen]
        exact Bool.false_ne_true
      simp [hc, hshut, hdropped, hnot, shut, dropped]

theorem closed_run (h : Sound schema r) (ht : r.tenant? n = some t) (hc : t.closed = true)
    (more : List Op) : ∃ u, (r.run more).tenant? n = some u ∧ u.closed = true ∧
      u.chunkCount = t.chunkCount := by
  induction more generalizing r t with
  | nil => exact ⟨t, ht, hc, rfl⟩
  | cons op more ih =>
    obtain ⟨u, hu, hf⟩ := exists_fate ht op
    have huc := (h.closed_of_fate ht hf).2 (.inl hc)
    obtain ⟨v, hv, hvc, hcount⟩ := ih (h.step op).1 hu huc
    exact ⟨v, hv, hvc, hcount.trans (h.counts_of_fate ht hf huc).1⟩

/-- The numbers of the tenants that a run creates, in this order. -/
def created (r : Registry) (ops : List Op) : List Nat := along made r ops

/-- The numbers of the tenants that a run removes from the pool. -/
def removed (r : Registry) (ops : List Op) : List Nat := along dropped r ops

/-- The numbers of the tenants that a run closes directly. -/
def closedDirectly (r : Registry) (ops : List Op) : List Nat := along shut r ops

/-- What closing means in a run: which tenants there are and which of them are found in the pool,
what closes a tenant, and that a closed one stays closed and does nothing any more. -/
structure ClosesForGood (r : Registry) (ops : List Op) : Prop where
  created_eq : r.created ops = List.range (r.run ops).count
  id : ∀ n ∈ r.created ops, ∃ t, (r.run ops).tenant? n = some t ∧ t.id.toNat = n
  find?_iff : ∀ id n, (r.run ops).pool.find? id = some n ↔
    n = id.toNat ∧ n ∈ r.created ops ∧ n ∉ r.removed ops ∧ .close ∉ ops
  closed_iff : ∀ n t, (r.run ops).tenant? n = some t → (t.closed = true ↔
    n ∈ r.closedDirectly ops ∨ n ∈ r.removed ops ∨ .close ∈ ops)
  gone : ∀ n t, (r.run ops).tenant? n = some t → (r.run ops).pool.find? t.id ≠ some n →
    t.closed = true
  refused : .close ∈ ops → (∀ n t, (r.run ops).tenant? n = some t → t.closed = true) ∧
    (r.run ops).pool.newTenant = ⟨(r.run ops).pool, .error .closed, []⟩
  last : ∀ op n t u, (r.run ops).tenant? n = some t → ((r.run ops).step op).tenant? n = some u →
    u.closed = true → u.chunkCount = t.chunkCount
  final : ∀ n t, (r.run ops).tenant? n = some t → t.closed = true → t.Inert ∧
    ∀ more, ∃ u, (r.run (ops ++ more)).tenant? n = some u ∧ u.Inert ∧ u.chunkCount = t.chunkCount

/-- Closing is final in every run of a pool and reaches every tenant that is not found in the pool
any more. -/
theorem closesForGood_of_run (schema : IdSchema) (ops : List Op)
    (h : ((create schema).run ops).count < UInt32.size) : ClosesForGood (create schema) ops := by
  have hsound := sound_run schema ops
  have htoNat {n : Nat} {t : Tenant} (ht : ((create schema).run ops).tenant? n = some t) :
      t.id.toNat = n := by
    rw [hsound.id ht]
    exact UInt32.toNat_ofNat_of_lt' (Nat.lt_trans (lt_count ht) h)
  have hcreated (n : Nat) :
      n ∈ (create schema).created ops ↔ n < ((create schema).run ops).count := by
    rw [created, created_run, List.mem_range]
  have horderly := orderly_run schema ops
  -- So few tenants have ids of their own.
  have hle (n : Nat) : ((create schema).run ops).count ≤ n + UInt32.size :=
    Nat.le_trans (Nat.le_of_lt h) (Nat.le_add_left ..)
  have hclosed {n : Nat} {t : Tenant} (ht : ((create schema).run ops).tenant? n = some t) :
      t.closed = true ↔ n ∈ (create schema).closedDirectly ops ∨
        n ∈ (create schema).removed ops ∨ .close ∈ ops := by
    rw [closed_iff_run ht, and_iff_left (hle n)]
    rfl
  refine
    { created_eq := created_run schema ops
      id := fun n hn => ?_
      find?_iff := fun id n => ?_
      closed_iff := fun n t ht => hclosed ht
      gone := fun n t ht hnone => ?_
      refused := fun hop => ⟨fun n t ht => (hclosed ht).2 (.inr (.inr hop)), ?_⟩
      last := fun op n t u ht hu hc => ?_
      final := fun n t ht hc => ?_ }
  · have ht := Array.getElem?_eq_getElem ((hcreated n).1 hn)
    exact ⟨_, ht, htoNat ht⟩
  · rw [horderly.keyed.find?_eq_some_iff, mem_members_run, hcreated, removed]
    constructor
    · rintro ⟨⟨hn, -, hremoved, hclose⟩, rfl⟩
      exact ⟨(UInt32.toNat_ofNat_of_lt' (Nat.lt_trans hn h)).symm, hn, hremoved, hclose⟩
    · rintro ⟨rfl, hn, hremoved, hclose⟩
      exact ⟨⟨hn, hle _, hremoved, hclose⟩, UInt32.ofNat_toNat⟩
  · refine horderly.outside ht (fun hn => hnone ?_) (hle n)
    exact horderly.keyed.find?_eq_some_iff.2 ⟨hn, (hsound.id ht).symm⟩
  · exact if_pos ((closed_pool_run schema ops).2 hop)
  · obtain ⟨v, hv, hf⟩ := exists_fate ht op
    obtain rfl : v = u := Option.some.inj (hv.symm.trans hu)
    exact (hsound.counts_of_fate ht hf hc).1
  · refine ⟨Tenant.inert_of_closed hc (horderly.live ht hc), fun more => ?_⟩
    obtain ⟨u, hu, huc, hcount⟩ := closed_run hsound ht hc more
    rw [← run_append] at hu
    exact ⟨u, hu, Tenant.inert_of_closed huc ((orderly_run schema _).live hu huc), hcount⟩

/-- Of two tenants, one that was removed is gone and one that was closed directly is still found. -/
theorem closesForGood_of_run_pair :
    let r := create ⟨2, by decide, by decide⟩
    let ops := [.newTenant, .newTenant, .closeTenant 1, .removeTenant 0]
    (r.run ops).count < UInt32.size ∧ ClosesForGood r ops ∧
      r.created ops = [0, 1] ∧ r.removed ops = [0] ∧ r.closedDirectly ops = [1] ∧
      (r.run ops).pool.find? 0 = none ∧ (r.run ops).pool.find? 1 = some 1 := by
  have hcount : ((create ⟨2, by decide, by decide⟩).run
      [.newTenant, .newTenant, .closeTenant 1, .removeTenant 0]).count < UInt32.size := by
    decide +kernel
  refine ⟨hcount, closesForGood_of_run _ _ hcount, ?_⟩
  decide +kernel

end EntityStore.Registry
