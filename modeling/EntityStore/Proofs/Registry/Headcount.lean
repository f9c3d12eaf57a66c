import EntityStore.Proofs.Registry.Closing

/-! The number of tenants that a pool tells. It counts its members, of which those that were closed
directly are not open any more but stay until they are removed. Open tenants that are no members can
be only those whose ids were given out again. -/

namespace EntityStore.Registry

variable {schema : IdSchema} {r : Registry} {n : Nat} {ops : List Op}

/-- The numbers of the tenants that were created and are not closed. -/
def openTenants (r : Registry) : List Nat :=
  (List.range r.count).filter fun n => (r.tenant? n).any fun t => !t.closed

/-- The numbers of the members that are closed. -/
def lingering (r : Registry) : List Nat :=
  r.pool.members.filter fun n => (r.tenant? n).any (·.closed)

/-- The numbers of the open tenants that are no members. -/
def displaced (r : Registry) : List Nat :=
  r.openTenants.filter fun n => n ∉ r.pool.members

theorem nodup_openTenants (r : Registry) : r.openTenants.Nodup := List.nodup_range.filter _

theorem mem_openTenants : n ∈ r.openTenants ↔ r.IsOpen n := by
  rw [openTenants, List.mem_filter, List.mem_range, Option.any_eq_true]
  constructor
  · rintro ⟨-, t, ht, hc⟩
    exact ⟨t, ht, by simpa using hc⟩
  · rintro ⟨t, ht, hc⟩
    exact ⟨lt_count ht, t, ht, by simpa using hc⟩

theorem mem_lingering :
    n ∈ r.lingering ↔ n ∈ r.pool.members ∧ ∃ t, r.tenant? n = some t ∧ t.closed = true := by
  rw [lingering, List.mem_filter, Option.any_eq_true]

theorem mem_displaced : n ∈ r.displaced ↔ r.IsOpen n ∧ n ∉ r.pool.members := by
  rw [displaced, List.mem_filter, mem_openTenants, decide_eq_true_eq]

/-- The members that are not lingering are the open tenants that are not displaced. -/
theorem Orderly.tenantCount_add (h : r.Orderly) :
    r.pool.tenantCount + r.displaced.length = r.openTenants.length + r.lingering.length := by
  have hperm : (r.pool.members.filter fun n => !(r.tenant? n).any (·.closed)).Perm
      (r.openTenants.filter fun n => !decide (n ∉ r.pool.members)) := by
    refine (List.perm_ext_iff_of_nodup (h.keyed.nodup.filter _)
      (r.nodup_openTenants.filter _)).2 fun n => ?_
    rw [List.mem_filter, List.mem_filter, mem_openTenants, Bool.not_eq_true', Option.any_eq_false,
      Bool.not_eq_true', decide_eq_false_iff_not, not_not, and_comm]
    refine and_congr_left fun hm => ?_
    have ht := Array.getElem?_eq_getElem (h.keyed.lt_size n hm)
    constructor
    · intro hall
      exact ⟨_, ht, by simpa using hall _ ht⟩
    · rintro ⟨t, ht, hc⟩ u hu
      obtain rfl := Option.some.inj (ht.symm.trans hu)
      simpa using hc
  have hmembers := List.length_eq_length_filter_add (l := r.pool.members)
    fun n => (r.tenant? n).any (·.closed)
  have hopen := List.length_eq_length_filter_add (l := r.openTenants)
    fun n => n ∉ r.pool.members
  rw [hperm.length_eq] at hmembers
  unfold Pool.tenantCount displaced lingering
  omega

theorem mem_openTenants_run (schema : IdSchema) (ops : List Op) (n : Nat) :
    n ∈ ((create schema).run ops).openTenants ↔ n ∈ (create schema).created ops ∧
      n ∉ (create schema).closedDirectly ops ∧ n ∉ (create schema).removed ops ∧
      (.close ∈ ops → n + UInt32.size < ((create schema).run ops).count) := by
  rw [mem_openTenants, created, created_run, List.mem_range]
  constructor
  · rintro ⟨t, ht, hc⟩
    have hclosed := closed_iff_run ht
    rw [hc] at hclosed
    have hnot := mt hclosed.2 Bool.false_ne_true
    rw [not_or, not_or, not_and, Nat.not_le] at hnot
    exact ⟨lt_count ht, hnot⟩
  · rintro ⟨hlt, hshut, hremoved, hclose⟩
    have ht := Array.getElem?_eq_getElem hlt
    refine ⟨_, ht, Bool.eq_false_iff.2 fun hc => ?_⟩
    rcases (closed_iff_run ht).1 hc with hn | hn | ⟨hop, hle⟩
    · exact hshut hn
    · exact hremoved hn
    · exact Nat.not_le_of_lt (hclose hop) hle

theorem mem_lingering_run (schema : IdSchema) (ops : List Op) (n : Nat) :
    n ∈ ((create schema).run ops).lingering ↔ n ∈ (create schema).closedDirectly ops ∧
      n ∉ (create schema).removed ops ∧ .close ∉ ops ∧
      ((create schema).run ops).count ≤ n + UInt32.size := by
  rw [mem_lingering, mem_members_run]
  constructor
  · rintro ⟨⟨-, hle, hremoved, hclose⟩, t, ht, hc⟩
    refine ⟨((closed_iff_run ht).1 hc).resolve_right ?_, hremoved, hclose, hle⟩
    rintro (hn | ⟨hn, -⟩)
    · exact hremoved hn
    · exact hclose hn
  · rintro ⟨hshut, hremoved, hclose, hle⟩
    have hlt := lt_count_of_shut_run hshut
    have ht := Array.getElem?_eq_getElem hlt
    exact ⟨⟨hlt, hle, hremoved, hclose⟩, _, ht, (closed_iff_run ht).2 (.inl hshut)⟩

theorem mem_displaced_run (schema : IdSchema) (ops : List Op) (n : Nat) :
    n ∈ ((create schema).run ops).displaced ↔ n + UInt32.size < ((create schema).run ops).count ∧
      n ∉ (create schema).closedDirectly ops ∧ n ∉ (create schema).removed ops := by
  rw [mem_displaced, ← mem_openTenants, mem_openTenants_run, mem_members_run, created, created_run,
    List.mem_range]
  constructor
  · rintro ⟨⟨hlt, hshut, hremoved, hclose⟩, hmember⟩
    refine ⟨Nat.lt_of_not_le fun hle => hmember ⟨hlt, hle, hremoved, fun hop => ?_⟩, hshut,
      hremoved⟩
    exact Nat.not_le_of_lt (hclose hop) hle
  · rintro ⟨hlt, hshut, hremoved⟩
    exact ⟨⟨Nat.lt_of_le_of_lt (Nat.le_add_right ..) hlt, hshut, hremoved, fun _ => hlt⟩,
      fun hmember => Nat.not_le_of_lt hlt hmember.2.1⟩

/-- What the count of a pool is made of: the open tenants, as far as their ids were not given out
again, and those that were closed directly and are still members. -/
structure CountsMembers (r : Registry) (ops : List Op) : Prop where
  tenantCount : (r.run ops).pool.tenantCount + (r.run ops).displaced.length =
    (r.run ops).openTenants.length + (r.run ops).lingering.length
  mem_openTenants : ∀ n, n ∈ (r.run ops).openTenants ↔ n ∈ r.created ops ∧
    n ∉ r.closedDirectly ops ∧ n ∉ r.removed ops ∧
    (.close ∈ ops → n + UInt32.size < (r.run ops).count)
  mem_lingering : ∀ n, n ∈ (r.run ops).lingering ↔ n ∈ r.closedDirectly ops ∧
    n ∉ r.removed ops ∧ .close ∉ ops ∧ (r.run ops).count ≤ n + UInt32.size
  mem_displaced : ∀ n, n ∈ (r.run ops).displaced ↔ n + UInt32.size < (r.run ops).count ∧
    n ∉ r.closedDirectly ops ∧ n ∉ r.removed ops
  nodup : ((r.run ops).openTenants ++ (r.run ops).lingering).Nodup
  sublist : (r.run ops).displaced.Sublist (r.run ops).openTenants
  exact_iff : (r.run ops).count ≤ UInt32.size →
    ((r.run ops).pool.tenantCount = (r.run ops).openTenants.length ↔
      ∀ n ∈ r.closedDirectly ops, n ∈ r.removed ops ∨ .close ∈ ops)

/-- Whatever a run of a pool creates, removes and closes, this is what the pool counts. As long as no
id has been given out twice, the count is the number of open tenants exactly if each tenant that was
closed directly has been removed too, or the pool is closed. -/
theorem countsMembers_of_run (schema : IdSchema) (ops : List Op) :
    CountsMembers (create schema) ops := by
  have h := orderly_run schema ops
  have hlingering := mem_lingering_run schema ops
  have hdisplaced := mem_displaced_run schema ops
  refine
    { tenantCount := h.tenantCount_add
      mem_openTenants := mem_openTenants_run schema ops
      mem_lingering := hlingering
      mem_displaced := hdisplaced
      nodup := ?_
      sublist := List.filter_sublist
      exact_iff := fun hcount => ?_ }
  · refine List.nodup_append.2 ⟨nodup_openTenants _, h.keyed.nodup.filter _, ?_⟩
    rintro n hn m hm rfl
    obtain ⟨t, ht, ho⟩ := mem_openTenants.1 hn
    obtain ⟨-, u, hu, hc⟩ := mem_lingering.1 hm
    obtain rfl := Option.some.inj (ht.symm.trans hu)
    rw [ho] at hc
    cases hc
  · have hnone : ((create schema).run ops).displaced = [] := by
      refine List.eq_nil_iff_forall_not_mem.2 fun n hn => ?_
      have hlt := Nat.lt_of_lt_of_le ((hdisplaced n).1 hn).1 hcount
      exact Nat.not_le_of_lt hlt (Nat.le_add_left ..)
    have hle (n : Nat) : ((create schema).run ops).count ≤ n + UInt32.size :=
      Nat.le_trans hcount (Nat.le_add_left ..)
    have hadd := h.tenantCount_add
    rw [hnone, List.length_nil, Nat.add_zero] at hadd
    rw [hadd, Nat.add_eq_left, List.length_eq_zero_iff, List.eq_nil_iff_forall_not_mem]
    refine forall_congr' fun n => ?_
    rw [hlingering, and_iff_left (hle n)]
    tauto

/-- A tenant that is closed directly is not open any more, but its pool still counts it. -/
theorem tenantCount_of_closed_member :
    let r := (create ⟨4, by decide, by decide⟩).run [.newTenant, .closeTenant 0]
    r.pool.tenantCount = 1 ∧ r.openTenants = [] := by
  decide +kernel

end EntityStore.Registry
