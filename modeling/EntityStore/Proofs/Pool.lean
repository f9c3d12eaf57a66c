import EntityStore.Pool
import EntityStore.Proofs.Tenant.Closing

/-! What operations do to a pool: only closing it closes it, and it never forgets a tenant. Its
members are known by their ids, because they are among the last tenants as many as there are ids. -/

namespace EntityStore.Pool
variable {p q : Pool} {n m : Nat} {id : UInt32}

theorem newTenant_of_open (h : p.closed = false) :
    ∃ q log, p.newTenant = ⟨q, .ok p.tenants.size, log⟩ ∧ q.closed = false ∧
      q.tenants.size = p.tenants.size + 1 := by
  unfold newTenant
  rw [if_neg (by simp [h])]
  exact ⟨_, _, rfl, h, Array.size_push ..⟩

theorem members_newTenant (h : p.closed = false) : p.newTenant.state.members =
    p.members.filter (idOf · != idOf p.tenants.size) ++ [p.tenants.size] := by
  unfold newTenant
  rw [if_neg (by simp [h])]
  rfl

theorem members_withTenant {ρ : Type} {number : Nat} {change : Tenant → Outcome Tenant ρ}
    {o : Outcome Pool ρ} (h : p.withTenant number change = some o) :
    o.state.members = p.members := by
  obtain ⟨t, -, rfl⟩ := Option.map_eq_some_iff.1 h
  rfl

theorem withTenant_spec {ρ : Type} {number : Nat} {change : Tenant → Outcome Tenant ρ}
    {o : Outcome Pool ρ} (h : p.withTenant number change = some o) :
    o.state.closed = p.closed ∧ o.state.tenants.size = p.tenants.size := by
  obtain ⟨t, -, rfl⟩ := Option.map_eq_some_iff.1 h
  exact ⟨rfl, Array.size_setIfInBounds ..⟩

theorem closeTenant_spec (p : Pool) (number : Nat) :
    (p.closeTenant number).state.closed = p.closed ∧
      (p.closeTenant number).state.tenants.size = p.tenants.size := by
  unfold closeTenant
  cases h : p.withTenant number Tenant.close with
  | none => exact ⟨rfl, rfl⟩
  | some o => exact withTenant_spec h

theorem members_closeTenant (p : Pool) (number : Nat) :
    (p.closeTenant number).state.members = p.members := by
  unfold closeTenant withTenant
  cases p.tenants[number]? <;> rfl

theorem tenants_closeTenant (p : Pool) (number n : Nat) :
    (p.closeTenant number).state.tenants[n]? =
      (p.tenants[n]?).map fun t => if n = number then t.close.state else t := by
  unfold closeTenant withTenant
  cases ht : p.tenants[number]? with
  | none =>
    show p.tenants[n]? = _
    by_cases hn : n = number
    · rw [hn, ht]
      rfl
    · simp [hn]
  | some t =>
    show (p.tenants.setIfInBounds number t.close.state)[n]? = _
    rw [Array.getElem?_setIfInBounds]
    by_cases hn : n = number
    · have hlt := (Array.getElem?_eq_some_iff.1 ht).1
      rw [hn, if_pos rfl, if_pos hlt, ht]
      simp
    · rw [if_neg (Ne.symm hn)]
      simp [hn]

theorem closeTenants_spec (p : Pool) (numbers : List Nat) :
    (p.closeTenants numbers).state.closed = p.closed ∧
      (p.closeTenants numbers).state.members = p.members ∧
      (p.closeTenants numbers).state.tenants.size = p.tenants.size := by
  induction numbers generalizing p with
  | nil => exact ⟨rfl, rfl, rfl⟩
  | cons number numbers ih =>
    obtain ⟨hclosed, hmembers, hsize⟩ := ih (p.closeTenant number).state
    obtain ⟨hclosed', hsize'⟩ := p.closeTenant_spec number
    exact ⟨hclosed.trans hclosed', hmembers.trans (p.members_closeTenant number),
      hsize.trans hsize'⟩

theorem tenants_closeTenants (p : Pool) (numbers : List Nat) (n : Nat) :
    (p.closeTenants numbers).state.tenants[n]? =
      (p.tenants[n]?).map fun t => if n ∈ numbers then t.close.state else t := by
  induction numbers generalizing p with
  | nil => simp [closeTenants]
  | cons number numbers ih =>
    show ((p.closeTenant number).state.closeTenants numbers).state.tenants[n]? = _
    rw [ih, tenants_closeTenant, Option.map_map]
    congr 1
    funext t
    by_cases hn : n = number
    · simp [hn, Tenant.close_of_closed t.closed_close]
    · simp [hn]

theorem result_removeTenant (p : Pool) (id : UInt32) : (p.removeTenant id).result = p.find? id := by
  unfold removeTenant
  split
  · exact ‹_ = _›.symm
  · exact ‹_ = _›.symm

theorem members_removeTenant (p : Pool) (id : UInt32) :
    (p.removeTenant id).state.members = ((p.find? id).map p.members.erase).getD p.members := by
  unfold removeTenant
  split
  · rename_i hnone
    rw [hnone]
    rfl
  · rename_i n hn
    rw [hn]
    exact members_closeTenant ..

theorem close_spec (p : Pool) :
    p.close.state.closed = true ∧ p.close.state.tenants.size = p.tenants.size ∧
      p.close.state.members = if p.closed then p.members else [] := by
  unfold close
  cases hc : p.closed with
  | true => exact ⟨hc, rfl, rfl⟩
  | false =>
    obtain ⟨hclosed, hmembers, hsize⟩ :=
      { p with closed := true, members := [] }.closeTenants_spec p.members
    exact ⟨hclosed, hsize, hmembers⟩

theorem removeTenant_spec (p : Pool) (id : UInt32) :
    (p.removeTenant id).state.closed = p.closed ∧
      (p.removeTenant id).state.tenants.size = p.tenants.size := by
  unfold removeTenant
  split
  · exact ⟨rfl, rfl⟩
  · exact closeTenant_spec ..

/-! ### Ids -/

theorem idOf_inj_of_lt (hn : n < m + UInt32.size) (hm : m < n + UInt32.size) :
    idOf n = idOf m ↔ n = m := by
  have hsize : UInt32.size = 2 ^ 32 := rfl
  rw [← UInt32.toNat_inj, idOf, idOf, UInt32.toNat_ofNat', UInt32.toNat_ofNat']
  omega

/-- An id comes up again after all others. -/
theorem idOf_eq_iff (hlt : n < m) (hle : m ≤ n + UInt32.size) :
    idOf n = idOf m ↔ m = n + UInt32.size := by
  have hsize : UInt32.size = 2 ^ 32 := rfl
  rw [← UInt32.toNat_inj, idOf, idOf, UInt32.toNat_ofNat', UInt32.toNat_ofNat']
  omega

/-- The members are among the last tenants, as many of them as there are ids. -/
structure Keyed (p : Pool) : Prop where
  nodup : p.members.Nodup
  lt_size : ∀ n ∈ p.members, n < p.tenants.size
  size_le : ∀ n ∈ p.members, p.tenants.size ≤ n + UInt32.size

theorem Keyed.of_sublist (h : p.Keyed) (hm : q.members.Sublist p.members)
    (hs : q.tenants.size = p.tenants.size) : q.Keyed where
  nodup := h.nodup.sublist hm
  lt_size n hn := hs ▸ h.lt_size n (hm.subset hn)
  size_le n hn := hs ▸ h.size_le n (hm.subset hn)

theorem Keyed.idOf_inj (h : p.Keyed) (hn : n ∈ p.members) (hm : m ∈ p.members) :
    idOf n = idOf m ↔ n = m :=
  idOf_inj_of_lt (Nat.lt_of_lt_of_le (h.lt_size n hn) (h.size_le m hm))
    (Nat.lt_of_lt_of_le (h.lt_size m hm) (h.size_le n hn))

theorem Keyed.find?_eq_some_iff (h : p.Keyed) :
    p.find? id = some n ↔ n ∈ p.members ∧ idOf n = id := by
  unfold find?
  constructor
  · intro hn
    exact ⟨List.mem_of_find?_eq_some hn, by simpa using List.find?_some hn⟩
  · rintro ⟨hn, rfl⟩
    have hsome : (p.members.find? (idOf · == idOf n)).isSome :=
      List.find?_isSome.2 ⟨n, hn, beq_self_eq_true _⟩
    obtain ⟨m, hm⟩ := Option.isSome_iff_exists.1 hsome
    have hid : idOf m = idOf n := by simpa using List.find?_some hm
    rw [hm, (h.idOf_inj (List.mem_of_find?_eq_some hm) hn).1 hid]

theorem Keyed.mem_members_newTenant (h : p.Keyed) (hc : p.closed = false) :
    n ∈ p.newTenant.state.members ↔
      (n ∈ p.members ∨ n = p.tenants.size) ∧ p.tenants.size < n + UInt32.size := by
  have hpos : 0 < UInt32.size := by decide
  rw [members_newTenant hc, List.mem_append, List.mem_filter, List.mem_singleton, bne_iff_ne]
  constructor
  · rintro (⟨hn, hid⟩ | rfl)
    · rw [ne_eq, idOf_eq_iff (h.lt_size n hn) (h.size_le n hn)] at hid
      exact ⟨.inl hn, Nat.lt_of_le_of_ne (h.size_le n hn) hid⟩
    · exact ⟨.inr rfl, Nat.lt_add_of_pos_right hpos⟩
  · rintro ⟨hn | rfl, hlt⟩
    · rw [ne_eq, idOf_eq_iff (h.lt_size n hn) (h.size_le n hn)]
      exact .inl ⟨hn, Nat.ne_of_lt hlt⟩
    · exact .inr rfl

theorem Keyed.newTenant (h : p.Keyed) : p.newTenant.state.Keyed := by
  cases hc : p.closed with
  | true =>
    have hsame : p.newTenant.state = p := by
      rw [Pool.newTenant, if_pos hc]
    rwa [hsame]
  | false =>
    obtain ⟨q, log, hnew, -, hsize⟩ := newTenant_of_open hc
    have hmem {n : Nat} := h.mem_members_newTenant (n := n) hc
    have hnodup : (p.members.filter (idOf · != idOf p.tenants.size) ++ [p.tenants.size]).Nodup := by
      refine List.nodup_append.2 ⟨h.nodup.filter _, List.nodup_singleton _, fun a ha b hb => ?_⟩
      rw [List.mem_singleton.1 hb]
      exact Nat.ne_of_lt (h.lt_size a (List.mem_filter.1 ha).1)
    rw [← members_newTenant hc] at hnodup
    rw [hnew] at hmem hnodup ⊢
    refine ⟨hnodup, fun n hn => ?_, fun n hn => ?_⟩ <;> rw [hsize]
    · rcases (hmem.1 hn).1 with hn | rfl
      · exact Nat.lt_succ_of_lt (h.lt_size n hn)
      · exact Nat.lt_succ_self _
    · exact (hmem.1 hn).2

theorem Keyed.removeTenant (h : p.Keyed) (id : UInt32) : (p.removeTenant id).state.Keyed := by
  refine h.of_sublist ?_ (p.removeTenant_spec id).2
  rw [members_removeTenant]
  cases p.find? id with
  | none => exact .refl _
  | some n => exact List.erase_sublist

theorem Keyed.mem_members_removeTenant (h : p.Keyed) (id : UInt32) :
    n ∈ (p.removeTenant id).state.members ↔ n ∈ p.members ∧ p.find? id ≠ some n := by
  rw [members_removeTenant]
  cases p.find? id with
  | none => simp
  | some m =>
    show n ∈ p.members.erase m ↔ _
    rw [h.nodup.mem_erase_iff, and_comm, ne_eq, ne_eq, Option.some.injEq, eq_comm (a := m)]

theorem Keyed.close (h : p.Keyed) : p.close.state.Keyed := by
  obtain ⟨-, hsize, hmembers⟩ := p.close_spec
  refine h.of_sublist ?_ hsize
  rw [hmembers]
  split
  · exact .refl _
  · exact List.nil_sublist _

/-- All of the last tenants are members, as if none was ever removed. -/
structure Whole (p : Pool) : Prop extends p.Keyed where
  mem_members : ∀ n < p.tenants.size, p.tenants.size ≤ n + UInt32.size → n ∈ p.members

theorem Whole.of_members (h : p.Whole) (hm : q.members = p.members)
    (hs : q.tenants.size = p.tenants.size) : q.Whole where
  toKeyed := h.toKeyed.of_sublist (hm ▸ .refl _) hs
  mem_members n hn hle := hm ▸ h.mem_members n (hs ▸ hn) (hs ▸ hle)

theorem Whole.newTenant (h : p.Whole) (hc : p.closed = false) : p.newTenant.state.Whole := by
  refine ⟨h.toKeyed.newTenant, fun n hn hle => ?_⟩
  have hmem := h.toKeyed.mem_members_newTenant (n := n) hc
  obtain ⟨q, log, hnew, -, hsize⟩ := newTenant_of_open hc
  rw [hnew] at hn hle hmem ⊢
  change n < q.tenants.size at hn
  change q.tenants.size ≤ n + UInt32.size at hle
  rw [hsize] at hn hle
  refine hmem.2 ⟨?_, hle⟩
  rcases Nat.lt_succ_iff_lt_or_eq.1 hn with hn | hn
  · exact .inl (h.mem_members n hn (Nat.le_of_succ_le hle))
  · exact .inr hn

theorem Whole.tenantCount_eq (h : p.Whole) :
    p.tenantCount = min p.tenants.size UInt32.size := by
  have hperm : p.members.Perm
      (List.range' (p.tenants.size - UInt32.size) (min p.tenants.size UInt32.size)) := by
    refine (List.perm_ext_iff_of_nodup h.nodup List.nodup_range').2 fun n => ?_
    rw [List.mem_range'_1]
    constructor
    · intro hn
      have hlt := h.lt_size n hn
      have hle := h.size_le n hn
      omega
    · rintro ⟨hle, hlt⟩
      exact h.mem_members n (by omega) (by omega)
  rw [tenantCount, hperm.length_eq, List.length_range']

end EntityStore.Pool
