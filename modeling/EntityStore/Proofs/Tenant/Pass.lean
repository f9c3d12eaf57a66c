import EntityStore.Proofs.Tenant.Run
import EntityStore.Tenant.Pass

/-! Passes over a tenant that changes between the questions. A pass never goes back, and it goes
over no slot that has an item at the time. -/

namespace EntityStore

namespace ChunkPass
variable {p q : ChunkPass} {c : Chunk} {x : ItemId}

theorem of_next_eq_some (h : p.next c = (some x, q)) :
    ∃ o, p.offset ≤ o ∧ o < p.stop ∧ c.item? o = some x ∧ q = ⟨o + 1, p.stop⟩ ∧
      ∀ k, p.offset ≤ k → k < o → c.item? k = none := by
  fun_induction next p c with
  | case1 p hlt item hitem =>
    cases h
    exact ⟨p.offset, Nat.le_refl _, hlt, hitem, rfl, fun k hle hk => absurd hle (Nat.not_le.2 hk)⟩
  | case2 p hlt hnone ih =>
    obtain ⟨o, hle, hstop, hitem, hq, hbefore⟩ := ih h
    refine ⟨o, Nat.le_of_succ_le hle, hstop, hitem, hq, fun k hk hko => ?_⟩
    rcases Nat.eq_or_lt_of_le hk with rfl | hk
    · exact hnone
    · exact hbefore k hk hko
  | case3 p hle => cases h

theorem of_next_eq_none (h : p.next c = (none, q)) :
    q.stop ≤ q.offset ∧ ∀ k, p.offset ≤ k → k < p.stop → c.item? k = none := by
  fun_induction next p c with
  | case1 p hlt item hitem => cases h
  | case2 p hlt hnone ih =>
    obtain ⟨hend, hall⟩ := ih h
    refine ⟨hend, fun k hk hks => ?_⟩
    rcases Nat.eq_or_lt_of_le hk with rfl | hk
    · exact hnone
    · exact hall k hk hks
  | case3 p hle =>
    cases h
    exact ⟨Nat.le_of_not_lt hle, fun k hk hks => absurd (Nat.lt_of_le_of_lt hk hks) hle⟩

end ChunkPass

namespace Tenant
variable {t : Tenant} {slot : Nat × Nat} {x : ItemId}

theorem WF.lt_of_itemAt? (h : t.WF) (hs : t.itemAt? slot = some x) :
    slot.1 < t.schema.maxChunks ∧ slot.2 < t.schema.capacity := by
  obtain ⟨c, hc, hi⟩ := Option.bind_eq_some_iff.1 hs
  have hcw := h.chunk_wf hc
  refine ⟨Nat.lt_of_lt_of_le (lt_of_heldChunk? hc) h.size_le, ?_⟩
  rw [← h.chunk_capacity hc]
  exact Nat.lt_of_lt_of_le (hcw.live_of_item hi).1 hcw.nextOffset_le

theorem WF.chunkAfter?_eq (h : t.WF) (following : Nat) :
    t.chunkAfter? following = t.heldChunk? following := by
  rw [chunkAfter?, chunk?_eq h.isOpen, h.chunkCount_eq]
  split
  · rfl
  · exact (heldChunk?_eq_none_iff.2 (Nat.le_of_not_lt ‹_›)).symm

theorem WF.exists_get? (h : t.WF) (hs : t.itemAt? slot = some x) :
    ∃ id, t.schema.decode id = slot ∧ t.get? id = some x := by
  obtain ⟨hi, ho⟩ := h.lt_of_itemAt? hs
  have hdecode := t.schema.decode_encode hi ho
  refine ⟨t.schema.encode slot.1 slot.2, hdecode, ?_⟩
  rw [get?, address?, if_neg (by simp [t.schema.isDetached_encode]), hdecode]
  show (t.chunk? slot.1).bind (·.item? slot.2) = some x
  rw [chunk?_eq h.isOpen]
  exact hs

end Tenant

namespace ItemPass
variable {p q r : ItemPass} {t : Tenant} {x : ItemId} {slot : Nat × Nat}

def lastRead (p : ItemPass) : Nat × Nat := (p.standing.getD 0, p.within.offset - 1)

def Remains (p : ItemPass) (slot : Nat × Nat) : Prop :=
  p.following ≤ slot.1 ∨
    p.standing = some slot.1 ∧ p.within.offset ≤ slot.2 ∧ slot.2 < p.within.stop

/-- A pass stands on the chunk before the one it enters next. -/
def Stands (p : ItemPass) : Prop := ∀ i, p.standing = some i → p.following = i + 1

/-- The pass `p` goes on to `q` without going back, and of the slots that have an item it goes over
those in `read` only. -/
structure Goes (p : ItemPass) (t : Tenant) (read : Option (Nat × Nat)) (q : ItemPass) : Prop where
  stands : q.Stands
  remains : ∀ slot, q.Remains slot → p.Remains slot
  skips : t.WF → ∀ slot, p.Remains slot → (t.itemAt? slot).isSome →
    q.Remains slot ∨ read = some slot

/-- The pass `p` reads the item `x` and has become `q`. -/
structure Reads (p : ItemPass) (t : Tenant) (x : ItemId) (q : ItemPass) : Prop where
  goes : p.Goes t (some q.lastRead) q
  item : t.itemAt? q.lastRead = some x
  remains : p.Remains q.lastRead
  standing : q.standing = some q.lastRead.1
  after : ∀ slot, q.Remains slot → Prod.Lex (· < ·) (· < ·) q.lastRead slot

/-- The items still to come are all in chunks that the pass has not entered. -/
def Spent (p : ItemPass) (t : Tenant) : Prop :=
  ∀ slot, p.Remains slot → (t.itemAt? slot).isSome → p.following ≤ slot.1

theorem Goes.trans {read : Option (Nat × Nat)} (h : p.Goes t none q) (h' : q.Goes t read r) :
    p.Goes t read r where
  stands := h'.stands
  remains slot hr := h.remains slot (h'.remains slot hr)
  skips hwf slot hp hi := h'.skips hwf slot ((h.skips hwf slot hp hi).resolve_right nofun) hi

theorem Goes.reads (h : p.Goes t none q) (h' : q.Reads t x r) : p.Reads t x r where
  goes := h.trans h'.goes
  item := h'.item
  remains := h.remains _ h'.remains
  standing := h'.standing
  after := h'.after

/-! ### One chunk -/

theorem standing_stay (p : ItemPass) (t : Tenant) : (p.stay t).2.standing = p.standing := by
  unfold stay
  split <;> rfl

theorem reads_stay (hp : p.Stands) (h : p.stay t = (some x, q)) : p.Reads t x q := by
  unfold stay at h
  split at h
  · cases h
  · rename_i c hc
    obtain ⟨i, hi, hc⟩ := Option.bind_eq_some_iff.1 hc
    cases hn : p.within.next c with
    | mk item within =>
      rw [hn] at h
      cases h
      obtain ⟨o, hle, hlt, hitem, rfl, hbefore⟩ := ChunkPass.of_next_eq_some hn
      have hat (k : Nat) : t.itemAt? (i, k) = c.item? k := by simp [Tenant.itemAt?, hc]
      have hread : lastRead { p with within := ⟨o + 1, p.within.stop⟩ } = (i, o) := by
        simp [lastRead, hi]
      refine ⟨⟨hp, ?_, ?_⟩, ?_, ?_, ?_, ?_⟩
      · rintro slot (hs | ⟨hs, hge, hstop⟩)
        · exact .inl hs
        · exact .inr ⟨hs, Nat.le_trans hle (Nat.le_of_succ_le hge), hstop⟩
      · rintro - ⟨j, k⟩ (hs | ⟨hs, hge, hstop⟩) hsome
        · exact .inl (.inl hs)
        · obtain rfl : i = j := Option.some.inj (hi.symm.trans hs)
          rw [hat] at hsome
          -- The slots below `o` have no item, `o` is the one read, and those above it still remain.
          rcases Nat.lt_trichotomy k o with hk | rfl | hk
          · rw [hbefore k hge hk] at hsome
            cases hsome
          · exact .inr (congrArg some hread)
          · exact .inl (.inr ⟨hs, hk, hstop⟩)
      · rw [hread, hat, hitem]
      · rw [hread]
        exact .inr ⟨hi, hle, hlt⟩
      · rw [hread]
        exact hi
      · rw [hread]
        rintro ⟨j, k⟩ (hs | ⟨hs, hge, -⟩)
        · exact .left _ _ (Nat.lt_of_lt_of_le (hp i hi ▸ Nat.lt_succ_self i) hs)
        · obtain rfl : i = j := Option.some.inj (hi.symm.trans hs)
          exact .right _ hge

theorem spent_of_stay (h : p.stay t = (none, q)) : p.Spent t := by
  rintro ⟨i, o⟩ (hs | ⟨hs, hge, hlt⟩) hsome
  · exact hs
  · cases hc : t.heldChunk? i with
    | none => simp [Tenant.itemAt?, hc] at hsome
    | some c =>
      simp only [stay, hs, Option.bind_some, hc, Prod.mk.injEq] at h
      obtain ⟨-, hall⟩ := ChunkPass.of_next_eq_none (Prod.ext h.1 rfl)
      simp [Tenant.itemAt?, hc, hall o hge hlt] at hsome

theorem goes_stay (hp : p.Stands) (h : p.stay t = (none, q)) : p.Goes t none q ∧ q.Spent t := by
  have hspent := spent_of_stay h
  have hfollowing : q.following = p.following := by simpa [h] using following_stay p t
  have hgoes : p.Goes t none q := by
    unfold stay at h
    split at h
    · cases h
      exact ⟨hp, fun _ hr => hr, fun _ _ hr _ => .inl hr⟩
    · rename_i c hc
      cases hn : p.within.next c with
      | mk item within =>
        rw [hn] at h
        cases h
        obtain ⟨hend, -⟩ := ChunkPass.of_next_eq_none hn
        refine ⟨hp, ?_, fun _ slot hr hsome => .inl (.inl (hspent slot hr hsome))⟩
        rintro slot (hs | ⟨-, hge, hlt⟩)
        · exact .inl hs
        · exact absurd (Nat.lt_of_le_of_lt hge hlt) (Nat.not_lt.2 hend)
  exact ⟨hgoes, fun slot hr hsome => hfollowing ▸ hspent slot (hgoes.remains slot hr) hsome⟩

theorem goes_enter (hs : p.Spent t) (h : p.enter? t = some q) : p.Goes t none q := by
  obtain ⟨c, hc, rfl⟩ := Option.map_eq_some_iff.1 h
  refine ⟨?_, ?_, ?_⟩
  · intro i hi
    rw [Option.some.inj hi]
  · rintro slot (hge | ⟨hi, -⟩)
    · exact .inl (Nat.le_of_succ_le hge)
    · exact .inl (Nat.le_of_eq (Option.some.inj hi))
  · rintro hwf ⟨j, k⟩ hr hsome
    rcases Nat.eq_or_lt_of_le (hs _ hr hsome) with rfl | hlt
    · rw [hwf.chunkAfter?_eq] at hc
      obtain ⟨item, hitem⟩ := Option.isSome_iff_exists.1 hsome
      have hitem : c.item? k = some item := by simpa [Tenant.itemAt?, hc] using hitem
      have hcw := hwf.chunk_wf hc
      -- A slot with an item is live, and the pass goes as far as slots are handed out now.
      refine .inl (.inr ⟨rfl, Nat.zero_le k, ?_⟩)
      rw [ChunkPass.start, hcw.highWater_eq]
      exact (hcw.live_of_item hitem).1
    · exact .inl (.inl hlt)

theorem Spent.itemAt?_eq_none (hs : p.Spent t) (hwf : t.WF) (h : p.enter? t = none)
    (hr : p.Remains slot) : t.itemAt? slot = none := by
  by_contra hsome
  have hle := hs slot hr (Option.ne_none_iff_isSome.1 hsome)
  have hnone : t.chunkAfter? p.following = none := Option.map_eq_none_iff.1 h
  rw [hwf.chunkAfter?_eq] at hnone
  have hsize := Tenant.heldChunk?_eq_none_iff.1 hnone
  have hc := Tenant.heldChunk?_eq_none_iff.2 (Nat.le_trans hsize hle)
  exact hsome (by simp [Tenant.itemAt?, hc])

/-! ### All chunks -/

theorem reads_next (hp : p.Stands) (h : p.next t = (some x, q)) : p.Reads t x q := by
  fun_induction next p t with
  | case1 p item q' hs =>
    cases h
    exact reads_stay hp hs
  | case2 p q' hs he => cases h
  | case3 p q' hs r he ih =>
    obtain ⟨hgoes, hspent⟩ := goes_stay hp hs
    have hgoes := hgoes.trans (goes_enter hspent he)
    exact hgoes.reads (ih hgoes.stands h)

theorem goes_next (hp : p.Stands) (h : p.next t = (none, q)) :
    p.Goes t none q ∧ (t.WF → ∀ slot, q.Remains slot → t.itemAt? slot = none) := by
  fun_induction next p t with
  | case1 p item q' hs => cases h
  | case2 p q' hs he =>
    cases h
    obtain ⟨hgoes, hspent⟩ := goes_stay hp hs
    exact ⟨hgoes, fun hwf slot hr => hspent.itemAt?_eq_none hwf he hr⟩
  | case3 p q' hs r he ih =>
    obtain ⟨hgoes, hspent⟩ := goes_stay hp hs
    have hgoes := hgoes.trans (goes_enter hspent he)
    obtain ⟨hgoes', hrest⟩ := ih hgoes.stands h
    exact ⟨hgoes.trans hgoes', hrest⟩

theorem next_of_closed (hc : t.closed = true) (p : ItemPass) : p.next t = p.stay t := by
  have hnone (q : ItemPass) : q.enter? t = none := by
    simp [enter?, Tenant.chunkAfter?, Tenant.chunk?, hc]
  rw [next]
  split
  · exact ‹p.stay t = _›.symm
  · rename_i q hs
    rw [hs]
    split
    · rfl
    · rename_i r he
      rw [hnone] at he
      cases he

end ItemPass
end EntityStore
