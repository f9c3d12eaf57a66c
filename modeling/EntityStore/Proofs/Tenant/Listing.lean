import EntityStore.Proofs.Tenant.Freeing
import EntityStore.Proofs.Tenant.Pass

/-! The whole lists of a tenant, and passes that nothing interrupts. Each question takes the first
entry off the list of what is left, so a pass that is only asked finds the whole list in its
order. -/

namespace EntityStore

/-- What the first questions in a row find. -/
def draw {σ α : Type} (next : σ → Option α × σ) : (count : Nat) → σ → List α
  | 0, _ => []
  | count + 1, s => (next s).1.toList ++ draw next count (next s).2

theorem draw_eq_take {σ α : Type} {next : σ → Option α × σ} (rest : σ → List α)
    (hnext : ∀ s, (next s).1 = (rest s).head? ∧ rest (next s).2 = (rest s).tail) (count : Nat)
    (s : σ) : draw next count s = (rest s).take count := by
  induction count generalizing s with
  | zero => rfl
  | succ count ih =>
    obtain ⟨hhead, htail⟩ := hnext s
    rw [draw, ih, hhead, htail]
    cases rest s <;> simp

namespace Tenant
variable {t : Tenant} {i : Nat} {c : Chunk} {id : UInt32}

/-! ### The lists -/

theorem WF.openChunks_eq (h : t.WF) : t.openChunks = t.chunks.toList := by
  rw [openChunks, if_neg (by simp [h.isOpen])]

theorem WF.drop_openChunks (h : t.WF) (following : Nat) : t.openChunks.drop following =
    (t.heldChunk? following).toList ++ t.openChunks.drop (following + 1) := by
  rw [h.openChunks_eq, heldChunk?, ← Array.getElem?_toList]
  exact List.drop_eq_getElem?_toList_append

theorem WF.drop_openChunks_of_none (h : t.WF) {following : Nat}
    (hnone : t.heldChunk? following = none) : t.openChunks.drop following = [] := by
  rw [h.openChunks_eq]
  exact List.drop_eq_nil_of_le (heldChunk?_eq_none_iff.1 hnone)

theorem WF.mem_openChunks (h : t.WF) : c ∈ t.openChunks ↔ ∃ i, t.heldChunk? i = some c := by
  rw [h.openChunks_eq, List.mem_iff_getElem?]
  simp only [Array.getElem?_toList, heldChunk?]

theorem WF.pairwise_openChunks (h : t.WF) : t.openChunks.Pairwise (·.index < ·.index) := by
  have hindex {j : Nat} (hj : j < t.chunks.toList.length) : t.chunks.toList[j].index = j := by
    refine (h.fits (c := t.chunks.toList[j]) ?_).index
    rw [heldChunk?, ← Array.getElem?_toList, List.getElem?_eq_getElem hj]
  rw [h.openChunks_eq, List.pairwise_iff_getElem]
  intro j k hj hk hlt
  rwa [hindex, hindex]

theorem WF.decode_live (h : t.WF) (hc : t.heldChunk? i = some c) {offset : Nat}
    (hl : c.IsLive offset) : t.schema.decode (t.schema.encode c.index offset) = (i, offset) := by
  have hi : i < t.schema.maxChunks := Nat.lt_of_lt_of_le (lt_of_heldChunk? hc) h.size_le
  have ho := (h.chunk_wf hc).lt_capacity_of_isLive hl
  rw [(h.fits hc).index, t.schema.decode_encode hi (h.chunk_capacity hc ▸ ho)]

theorem WF.mem_idsIn (h : t.WF) (hc : t.heldChunk? i = some c) :
    id ∈ t.idsIn c ↔ t.Allocated id ∧ (t.schema.decode id).1 = i := by
  have hcw := h.chunk_wf hc
  rw [idsIn, List.mem_map]
  constructor
  · rintro ⟨offset, ho, rfl⟩
    have hl := (hcw.mem_allocated offset).1 ho
    rw [Allocated, h.decode_live hc hl]
    exact ⟨⟨t.schema.isDetached_encode .., c, hc, hl⟩, rfl⟩
  · rintro ⟨⟨hid, d, hd, hl⟩, rfl⟩
    obtain rfl : c = d := Option.some.inj (hc.symm.trans hd)
    refine ⟨_, (hcw.mem_allocated _).2 hl, ?_⟩
    rw [(h.fits hc).index, t.schema.encode_decode hid]

theorem WF.pairwise_idsIn (h : t.WF) (hc : t.heldChunk? i = some c) :
    (t.idsIn c).Pairwise (· < ·) := by
  have hlive {offset : Nat} (ho : offset ∈ c.allocated) := h.decode_live hc
    (((h.chunk_wf hc).mem_allocated offset).1 ho)
  refine List.pairwise_map.2
    ((List.pairwise_lt_range.filter _).imp_of_mem fun {o k} ho hk hlt => ?_)
  refine t.schema.lt_of_decode (t.schema.isDetached_encode ..) (t.schema.isDetached_encode ..) ?_
  rw [hlive ho, hlive hk]
  exact .right _ hlt

theorem WF.mem_positions (h : t.WF) : id ∈ t.positions ↔ t.Allocated id := by
  rw [positions, List.mem_flatMap]
  constructor
  · rintro ⟨c, hc, hid⟩
    obtain ⟨i, hc⟩ := h.mem_openChunks.1 hc
    exact ((h.mem_idsIn hc).1 hid).1
  · intro ha
    have ⟨_, c, hc, _⟩ := ha
    exact ⟨c, h.mem_openChunks.2 ⟨_, hc⟩, (h.mem_idsIn hc).2 ⟨ha, rfl⟩⟩

theorem WF.pairwise_positions (h : t.WF) : t.positions.Pairwise (· < ·) := by
  refine List.pairwise_flatMap.2 ⟨fun c hc => ?_, ?_⟩
  · obtain ⟨i, hc⟩ := h.mem_openChunks.1 hc
    exact h.pairwise_idsIn hc
  · refine h.pairwise_openChunks.imp_of_mem fun {c d} hc hd hlt a ha b hb => ?_
    obtain ⟨i, hc⟩ := h.mem_openChunks.1 hc
    obtain ⟨j, hd⟩ := h.mem_openChunks.1 hd
    obtain ⟨⟨hda, -⟩, hia⟩ := (h.mem_idsIn hc).1 ha
    obtain ⟨⟨hdb, -⟩, hjb⟩ := (h.mem_idsIn hd).1 hb
    rw [(h.fits hc).index, (h.fits hd).index, ← hia, ← hjb] at hlt
    exact t.schema.lt_of_decode hda hdb (Prod.lex_def.2 (.inl hlt))

theorem WF.length_positions (h : t.WF) : t.positions.length = t.liveCount := by
  have hlength : ∀ c ∈ t.openChunks, (t.idsIn c).length = c.live := by
    intro c hc
    obtain ⟨i, hc⟩ := h.mem_openChunks.1 hc
    rw [idsIn, List.length_map, (h.chunk_wf hc).length_allocated]
  rw [positions, List.length_flatMap, List.map_congr_left hlength, h.openChunks_eq]
  rfl

theorem WF.filterMap_idsIn (h : t.WF) (hc : t.heldChunk? i = some c) :
    (t.idsIn c).filterMap t.get? = c.items := by
  have hcw := h.chunk_wf hc
  have hget {offset : Nat} (ho : offset ∈ c.allocated) :
      t.get? (t.schema.encode c.index offset) = c.item? offset := by
    rw [get?, address?, if_neg (by simp [t.schema.isDetached_encode]),
      h.decode_live hc ((hcw.mem_allocated offset).1 ho)]
    show (t.chunk? i).bind (·.item? offset) = _
    rw [chunk?_eq h.isOpen, hc, Option.bind_some]
  have hskip {offset : Nat} (ho : c.vacant.contains offset = true) : c.item? offset = none :=
    hcw.item?_eq_none fun hl => hl.2 ((hcw.contains_vacant offset).1 ho)
  rw [idsIn, List.filterMap_map, Chunk.items, hcw.highWater_eq]
  calc c.allocated.filterMap (t.get? ∘ t.schema.encode c.index)
      = c.allocated.filterMap c.item? := List.filterMap_congr fun _ ho => hget ho
    _ = (List.range c.nextOffset).filterMap c.item? := by
      rw [Chunk.allocated, List.filterMap_filter]
      refine List.filterMap_congr fun offset _ => ?_
      cases hv : c.vacant.contains offset with
      | true => simp [hskip hv]
      | false => simp

theorem WF.filterMap_positions (h : t.WF) : t.positions.filterMap t.get? = t.items := by
  rw [positions, List.filterMap_flatMap, items]
  refine List.flatMap_congr fun c hc => ?_
  obtain ⟨i, hc⟩ := h.mem_openChunks.1 hc
  exact h.filterMap_idsIn hc

end Tenant

/-! ### Passes that nothing interrupts -/

namespace IdPass
variable {t : Tenant}

def rest (p : IdPass) (t : Tenant) : List UInt32 :=
  p.pending ++ (t.openChunks.drop p.following).flatMap t.idsIn

theorem next_rest (h : t.WF) (p : IdPass) :
    (p.next t).1 = (p.rest t).head? ∧ (p.next t).2.rest t = (p.rest t).tail := by
  fun_induction next p t with
  | case1 p id pending hp => simp [rest, hp]
  | case2 p hp he =>
    have hnone : t.heldChunk? p.following = none := by
      rw [← h.chunkAfter?_eq]
      exact Option.map_eq_none_iff.1 he
    simp [rest, hp, h.drop_openChunks_of_none hnone]
  | case3 p hp q he ih =>
    obtain ⟨c, hc, rfl⟩ := Option.map_eq_some_iff.1 he
    rw [h.chunkAfter?_eq] at hc
    -- Entering a chunk takes its identifiers off the chunks and leaves the same list.
    have hrest : p.rest t = rest ⟨p.following + 1, t.idsIn c⟩ t := by
      rw [rest, hp, h.drop_openChunks, hc]
      simp [rest]
    rw [hrest]
    exact ih

theorem draw_next (h : t.WF) (count : Nat) :
    draw (next · t) count {} = t.positions.take count :=
  draw_eq_take (rest · t) (next_rest h) count {}

end IdPass

namespace ChunkPass

def rest (p : ChunkPass) (c : Chunk) : List ItemId :=
  (List.range' p.offset (p.stop - p.offset)).filterMap c.item?

theorem next_rest (p : ChunkPass) (c : Chunk) :
    (p.next c).1 = (p.rest c).head? ∧ (p.next c).2.rest c = (p.rest c).tail := by
  have hcons {p : ChunkPass} (hlt : p.offset < p.stop) : p.rest c =
      (c.item? p.offset).toList ++ rest ⟨p.offset + 1, p.stop⟩ c := by
    obtain ⟨n, hn⟩ : ∃ n, p.stop - p.offset = n + 1 := Nat.exists_eq_add_one.2 (by omega)
    have hn' : p.stop - (p.offset + 1) = n := by omega
    rw [rest, rest, hn, hn', List.range'_succ, List.filterMap_cons]
    cases c.item? p.offset <;> rfl
  fun_induction next p c with
  | case1 p hlt item hitem =>
    rw [hcons hlt, hitem]
    exact ⟨rfl, rfl⟩
  | case2 p hlt hnone ih =>
    rw [hcons hlt, hnone]
    exact ih
  | case3 p hle => simp [rest, Nat.sub_eq_zero_of_le (Nat.le_of_not_lt hle)]

end ChunkPass

namespace ItemPass
variable {t : Tenant}

def here (p : ItemPass) (t : Tenant) : List ItemId :=
  (p.standing.bind t.heldChunk?).elim [] p.within.rest

def rest (p : ItemPass) (t : Tenant) : List ItemId :=
  p.here t ++ (t.openChunks.drop p.following).flatMap (·.items)

theorem stay_here (p : ItemPass) (t : Tenant) :
    (p.stay t).1 = (p.here t).head? ∧ (p.stay t).2.here t = (p.here t).tail := by
  unfold stay here
  split
  · rename_i hc
    simp [hc]
  · rename_i c hc
    simp only [hc, Option.elim_some]
    exact p.within.next_rest c

theorem rest_of_stay {p q : ItemPass} (h : p.stay t = (none, q)) :
    q.rest t = p.rest t ∧ q.here t = [] := by
  obtain ⟨hhead, htail⟩ := p.stay_here t
  have hfollowing := following_stay p t
  rw [h] at hhead htail hfollowing
  have hnil : p.here t = [] := List.head?_eq_none_iff.1 hhead.symm
  rw [hnil] at htail
  have hhere : q.here t = [] := htail
  have hfollowing : q.following = p.following := hfollowing
  refine ⟨?_, hhere⟩
  rw [rest, rest, hhere, hnil, hfollowing]

theorem next_rest (h : t.WF) (p : ItemPass) :
    (p.next t).1 = (p.rest t).head? ∧ (p.next t).2.rest t = (p.rest t).tail := by
  fun_induction next p t with
  | case1 p item q hs =>
    obtain ⟨hhead, htail⟩ := p.stay_here t
    have hfollowing := following_stay p t
    rw [hs] at hhead htail hfollowing
    obtain ⟨items, hitems⟩ := List.head?_eq_some_iff.1 hhead.symm
    rw [rest, rest, htail, hfollowing, hitems]
    exact ⟨rfl, rfl⟩
  | case2 p q hs he =>
    obtain ⟨hrest, hnil⟩ := rest_of_stay hs
    have hnone : t.heldChunk? q.following = none := by
      rw [← h.chunkAfter?_eq]
      exact Option.map_eq_none_iff.1 he
    rw [← hrest]
    simp [rest, hnil, h.drop_openChunks_of_none hnone]
  | case3 p q hs r he ih =>
    obtain ⟨hrest, hnil⟩ := rest_of_stay hs
    obtain ⟨c, hc, rfl⟩ := Option.map_eq_some_iff.1 he
    rw [h.chunkAfter?_eq] at hc
    have henter : q.rest t = rest ⟨q.following + 1, some q.following, .start c⟩ t := by
      rw [rest, hnil, h.drop_openChunks, hc]
      simp [rest, here, hc, ChunkPass.rest, ChunkPass.start, Chunk.items, List.range_eq_range']
    rw [← hrest, henter]
    exact ih

theorem draw_next (h : t.WF) (count : Nat) :
    draw (next · t) count {} = t.items.take count :=
  draw_eq_take (rest · t) (next_rest h) count {}

end ItemPass
end EntityStore
