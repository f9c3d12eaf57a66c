import EntityStore.Proofs.Repository.Invariant

/-! Walking the graph. A walk adds the codes of its types to the set of the node that it starts
from, whether the links were there or not. -/

namespace EntityStore.Repository
variable {κ : Type} {r s : Repository κ} {n : Numbering κ} {i : Nat} {codes : List UInt32}

variable [BEq κ] [Hashable κ]

theorem WF.nodeOf_spec (h : r.WF n) {types : IntMap κ}
    (hcode : ∀ {code type}, types.get? code = some type → n.code? type = some code) :
    ∃ j s, r.nodeOf types = (j, s) ∧ s.WF n ∧ r.Retains s ∧ s.Stands j types.keys := by
  unfold nodeOf
  dsimp only
  cases ht : r.table[types.keys]? with
  | some j =>
    obtain ⟨node, hj, hkeys⟩ := (h.table _ j).1 ht
    refine ⟨j, r, rfl, h, Retains.refl r, node, hj, fun code => ?_⟩
    rw [hkeys]
  | none =>
    exact ⟨_, r.push types, rfl, h.push ht hcode, r.retains_push types, r.stands_push types⟩

theorem WF.nodeOf_put (h : r.WF n) {node : Node κ} (hi : r.nodes[i]? = some node) {type : κ}
    {code : UInt32} (hc : n.code? type = some code) :
    ∃ j s, r.nodeOf (node.types.clone.put code type).2 = (j, s) ∧ s.WF n ∧ r.Retains s ∧
      s.Stands j (code :: node.types.keys) := by
  have hcode {c : UInt32} {t : κ} (ht : (node.types.clone.put code type).2.get? c = some t) :
      n.code? t = some c := by
    rw [IntMap.get?_put, IntMap.get?_clone] at ht
    split at ht
    · rename_i heq
      cases ht
      rw [heq]
      exact hc
    · exact (h.sound hi).code ht
  obtain ⟨j, s, hs, hsw, hrs, hj⟩ := h.nodeOf_spec hcode
  refine ⟨j, s, hs, hsw, hrs, hj.congr fun c => ?_⟩
  rw [IntMap.mem_keys_put, IntMap.keys_clone]

theorem WF.addLink (h : r.WF n) {node : Node κ} (hi : r.nodes[i]? = some node) {code : UInt32}
    {m : Nat} (hm : r.Stands m (code :: node.types.keys)) :
    (r.modifyNode i fun node => { node with links := (node.links.put code m).2 }).WF n ∧
      r.Retains (r.modifyNode i fun node => { node with links := (node.links.put code m).2 }) := by
  have hsound := h.sound hi
  refine ⟨h.modifyNode hi rfl id { hsound with link := fun {c k} hl => ?_ } fun hc => h.apart hi hc,
    retains_modifyNode hi rfl id⟩
  change (node.links.put code m).2.get? c = some k at hl
  rw [IntMap.get?_put] at hl
  split at hl
  · rename_i hcode
    obtain rfl := Option.some.inj hl
    rw [hcode]
    exact hm
  · exact hsound.link hl

variable [LawfulBEq κ]

/-- A link adds the code of a known type, whether the set has it already, the link is there, another
order of the same types has led to the node, or there is no node yet. -/
theorem WF.link_spec (h : r.WF n) (hi : r.Stands i codes) {type : κ} {code : UInt32}
    (hc : n.code? type = some code) :
    ∃ s j log, r.link i type = ⟨s, .ok j, log⟩ ∧ s.WF n ∧ r.Retains s ∧
      s.Stands j (code :: codes) := by
  have hknown : n.getOrAdd type = (.ok code, n) := by
    unfold Numbering.getOrAdd
    rw [hc]
  obtain ⟨hresult, hindex⟩ : (r.index.getOrAdd type).result = .ok code ∧
      (r.index.getOrAdd type).state.Numbers n := by
    have hx := h.index.getOrAdd type
    rw [hknown] at hx
    exact hx h.index.lt
  unfold link
  generalize r.index.getOrAdd type = o at hresult hindex
  obtain ⟨index, result, log⟩ := o
  obtain rfl : result = .ok code := hresult
  have h' : { r with index }.WF n := h.setIndex hindex (Numbering.Extends.refl n)
  have hret := r.retains_setIndex index
  obtain ⟨node, hnode, hkeys⟩ := hi
  have hadd : ∀ c, c ∈ code :: node.types.keys ↔ c ∈ code :: codes := fun c => by
    rw [List.mem_cons, List.mem_cons, hkeys]
  simp only [node_eq (show { r with index }.nodes[i]? = some node from hnode)]
  cases hcon : node.types.contains code with
  | true =>
    refine ⟨{ r with index }, i, log, rfl, h', hret, node, hnode, fun c => ?_⟩
    rw [← hadd, List.mem_cons, or_iff_right_of_imp]
    rintro rfl
    exact (node.types.mem_keys _).2 ((node.types.contains_iff _).1 hcon)
  | false =>
    cases hl : node.links.get? code with
    | some m =>
      exact ⟨{ r with index }, m, log, rfl, h', hret, ((h'.sound hnode).link hl).congr hadd⟩
    | none =>
      obtain ⟨m, s, hs, hsw, hrs, hm⟩ := h'.nodeOf_put hnode hc
      -- Making the node may have moved the table, but not the types of the node walked from.
      obtain ⟨node', hnode', htypes, -⟩ := hrs.node hnode
      obtain ⟨hwf, hrt⟩ := hsw.addLink hnode' (htypes ▸ hm)
      simp only [hs]
      exact ⟨_, m, log, rfl, hwf, (hret.trans hrs).trans hrt, (hm.congr hadd).mono hrt⟩

theorem WF.walk_spec (h : r.WF n) (hi : r.Stands i codes) {types : List κ}
    (hknown : ∀ type ∈ types, ∃ code, n.code? type = some code) :
    ∃ s j log, r.walk i types = ⟨s, .ok j, log⟩ ∧ s.WF n ∧ r.Retains s ∧
      s.Stands j (types.map n.get ++ codes) := by
  induction types generalizing r i codes with
  | nil => exact ⟨r, i, [], rfl, h, Retains.refl r, hi⟩
  | cons type types ih =>
    obtain ⟨code, hc⟩ := hknown type (List.mem_cons_self ..)
    obtain ⟨s, j, log, hs, hsw, hrs, hj⟩ := h.link_spec hi hc
    obtain ⟨t, k, log', ht, htw, hst, hk⟩ :=
      ih hsw hj fun type hmem => hknown type (List.mem_cons_of_mem _ hmem)
    refine ⟨t, k, log ++ log', ?_, htw, hrs.trans hst, hk.congr fun c => ?_⟩
    · rw [walk, hs]
      simp only [ht, Outcome.after]
    · rw [List.map_cons, Numbering.get_eq_of_code? hc]
      exact List.perm_middle.mem_iff

end EntityStore.Repository
