import EntityStore.Proofs.Layout.Create
import EntityStore.Proofs.Pool
import EntityStore.Proofs.Repository.Invariant

/-! The compositions of nodes. A node gets its composition once, and what this tells of the types of
the node stays true of the class index. -/

namespace EntityStore

/-- What the composition of a set is by the codes of a class index. -/
structure Composition.Of {κ : Type} [BEq κ] [Hashable κ] (c : Composition κ) (x : ClassIndex κ)
    (types : List κ) : Prop where
  perm : c.layout.types.Perm types
  codes : c.layout.codes = c.layout.types.map x.get
  ascending : c.layout.codes.Pairwise (· < ·)
  hash : (x.setHash types).result = .ok c.hash
  hasType : ∀ type, c.hasType type = true ↔ type ∈ types

namespace Repository
variable {κ : Type} {r s : Repository κ} {n : Numbering κ} {i : Nat} {node : Node κ}
  {codes : List UInt32} {c d : Composition κ} {types xs : List κ}

def Serves (r : Repository κ) (codes : List UInt32) (c : Composition κ) : Prop :=
  ∃ (i : Nat) (node : Node κ), r.nodes[i]? = some node ∧
    (∀ code, code ∈ node.types.keys ↔ code ∈ codes) ∧ node.composition = some c

theorem Serves.mono (h : r.Serves codes c) (hs : r.Retains s) : s.Serves codes c := by
  obtain ⟨i, node, hi, hkeys, hc⟩ := h
  obtain ⟨node', hi', htypes, hkeep⟩ := hs.node hi
  exact ⟨i, node', hi', htypes ▸ hkeys, hkeep hc⟩

variable [BEq κ]

theorem Sound.mem_values_iff [LawfulBEq κ] (h : r.Sound n node) (hw : n.Within types)
    (hlt : types.length < UInt32.size) (hknown : ∀ type ∈ xs, ∃ code, n.code? type = some code)
    (hkeys : ∀ code, code ∈ node.types.keys ↔ code ∈ xs.map n.get) (type : κ) :
    type ∈ node.types.values ↔ type ∈ xs := by
  constructor
  · intro hv
    have hcode : n.get type ∈ node.types.keys :=
      h.map_values ▸ List.mem_map_of_mem hv
    obtain ⟨x, hx, heq⟩ := List.mem_map.1 ((hkeys _).1 hcode)
    obtain ⟨code, hxc⟩ := hknown x hx
    have htype := h.known type hv
    rw [← heq, Numbering.get_eq_of_code? hxc] at htype
    exact hw.code?_inj hlt htype hxc ▸ hx
  · intro hx
    obtain ⟨code, hxc⟩ := hknown type hx
    have hcode : code ∈ node.types.keys :=
      (hkeys code).2 (Numbering.get_eq_of_code? hxc ▸ List.mem_map_of_mem hx)
    obtain ⟨value, hvalue⟩ := (node.types.mem_keys code).1 hcode
    rw [hw.code?_inj hlt hxc (h.code hvalue)]
    exact (node.types.mem_values value).2 ⟨code, hvalue⟩

variable [Hashable κ]

theorem WF.serves_congr (h : r.WF n) {codes' : List UInt32}
    (hc : r.Serves codes c) (hd : r.Serves codes' d)
    (heq : ∀ code, code ∈ codes ↔ code ∈ codes') : c = d := by
  obtain ⟨i, a, hi, hka, hca⟩ := hc
  obtain ⟨j, b, hj, hkb, hdb⟩ := hd
  have hij : i = j :=
    h.stands_inj ⟨a, hi, fun code => (hka code).trans (heq code)⟩ ⟨b, hj, hkb⟩
  obtain rfl := hij
  obtain rfl := Option.some.inj (hi.symm.trans hj)
  exact Option.some.inj (hca.symm.trans hdb)

theorem WF.serves_inj (h : r.WF n) (hle : r.pool.tenants.size ≤ UInt32.size)
    {codes' : List UInt32} (hc : r.Serves codes c)
    (hd : r.Serves codes' d) (heq : UInt32.ofNat c.tenant = .ofNat d.tenant) : c = d := by
  obtain ⟨i, a, hi, -, hca⟩ := hc
  obtain ⟨j, b, hj, -, hdb⟩ := hd
  have htenant : c.tenant = d.tenant := by
    have hlc := Nat.lt_of_lt_of_le ((h.sound hi).tenant hca) hle
    have hld := Nat.lt_of_lt_of_le ((h.sound hj).tenant hdb) hle
    have hnat := congrArg UInt32.toNat heq
    rwa [UInt32.toNat_ofNat_of_lt' hlc, UInt32.toNat_ofNat_of_lt' hld] at hnat
  obtain rfl := h.apart hi hca hj hdb htenant
  obtain rfl := Option.some.inj (hi.symm.trans hj)
  exact Option.some.inj (hca.symm.trans hdb)

theorem WF.addComposition (h : r.WF n) (hi : r.nodes[i]? = some node)
    (hnone : node.composition = none) {pool : Pool} (ho : pool.closed = false)
    (hsize : pool.tenants.size = r.pool.tenants.size + 1) (hhash : c.hash = node.types.hash)
    (hlayout : c.layout = ⟨node.types.values, node.types.keys⟩)
    (htenant : c.tenant = r.pool.tenants.size) :
    ({ r with pool }.modifyNode i ({ · with composition := some c })).WF n ∧
      r.Retains ({ r with pool }.modifyNode i ({ · with composition := some c })) := by
  have hle : r.pool.tenants.size ≤ pool.tenants.size := hsize ▸ Nat.le_succ _
  have hret := r.retains_setPool hle
  have hsound := (h.sound hi).mono hret (Numbering.Extends.refl n)
  have hkeep {d : Composition κ} (hd : node.composition = some d) : some c = some d := by
    rw [hnone] at hd
    cases hd
  refine ⟨(h.setPool ho hle).modifyNode hi rfl hkeep ?_ ?_,
    hret.trans (retains_modifyNode hi rfl hkeep)⟩
  · refine { hsound with hash := fun hc => ?_, layout := fun hc => ?_, tenant := fun hc => ?_ }
    all_goals obtain rfl := Option.some.inj hc
    · exact hhash
    · exact hlayout
    · show c.tenant < pool.tenants.size
      omega
  · intro d hd j node' e hj he heq
    obtain rfl := Option.some.inj hd
    -- The tenants of the other nodes were there before.
    have hlt := (h.sound hj).tenant he
    omega

def firstComposition (r : Repository κ) (node : Node κ) : Composition κ :=
  { hash := node.types.hash, layout := ⟨node.types.values, node.types.keys⟩,
    tenant := r.pool.tenants.size }

theorem compositionOf_of_some (hi : r.nodes[i]? = some node) (hc : node.composition = some c) :
    r.compositionOf i = ⟨r, .ok c, []⟩ := by
  unfold compositionOf
  simp only [node_eq hi, hc]

variable [LawfulBEq κ]

theorem WF.compositionOf_of_none (h : r.WF n) (hi : r.nodes[i]? = some node)
    (hc : node.composition = none) :
    ∃ index log, index.Numbers n ∧ r.compositionOf i =
      ⟨{ r with index, pool := r.pool.newTenant.state }.modifyNode i
        ({ · with composition := some (r.firstComposition node) }),
        .ok (r.firstComposition node), log⟩ := by
  have hsound := h.sound hi
  obtain ⟨index, log, hlayout, hindex⟩ := Layout.create_of_ascending h.index
    (fun type hmem => ⟨_, hsound.known type hmem⟩)
    (hsound.map_values ▸ node.types.pairwise_keys)
  obtain ⟨pool, log', htenant, -⟩ := Pool.newTenant_of_open h.isOpen
  rw [hsound.map_values] at hlayout
  unfold compositionOf
  simp only [node_eq hi, hc, hlayout, htenant]
  exact ⟨index, _, hindex, rfl⟩

theorem WF.compositionOf_spec (h : r.WF n) (hi : r.Stands i codes) :
    ∃ s c log, r.compositionOf i = ⟨s, .ok c, log⟩ ∧ s.WF n ∧ r.Retains s ∧ s.Serves codes c := by
  obtain ⟨node, hnode, hkeys⟩ := hi
  cases hc : node.composition with
  | some c =>
    exact ⟨r, c, [], compositionOf_of_some hnode hc, h, Retains.refl r, i, node, hnode, hkeys, hc⟩
  | none =>
    obtain ⟨index, log, hindex, heq⟩ := h.compositionOf_of_none hnode hc
    obtain ⟨pool, log', htenant, hopen, hsize⟩ := Pool.newTenant_of_open h.isOpen
    rw [htenant] at heq
    have h' := h.setIndex hindex (Numbering.Extends.refl n)
    have hret := r.retains_setIndex index
    obtain ⟨hwf, hrs⟩ :=
      h'.addComposition (c := r.firstComposition node) hnode hc hopen hsize rfl rfl rfl
    refine ⟨_, _, log, heq, hwf, hret.trans hrs, i,
      { node with composition := some (r.firstComposition node) }, ?_, hkeys, rfl⟩
    exact (getElem?_modifyNode ..).trans ((if_pos rfl).trans (congrArg _ hnode))

theorem WF.composition_of (h : r.WF n) (hw : n.Within types) (hlt : types.length < UInt32.size)
    (hknown : ∀ type ∈ xs, ∃ code, n.code? type = some code) (hnodup : xs.Nodup)
    (hc : r.Serves (xs.map n.get) c) : c.Of r.index xs := by
  obtain ⟨i, node, hi, hkeys, hcomp⟩ := hc
  have hsound := h.sound hi
  have hlayout := hsound.layout hcomp
  have hmem := hsound.mem_values_iff hw hlt hknown hkeys
  have hxs : xs ⊆ types := fun type hx => by
    obtain ⟨code, hxc⟩ := hknown type hx
    exact hw.mem_of_code? hxc
  have hvalues : node.types.values.Nodup :=
    .of_map n.get (hsound.map_values ▸ node.types.nodup_keys)
  have hperm : node.types.values.Perm xs := (List.perm_ext_iff_of_nodup hvalues hnodup).2 hmem
  have hget : r.index.get = n.get := funext h.index.get_eq
  have hsorted : node.types.keys = sortCodes (xs.map n.get) := by
    refine eq_sortCodes ?_ (node.types.pairwise_keys.imp UInt32.le_of_lt)
    rw [← hsound.map_values]
    exact hperm.map n.get
  have hsize : (n.setHash xs).2.keys.length < UInt32.size := by
    obtain ⟨m, hm, hmw, -⟩ := hw.setHash_spec hlt hxs
    rw [hm]
    exact Nat.lt_of_le_of_lt hmw.length_le hlt
  refine
    { perm := hlayout ▸ hperm
      codes := ?_
      ascending := hlayout ▸ node.types.pairwise_keys
      hash := ?_
      hasType := fun type => ?_ }
  · rw [hlayout, hget]
    exact hsound.map_values.symm
  · rw [(h.index.setHash xs hsize).1, hw.setHash_of_known hlt hxs hknown hnodup,
      hsound.hash hcomp, ← hsorted]
    rfl
  · unfold Composition.hasType
    rw [Layout.contains_iff, hlayout]
    exact hmem type

end Repository
end EntityStore
