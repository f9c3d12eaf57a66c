import EntityStore.Proofs.ClassIndex.Extension
import EntityStore.Proofs.IntMap
import EntityStore.Repository

/-! The invariant of a repository. A node stands for a set of codes and is found under their
ascending list; links lead to the node of one code more; and no two nodes share a tenant. Nodes keep
their sets and their compositions for good. -/

namespace EntityStore.Repository
variable {κ : Type} {r s : Repository κ} {n : Numbering κ} {i : Nat} {node : Node κ}

/-- The node with a number stands for the set of some codes, which may be listed in any way. -/
def Stands (r : Repository κ) (i : Nat) (codes : List UInt32) : Prop :=
  ∃ node : Node κ, r.nodes[i]? = some node ∧ ∀ code, code ∈ node.types.keys ↔ code ∈ codes

structure Retains (r s : Repository κ) : Prop where
  node : ∀ {i : Nat} {node : Node κ}, r.nodes[i]? = some node → ∃ node' : Node κ,
    s.nodes[i]? = some node' ∧ node'.types = node.types ∧
      ∀ {c}, node.composition = some c → node'.composition = some c
  tenants : r.pool.tenants.size ≤ s.pool.tenants.size

theorem Retains.refl (r : Repository κ) : r.Retains r :=
  ⟨fun {_ node} hi => ⟨node, hi, rfl, id⟩, Nat.le_refl _⟩

theorem Retains.trans {t : Repository κ} (h : r.Retains s) (h' : s.Retains t) : r.Retains t where
  node hi := by
    obtain ⟨a, ha, hta, hca⟩ := h.node hi
    obtain ⟨b, hb, htb, hcb⟩ := h'.node ha
    exact ⟨b, hb, htb.trans hta, fun hc => hcb (hca hc)⟩
  tenants := Nat.le_trans h.tenants h'.tenants

theorem retains_setIndex (r : Repository κ) (index : ClassIndex κ) : r.Retains { r with index } :=
  ⟨(Retains.refl r).node, Nat.le_refl _⟩

theorem retains_setPool (r : Repository κ) {pool : Pool}
    (hle : r.pool.tenants.size ≤ pool.tenants.size) : r.Retains { r with pool } :=
  ⟨(Retains.refl r).node, hle⟩

theorem Stands.mono {codes : List UInt32} (h : r.Stands i codes) (hs : r.Retains s) :
    s.Stands i codes := by
  obtain ⟨node, hi, hkeys⟩ := h
  obtain ⟨node', hi', htypes, -⟩ := hs.node hi
  refine ⟨node', hi', ?_⟩
  rw [htypes]
  exact hkeys

theorem Stands.congr {codes codes' : List UInt32} (h : r.Stands i codes)
    (heq : ∀ code, code ∈ codes ↔ code ∈ codes') : r.Stands i codes' := by
  obtain ⟨node, hi, hkeys⟩ := h
  exact ⟨node, hi, fun code => (hkeys code).trans (heq code)⟩

/-- The table has the number of every node under the codes of its set. -/
def Finds (table : Std.TreeMap (List UInt32) Nat) (nodes : Array (Node κ)) : Prop :=
  ∀ keys i, table[keys]? = some i ↔
    ∃ node : Node κ, nodes[i]? = some node ∧ node.types.keys = keys

theorem finds_empty : Finds Std.TreeMap.empty (#[] : Array (Node κ)) := by
  intro keys i
  constructor
  · intro hi
    cases hi
  · rintro ⟨node, hi, -⟩
    cases hi

theorem Finds.push {table : Std.TreeMap (List UInt32) Nat} {nodes : Array (Node κ)}
    (h : Finds table nodes) (types : IntMap κ) (hnew : table[types.keys]? = none) :
    Finds (table.insert types.keys nodes.size) (nodes.push { types }) := by
  intro keys i
  rw [Std.TreeMap.getElem?_insert, Array.getElem?_push]
  by_cases hk : types.keys = keys
  · rw [if_pos (Std.LawfulEqCmp.compare_eq_iff_eq.2 hk)]
    constructor
    · intro hi
      obtain rfl := Option.some.inj hi
      exact ⟨{ types }, if_pos rfl, hk⟩
    · rintro ⟨node, hi, hkn⟩
      split at hi
      · rename_i heq
        rw [heq]
      · -- An older node with these codes would be in the table.
        have hold := (h _ i).2 ⟨node, hi, hkn⟩
        rw [← hk, hnew] at hold
        cases hold
  · rw [if_neg fun heq => hk (Std.LawfulEqCmp.compare_eq_iff_eq.1 heq), h]
    constructor
    · rintro ⟨node, hi, hkn⟩
      have hlt : i < nodes.size := (Array.getElem?_eq_some_iff.1 hi).1
      exact ⟨node, (if_neg (Nat.ne_of_lt hlt)).trans hi, hkn⟩
    · rintro ⟨node, hi, hkn⟩
      split at hi
      · obtain rfl := Option.some.inj hi
        exact absurd hkn hk
      · exact ⟨node, hi, hkn⟩

def push (r : Repository κ) (types : IntMap κ) : Repository κ :=
  { r with nodes := r.nodes.push { types }, table := r.table.insert types.keys r.nodes.size }

theorem retains_push (r : Repository κ) (types : IntMap κ) : r.Retains (r.push types) where
  node {i node} hi := by
    have hlt : i < r.nodes.size := (Array.getElem?_eq_some_iff.1 hi).1
    refine ⟨node, ?_, rfl, id⟩
    show (r.nodes.push { types })[i]? = some node
    rw [Array.getElem?_push, if_neg (Nat.ne_of_lt hlt), hi]
  tenants := Nat.le_refl _

theorem stands_push (r : Repository κ) (types : IntMap κ) :
    (r.push types).Stands r.nodes.size types.keys := by
  refine ⟨{ types }, ?_, fun code => Iff.rfl⟩
  show (r.nodes.push { types })[r.nodes.size]? = _
  rw [Array.getElem?_push, if_pos rfl]

theorem node_eq (hi : r.nodes[i]? = some node) : r.node i = node := by
  unfold Repository.node
  rw [hi, Option.getD_some]

theorem getElem?_modifyNode (r : Repository κ) (i j : Nat) (f : Node κ → Node κ) :
    (r.modifyNode i f).nodes[j]? = if i = j then (r.nodes[j]?).map f else r.nodes[j]? :=
  Array.getElem?_modify

theorem retains_modifyNode {f : Node κ → Node κ} (hi : r.nodes[i]? = some node)
    (htypes : (f node).types = node.types)
    (hkeep : ∀ {c}, node.composition = some c → (f node).composition = some c) :
    r.Retains (r.modifyNode i f) where
  node {j a} hj := by
    rw [getElem?_modifyNode]
    by_cases hij : i = j
    · subst hij
      obtain rfl := Option.some.inj (hi.symm.trans hj)
      rw [if_pos rfl, hi]
      exact ⟨f node, rfl, htypes, hkeep⟩
    · rw [if_neg hij]
      exact ⟨a, hj, rfl, id⟩
  tenants := Nat.le_refl _

variable [BEq κ]

/-- What a node says is true of the index, of the other nodes and of the pool. -/
structure Sound (r : Repository κ) (n : Numbering κ) (node : Node κ) : Prop where
  code : ∀ {code type}, node.types.get? code = some type → n.code? type = some code
  link : ∀ {code m}, node.links.get? code = some m → r.Stands m (code :: node.types.keys)
  hash : ∀ {c}, node.composition = some c → c.hash = node.types.hash
  layout : ∀ {c}, node.composition = some c → c.layout = ⟨node.types.values, node.types.keys⟩
  tenant : ∀ {c}, node.composition = some c → c.tenant < r.pool.tenants.size

theorem Sound.mono {n' : Numbering κ} (h : r.Sound n node) (hs : r.Retains s)
    (hn : n.Extends n') : s.Sound n' node where
  code hc := hn (h.code hc)
  link hl := (h.link hl).mono hs
  hash := h.hash
  layout := h.layout
  tenant hc := Nat.lt_of_lt_of_le (h.tenant hc) hs.tenants

theorem Sound.get_eq {code : UInt32} {type : κ} (h : r.Sound n node)
    (hc : node.types.get? code = some type) : n.get type = code :=
  Numbering.get_eq_of_code? (h.code hc)

theorem Sound.map_values (h : r.Sound n node) : node.types.values.map n.get = node.types.keys := by
  rw [node.types.map_values fun code type hc => h.get_eq hc, List.map_id']

theorem Sound.known (h : r.Sound n node) : ∀ type ∈ node.types.values,
    n.code? type = some (n.get type) := by
  intro type hmem
  obtain ⟨code, hc⟩ := (node.types.mem_values type).1 hmem
  rw [h.get_eq hc]
  exact h.code hc

/-- A composition of another node has another tenant. -/
def Apart (r : Repository κ) (i : Nat) (c : Composition κ) : Prop :=
  ∀ {j : Nat} {node : Node κ} {d}, r.nodes[j]? = some node → node.composition = some d →
    c.tenant = d.tenant → i = j

variable [Hashable κ]

/-- The invariant of an open repository whose class index stands for the numbering `n`. -/
structure WF (r : Repository κ) (n : Numbering κ) : Prop where
  index : r.index.Numbers n
  isOpen : r.pool.closed = false
  root : r.Stands 0 []
  table : Finds r.table r.nodes
  sound : ∀ {i : Nat} {node}, r.nodes[i]? = some node → r.Sound n node
  apart : ∀ {i : Nat} {node : Node κ} {c}, r.nodes[i]? = some node →
    node.composition = some c → r.Apart i c

theorem WF.stands_inj (h : r.WF n) {j : Nat} {codes : List UInt32} (hi : r.Stands i codes)
    (hj : r.Stands j codes) : i = j := by
  obtain ⟨a, ha, hka⟩ := hi
  obtain ⟨b, hb, hkb⟩ := hj
  have hkeys : a.types.keys = b.types.keys :=
    IntMap.keys_eq_of_mem_iff fun code => (hka code).trans (hkb code).symm
  have hta := (h.table _ i).2 ⟨a, ha, hkeys⟩
  have htb := (h.table _ j).2 ⟨b, hb, rfl⟩
  exact Option.some.inj (hta.symm.trans htb)

theorem WF.setIndex {n' : Numbering κ} (h : r.WF n) {index : ClassIndex κ}
    (hx : index.Numbers n') (hn : n.Extends n') : { r with index }.WF n' where
  index := hx
  isOpen := h.isOpen
  root := h.root
  table := h.table
  sound hi := (h.sound hi).mono (r.retains_setIndex index) hn
  apart hi := h.apart hi

theorem WF.setPool (h : r.WF n) {pool : Pool} (ho : pool.closed = false)
    (hle : r.pool.tenants.size ≤ pool.tenants.size) : { r with pool }.WF n where
  index := h.index
  isOpen := ho
  root := h.root
  table := h.table
  sound hi := (h.sound hi).mono (r.retains_setPool hle) (Numbering.Extends.refl n)
  apart hi := h.apart hi

theorem WF.push (h : r.WF n) {types : IntMap κ} (hnew : r.table[types.keys]? = none)
    (hcode : ∀ {code type}, types.get? code = some type → n.code? type = some code) :
    (r.push types).WF n := by
  have hget (j : Nat) : (r.push types).nodes[j]? =
      if j = r.nodes.size then some { types } else r.nodes[j]? := Array.getElem?_push
  have hret := r.retains_push types
  refine
    { index := h.index
      isOpen := h.isOpen
      root := h.root.mono hret
      table := h.table.push types hnew
      sound := fun {i node} hi => ?_
      apart := fun {i node c} hi hc => ?_ }
  · rw [hget] at hi
    split at hi
    · obtain rfl := Option.some.inj hi
      exact ⟨hcode, nofun, nofun, nofun, nofun⟩
    · exact (h.sound hi).mono hret (Numbering.Extends.refl n)
  · rw [hget] at hi
    split at hi
    · obtain rfl := Option.some.inj hi
      cases hc
    · intro j node' d hj hd
      rw [hget] at hj
      split at hj
      · obtain rfl := Option.some.inj hj
        cases hd
      · exact h.apart hi hc hj hd

theorem WF.modifyNode (h : r.WF n) {f : Node κ → Node κ} (hi : r.nodes[i]? = some node)
    (htypes : (f node).types = node.types)
    (hkeep : ∀ {c}, node.composition = some c → (f node).composition = some c)
    (hsound : r.Sound n (f node)) (hapart : ∀ {c}, (f node).composition = some c → r.Apart i c) :
    (r.modifyNode i f).WF n := by
  have hret := retains_modifyNode hi htypes hkeep
  -- Every node is the changed one or an old one.
  have hcases {j : Nat} {a : Node κ} (hj : (r.modifyNode i f).nodes[j]? = some a) :
      (j = i ∧ a = f node) ∨ (j ≠ i ∧ r.nodes[j]? = some a) := by
    rw [getElem?_modifyNode] at hj
    split at hj
    · rename_i hij
      rw [← hij, hi] at hj
      exact .inl ⟨hij.symm, (Option.some.inj hj).symm⟩
    · rename_i hij
      exact .inr ⟨Ne.symm hij, hj⟩
  refine
    { index := h.index
      isOpen := h.isOpen
      root := h.root.mono hret
      table := fun keys j => ?_
      sound := fun {j a} hj => ?_
      apart := fun {j a c} hj hc k b d hk hd hcd => ?_ }
  · show r.table[keys]? = some j ↔ _
    rw [h.table]
    constructor
    · rintro ⟨a, hj, hka⟩
      obtain ⟨b, hb, htb, -⟩ := hret.node hj
      exact ⟨b, hb, htb ▸ hka⟩
    · rintro ⟨a, hj, hka⟩
      rcases hcases hj with ⟨rfl, rfl⟩ | ⟨-, hj⟩
      · exact ⟨node, hi, htypes ▸ hka⟩
      · exact ⟨a, hj, hka⟩
  · rcases hcases hj with ⟨rfl, rfl⟩ | ⟨-, hj⟩
    · exact hsound.mono hret (Numbering.Extends.refl n)
    · exact (h.sound hj).mono hret (Numbering.Extends.refl n)
  · rcases hcases hj with ⟨rfl, rfl⟩ | ⟨-, hj'⟩
    · rcases hcases hk with ⟨rfl, -⟩ | ⟨-, hk'⟩
      · rfl
      · exact hapart hc hk' hd hcd
    · rcases hcases hk with ⟨rfl, rfl⟩ | ⟨-, hk'⟩
      · exact (hapart hd hj' hc hcd.symm).symm
      · exact h.apart hj' hc hk' hd hcd

end EntityStore.Repository
