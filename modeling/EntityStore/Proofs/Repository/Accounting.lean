import EntityStore.Proofs.Repository.Run
import Mathlib.Data.Finset.Card
import Mathlib.Data.List.Infix

/-! The books of a repository. Its nodes are the sets that requests came by, one node for a set
whatever the order that led to it, and its pool has created one tenant for each set whose
composition was granted. -/

namespace EntityStore

theorem IntMap.mem_values_put {α : Type} {m : IntMap α} {key : UInt32}
    (hnew : m.contains key = false) (value v : α) :
    v ∈ (m.put key value).2.values ↔ v = value ∨ v ∈ m.values := by
  rw [mem_values, mem_values]
  constructor
  · rintro ⟨code, hv⟩
    rw [get?_put] at hv
    split at hv
    · exact .inl (Option.some.inj hv).symm
    · exact .inr ⟨code, hv⟩
  · rintro (rfl | ⟨code, hv⟩)
    · exact ⟨key, by rw [get?_put, if_pos rfl]⟩
    · refine ⟨code, ?_⟩
      rw [get?_put, if_neg, hv]
      rintro rfl
      rw [(m.contains_iff code).2 ⟨v, hv⟩] at hnew
      cases hnew

variable {κ : Type} [DecidableEq κ]

def Node.set (node : Node κ) : Finset κ := node.types.values.toFinset

namespace Repository

def sets (r : Repository κ) : List (Finset κ) := r.nodes.toList.map Node.set

/-- The sets that have a composition. -/
def served (r : Repository κ) : List (Finset κ) :=
  (r.nodes.toList.filter (·.composition.isSome)).map Node.set

/-- The empty set, and the sets that requests for distinct types have come by. -/
def visited (requests : List (Request κ)) : Finset (Finset κ) :=
  insert ∅ ((requests.filter (·.types.Nodup)).flatMap (·.types.inits.map List.toFinset)).toFinset

/-- The sets whose composition was granted. -/
def granted (requests : List (Request κ)) : Finset (Finset κ) :=
  ((requests.filter (·.result.isOk)).map (·.types.toFinset)).toFinset

variable {r s t : Repository κ} {n : Numbering κ} {i : Nat} {node : Node κ} {set : Finset κ}
  {requests : List (Request κ)} {types xs done : List κ} {type : κ}

theorem mem_visited : set ∈ visited requests ↔
    set = ∅ ∨ ∃ q ∈ requests, q.types.Nodup ∧ ∃ p, p <+: q.types ∧ p.toFinset = set := by
  simp only [visited, Finset.mem_insert, List.mem_toFinset, List.mem_flatMap, List.mem_filter,
    decide_eq_true_eq, List.mem_map, List.mem_inits, and_assoc]

theorem mem_granted : set ∈ granted requests ↔
    ∃ q ∈ requests, (∃ c, q.result = .ok c) ∧ q.types.toFinset = set := by
  have hok (q : Request κ) : q.result.isOk = true ↔ ∃ c, q.result = .ok c := by
    cases q.result <;> simp [Except.isOk, Except.toBool]
  simp only [granted, List.mem_toFinset, List.mem_map, List.mem_filter, hok, and_assoc]

def IsSet (r : Repository κ) (i : Nat) (set : Finset κ) : Prop :=
  ∃ node : Node κ, r.nodes[i]? = some node ∧ node.set = set

theorem mem_sets : set ∈ r.sets ↔ ∃ i, r.IsSet i set := by
  unfold sets IsSet
  rw [List.mem_map]
  simp only [List.mem_iff_getElem?, Array.getElem?_toList]
  constructor
  · rintro ⟨node, ⟨i, hi⟩, hset⟩
    exact ⟨i, node, hi, hset⟩
  · rintro ⟨i, node, hi, hset⟩
    exact ⟨node, ⟨i, hi⟩, hset⟩

theorem served_sublist (r : Repository κ) : r.served.Sublist r.sets := List.filter_sublist.map _

omit [DecidableEq κ] in
theorem modifyNode_eq (hi : r.nodes[i]? = some node) (f : Node κ → Node κ) :
    ∃ before after, r.nodes.toList = before ++ node :: after ∧
      (r.modifyNode i f).nodes.toList = before ++ f node :: after := by
  obtain ⟨hlt, rfl⟩ := Array.getElem?_eq_some_iff.1 hi
  obtain ⟨before, a, after, hl, hlen, hm⟩ :=
    List.exists_of_modify f (show i < r.nodes.toList.length from hlt)
  have ha : r.nodes.toList[i]? = some a := by
    rw [hl, ← hlen, List.getElem?_append_right (Nat.le_refl _), Nat.sub_self]
    rfl
  rw [Array.getElem?_toList, hi] at ha
  obtain rfl := Option.some.inj ha
  exact ⟨before, after, hl, Array.toList_modify.trans hm⟩

/-- What walking may do: there are new nodes, for some sets, that have no composition yet. -/
structure Gains (r s : Repository κ) (new : List (Finset κ)) : Prop where
  pool : s.pool = r.pool
  table : s.table.size = r.table.size + new.length
  sets : s.sets = r.sets ++ new
  served : s.served = r.served

theorem Gains.of_index (r : Repository κ) (index : ClassIndex κ) : Gains r { r with index } [] :=
  ⟨rfl, rfl, (List.append_nil _).symm, rfl⟩

theorem Gains.trans {new new' : List (Finset κ)} (h : Gains r s new) (h' : Gains s t new') :
    Gains r t (new ++ new') where
  pool := h'.pool.trans h.pool
  table := by rw [h'.table, h.table, List.length_append, Nat.add_assoc]
  sets := by rw [h'.sets, h.sets, List.append_assoc]
  served := h'.served.trans h.served

theorem Gains.modifyNode (r : Repository κ) (i : Nat) {f : Node κ → Node κ}
    (htypes : ∀ node, (f node).types = node.types)
    (hcomp : ∀ node, (f node).composition = node.composition) : Gains r (r.modifyNode i f) [] := by
  have hset (node : Node κ) : (f node).set = node.set := by rw [Node.set, htypes, Node.set]
  cases hi : r.nodes[i]? with
  | none =>
    have hsame : r.nodes.modify i f = r.nodes := by
      rw [← Array.toList_inj, Array.toList_modify,
        List.modify_eq_self (Array.getElem?_eq_none_iff.1 hi)]
    unfold Repository.modifyNode
    rw [hsame]
    exact Gains.of_index r r.index
  | some node =>
    obtain ⟨before, after, hr, hs⟩ := modifyNode_eq hi f
    refine ⟨rfl, rfl, ?_, ?_⟩
    · simp [Repository.sets, hr, hs, hset]
    · simp [Repository.served, hr, hs, hset, hcomp, List.filter_cons, apply_ite (List.map Node.set)]

theorem nodeOf_gains (r : Repository κ) (types : IntMap κ) :
    ∃ new, Gains r (r.nodeOf types).2 new ∧ ∀ set ∈ new, set = types.values.toFinset := by
  unfold nodeOf
  dsimp only
  cases ht : r.table[types.keys]? with
  | some j => exact ⟨[], Gains.of_index r r.index, nofun⟩
  | none =>
    refine ⟨[types.values.toFinset], ⟨rfl, ?_, ?_, ?_⟩, by simp⟩
    · show (r.table.insert types.keys r.nodes.size).size = _
      rw [Std.TreeMap.size_insert, Std.TreeMap.contains_eq_isSome_getElem?, ht]
      rfl
    · simp [Repository.sets, Node.set]
    · simp [Repository.served]

/-- An operation that uses the pool at most through compositions. -/
def Op.LeavesPool : Op κ → Prop
  | .newTenant | .removeTenant _ => False
  | .getOrCreate _ | .root | .index .. | .onTenant .. => True

structure Tallies (r : Repository κ) (requests : List (Request κ)) : Prop where
  table : r.table.size = r.sets.length
  sets : ∀ set, set ∈ r.sets ↔ set ∈ visited requests
  served : ∀ set, set ∈ r.served ↔ set ∈ granted requests
  whole : r.pool.Whole
  created : r.pool.tenants.size = r.served.length

/-- What an operation after some requests does to the books. -/
structure Books (r : Repository κ) (requests : List (Request κ))
    (p : List (Request κ) × Repository κ) : Prop where
  tallies : p.2.Tallies (requests ++ p.1)
  refused : ∀ q ∈ p.1, ∀ e, q.result = .error e → ∃ index, p.2 = { r with index }
  reused : ∀ q ∈ p.1, q.types.toFinset ∈ granted requests → p.2.pool = r.pool

theorem mem_visited_concat {q : Request κ} : set ∈ visited (requests ++ [q]) ↔
    set ∈ visited requests ∨ q.types.Nodup ∧ ∃ p, p <+: q.types ∧ p.toFinset = set := by
  simp only [mem_visited, List.mem_append, List.mem_singleton, or_and_right, exists_or,
    exists_eq_left, or_assoc]

theorem mem_granted_concat {q : Request κ} : set ∈ granted (requests ++ [q]) ↔
    set ∈ granted requests ∨ (∃ c, q.result = .ok c) ∧ q.types.toFinset = set := by
  simp only [mem_granted, List.mem_append, List.mem_singleton, or_and_right, exists_or,
    exists_eq_left]

theorem Tallies.setIndex (h : r.Tallies requests) (index : ClassIndex κ) :
    { r with index }.Tallies requests :=
  ⟨h.table, h.sets, h.served, h.whole, h.created⟩

theorem Tallies.setPool (h : r.Tallies requests) {pool : Pool} (hm : pool.members = r.pool.members)
    (hs : pool.tenants.size = r.pool.tenants.size) : { r with pool }.Tallies requests :=
  ⟨h.table, h.sets, h.served, h.whole.of_members hm hs, hs.trans h.created⟩

theorem Tallies.books_nil {requests : List (Request κ)} (h : s.Tallies requests) :
    Books r requests ([], s) :=
  ⟨by rwa [List.append_nil], nofun, nofun⟩

theorem Tallies.refuse (h : r.Tallies requests) (index : ClassIndex κ) {q : Request κ} {e : Error}
    (hnodup : ¬ q.types.Nodup) (he : q.result = .error e) :
    Books r requests ([q], { r with index }) := by
  refine ⟨⟨h.table, fun set => ?_, fun set => ?_, h.whole, h.created⟩,
    fun q' _ e _ => ⟨index, rfl⟩, fun q' _ _ => rfl⟩
  · rw [mem_visited_concat, or_iff_left fun hv => hnodup hv.1]
    exact h.sets set
  · rw [mem_granted_concat, he, or_iff_left (by simp)]
    exact h.served set

variable [BEq κ] [Hashable κ]

theorem link_gains {j : Nat} {log : List Event} (hi : r.nodes[i]? = some node)
    (hlink : r.link i type = ⟨s, .ok j, log⟩) :
    ∃ new, Gains r s new ∧ ∀ set ∈ new, set = insert type node.set := by
  unfold link at hlink
  generalize r.index.getOrAdd type = o at hlink
  obtain ⟨index, result, log⟩ := o
  cases result with
  | error e => cases hlink
  | ok code =>
    have hindex := Gains.of_index r index
    simp only [node_eq (show { r with index }.nodes[i]? = some node from hi)] at hlink
    split at hlink
    · cases hlink
      exact ⟨[], hindex, nofun⟩
    · rename_i hcon
      split at hlink
      · cases hlink
        exact ⟨[], hindex, nofun⟩
      · obtain ⟨new, hnew, hsets⟩ :=
          nodeOf_gains { r with index } (node.types.clone.put code type).2
        cases hlink
        refine ⟨_, (hindex.trans hnew).trans (.modifyNode _ i (fun _ => rfl) fun _ => rfl),
          fun set hset => ?_⟩
        rw [List.nil_append, List.append_nil] at hset
        rw [hsets set hset]
        ext v
        have hfresh : node.types.clone.contains code = false := by
          rw [IntMap.contains_eq, IntMap.get?_clone, ← IntMap.contains_eq]
          exact Bool.eq_false_iff.2 hcon
        rw [List.mem_toFinset, IntMap.mem_values_put hfresh, IntMap.mem_values_clone,
          Finset.mem_insert, Node.set, List.mem_toFinset]

/-! ### Walks -/

theorem WF.nodup_sets (h : r.WF n) : r.sets.Nodup := by
  rw [List.nodup_iff_getElem?_ne_getElem?]
  intro i j hij hj heq
  have hlt : j < r.nodes.size := by simpa [sets] using hj
  simp only [sets, List.getElem?_map, Array.getElem?_toList, Array.getElem?_eq_getElem hlt,
    Array.getElem?_eq_getElem (Nat.lt_trans hij hlt), Option.map_some, Option.some.injEq] at heq
  have hi := Array.getElem?_eq_getElem (Nat.lt_trans hij hlt)
  have hj := Array.getElem?_eq_getElem hlt
  -- Nodes with the same types have the same codes.
  have hkeys (code : UInt32) : code ∈ r.nodes[i].types.keys ↔ code ∈ r.nodes[j].types.keys := by
    have hvalues (type : κ) : type ∈ r.nodes[i].types.values ↔ type ∈ r.nodes[j].types.values := by
      simpa [Node.set] using Finset.ext_iff.1 heq type
    simp only [← (h.sound hi).map_values, ← (h.sound hj).map_values, List.mem_map, hvalues]
  exact Nat.ne_of_lt hij (h.stands_inj ⟨_, hi, hkeys⟩ ⟨_, hj, fun code => Iff.rfl⟩)

variable [LawfulBEq κ]

theorem WF.isSet (h : r.WF n) (hw : n.Within types) (hlt : types.length < UInt32.size)
    (hknown : ∀ type ∈ xs, ∃ code, n.code? type = some code) (hi : r.Stands i (xs.map n.get)) :
    r.IsSet i xs.toFinset := by
  obtain ⟨node, hi, hkeys⟩ := hi
  refine ⟨node, hi, ?_⟩
  ext type
  rw [Node.set, List.mem_toFinset, List.mem_toFinset]
  exact (h.sound hi).mem_values_iff hw hlt hknown hkeys type

theorem WF.link_sets (h : r.WF n) (hw : n.Within types) (hlt : types.length < UInt32.size)
    (hi : r.Stands i (done.map n.get)) (hdone : ∀ x ∈ done, ∃ code, n.code? x = some code)
    (hknown : ∃ code, n.code? type = some code) :
    ∃ s j log new, r.link i type = ⟨s, .ok j, log⟩ ∧ s.WF n ∧
      s.Stands j ((type :: done).map n.get) ∧
      Gains r s new ∧ ∀ set, set ∈ s.sets ↔ set ∈ r.sets ∨ set = (type :: done).toFinset := by
  obtain ⟨code, hc⟩ := hknown
  obtain ⟨s, j, log, hlink, hsw, -, hj⟩ := h.link_spec hi hc
  obtain ⟨node, hnode, hset⟩ := h.isSet hw hlt hdone hi
  obtain ⟨new, hnew, hsets⟩ := link_gains hnode hlink
  rw [hset, ← List.toFinset_cons] at hsets
  rw [← Numbering.get_eq_of_code? hc, ← List.map_cons] at hj
  have hled := hsw.isSet hw hlt (List.forall_mem_cons.2 ⟨⟨code, hc⟩, hdone⟩) hj
  refine ⟨s, j, log, new, hlink, hsw, hj, hnew, fun set => ?_⟩
  constructor
  · intro hmem
    rw [hnew.sets, List.mem_append] at hmem
    exact hmem.imp_right (hsets set)
  · rintro (hmem | rfl)
    · rw [hnew.sets]
      exact List.mem_append_left _ hmem
    · exact mem_sets.2 ⟨j, hled⟩

/-- A walk makes nodes for the sets that it passes, as far as there are none. -/
theorem WF.walk_sets (h : r.WF n) (hw : n.Within types) (hlt : types.length < UInt32.size)
    (hi : r.Stands i (done.map n.get)) (hdone : ∀ x ∈ done, ∃ code, n.code? x = some code)
    (hknown : ∀ x ∈ xs, ∃ code, n.code? x = some code) :
    ∃ s j log new, r.walk i xs = ⟨s, .ok j, log⟩ ∧ s.WF n ∧
      s.Stands j ((xs.reverse ++ done).map n.get) ∧ Gains r s new ∧
      ∀ set, set ∈ s.sets ↔ set ∈ r.sets ∨ ∃ p, p <+: xs ∧ (p ++ done).toFinset = set := by
  have hstart : done.toFinset ∈ r.sets := mem_sets.2 ⟨i, h.isSet hw hlt hdone hi⟩
  induction xs generalizing r i done with
  | nil =>
    refine ⟨r, i, [], [], rfl, h, hi, Gains.of_index r r.index, fun set => ?_⟩
    rw [or_iff_left_of_imp]
    rintro ⟨p, hp, rfl⟩
    rwa [List.prefix_nil.1 hp]
  | cons x xs ih =>
    obtain ⟨hx, hknown⟩ := List.forall_mem_cons.1 hknown
    obtain ⟨s, j, log, new, hlink, hsw, hj, hnew, hsets⟩ := h.link_sets hw hlt hi hdone hx
    obtain ⟨t, k, log', new', hwalk, htw, hk, hnew', hsets'⟩ :=
      ih hsw hj (List.forall_mem_cons.2 ⟨hx, hdone⟩) hknown ((hsets _).2 (.inr rfl))
    refine ⟨t, k, log ++ log', new ++ new', ?_, htw, ?_, hnew.trans hnew', fun set => ?_⟩
    · rw [walk, hlink]
      simp only [hwalk, Outcome.after]
    · rwa [List.reverse_cons, List.append_assoc]
    · have hmiddle (p : List κ) : (p ++ x :: done).toFinset = (x :: p ++ done).toFinset :=
        List.toFinset_eq_of_perm _ _ List.perm_middle
      rw [hsets', hsets]
      constructor
      · rintro ((hset | rfl) | ⟨p, hp, rfl⟩)
        · exact .inl hset
        · exact .inr ⟨[x], List.cons_prefix_cons.2 ⟨rfl, List.nil_prefix⟩, rfl⟩
        · exact .inr ⟨x :: p, List.cons_prefix_cons.2 ⟨rfl, hp⟩, (hmiddle p).symm⟩
      · rintro (hset | ⟨p, hp, rfl⟩)
        · exact .inl (.inl hset)
        · rcases List.prefix_cons_iff.1 hp with rfl | ⟨t, rfl, ht⟩
          · exact .inl (.inl hstart)
          · exact .inr ⟨t, ht, hmiddle t⟩

theorem WF.compositionOf_served (h : r.WF n) (hi : r.IsSet i set) :
    ∃ s c log, r.compositionOf i = ⟨s, .ok c, log⟩ ∧ s.table = r.table ∧ s.sets = r.sets ∧
      ((set ∈ r.served ∧ s = r) ∨
        set ∉ r.served ∧ s.served.Perm (set :: r.served) ∧ s.pool = r.pool.newTenant.state) := by
  obtain ⟨node, hi, rfl⟩ := hi
  cases hc : node.composition with
  | some c =>
    refine ⟨r, c, [], compositionOf_of_some hi hc, rfl, rfl, .inl ⟨?_, rfl⟩⟩
    refine List.mem_map_of_mem (List.mem_filter.2 ⟨Array.mem_toList_iff.2 ?_, by rw [hc]; rfl⟩)
    exact Array.mem_of_getElem? hi
  | none =>
    obtain ⟨index, log, hindex, heq⟩ := h.compositionOf_of_none hi hc
    obtain ⟨before, after, hr, hs⟩ := modifyNode_eq
      (show { r with index, pool := r.pool.newTenant.state }.nodes[i]? = some node from hi)
      ({ · with composition := some (r.firstComposition node) })
    replace hr : r.nodes.toList = before ++ node :: after := hr
    have hold : r.served = ((before ++ after).filter (·.composition.isSome)).map Node.set := by
      simp [served, hr, hc]
    refine ⟨_, _, log, heq, rfl, ?_, .inr ⟨?_, ?_, rfl⟩⟩
    · simp only [sets, hs, hr, List.map_append, List.map_cons]
      rfl
    · have hnodup := h.nodup_sets
      rw [sets, hr, List.perm_middle.map Node.set |>.nodup_iff, List.map_cons,
        List.nodup_cons] at hnodup
      rw [hold]
      exact fun hmem => hnodup.1 ((List.filter_sublist.map _).subset hmem)
    · rw [hold]
      simp only [served, hs]
      refine ((List.perm_middle.filter _).map Node.set).trans (.of_eq ?_)
      rfl

/-! ### Runs -/

theorem Tallies.grant (h : r.Tallies requests) {new : List (Finset κ)} (hs : Gains r s new)
    (hsets : ∀ set, set ∈ s.sets ↔ set ∈ r.sets ∨ ∃ p, p <+: xs ∧ p.toFinset = set)
    (hnodup : xs.Nodup) (hsw : s.WF n) (hi : s.IsSet i xs.toFinset) :
    Books r requests ([⟨xs, (s.compositionOf i).result⟩], (s.compositionOf i).state) := by
  obtain ⟨t, c, log, hcomp, htable, hts, hserved⟩ := hsw.compositionOf_served hi
  have hopen := hsw.isOpen
  rw [hs.pool] at hopen
  rw [hcomp]
  refine ⟨⟨?_, fun set => ?_, fun set => ?_, ?_, ?_⟩, ?_, ?_⟩
  · rw [htable, hts, hs.table, hs.sets, List.length_append, h.table]
  · rw [hts, hsets, mem_visited_concat, h.sets]
    simp [hnodup]
  · rw [mem_granted_concat, ← h.served, ← hs.served]
    rcases hserved with ⟨hmem, rfl⟩ | ⟨-, hperm, -⟩
    · rw [or_iff_left_of_imp]
      rintro ⟨-, rfl⟩
      exact hmem
    · rw [hperm.mem_iff, List.mem_cons, or_comm, eq_comm]
      simp
  · rcases hserved with ⟨-, rfl⟩ | ⟨-, -, hpool⟩
    · exact hs.pool ▸ h.whole
    · rw [hpool, hs.pool]
      exact h.whole.newTenant hopen
  · rcases hserved with ⟨-, rfl⟩ | ⟨-, hperm, hpool⟩
    · rw [hs.pool, hs.served, h.created]
    · obtain ⟨pool, log, hnew, -, hsize⟩ := Pool.newTenant_of_open hopen
      rw [hpool, hs.pool, hperm.length_eq, List.length_cons, hs.served, ← h.created, hnew]
      exact hsize
  · intro q hq e he
    rw [List.mem_singleton.1 hq] at he
    cases he
  · intro q hq hmem
    rw [List.mem_singleton.1 hq, ← h.served, ← hs.served] at hmem
    rcases hserved with ⟨-, rfl⟩ | ⟨hnot, -⟩
    · exact hs.pool
    · exact absurd hmem hnot

theorem Tallies.books_getOrCreate (ht : r.Tallies requests) (h : r.WF n) (hw : n.Within types)
    (hlt : types.length < UInt32.size) (hxs : xs ⊆ types) :
    Books r requests (r.step (.getOrCreate xs)) := by
  obtain ⟨m, hm, hmw, hnm, hknown, hok, herr⟩ := hw.setHash_spec hlt hxs
  have hsize : (n.setHash xs).2.keys.length < UInt32.size :=
    hm ▸ Nat.lt_of_le_of_lt hmw.length_le hlt
  obtain ⟨hresult, hindex⟩ := h.index.setHash xs hsize
  rw [hm] at hindex
  have hwf := h.setIndex hindex hnm
  show Books r requests ([⟨xs, (r.getOrCreate xs).result⟩], (r.getOrCreate xs).state)
  by_cases hnodup : xs.Nodup
  · have hroot : { r with index := (r.index.setHash xs).state }.Stands 0 ([].map m.get) := hwf.root
    obtain ⟨s, j, log, new, hwalk, hsw, hj, hs, hsets⟩ := hwf.walk_sets hmw hlt hroot nofun hknown
    rw [getOrCreate_of_ok (hresult.trans (hok hnodup)) hwalk]
    refine ht.grant ((Gains.of_index r _).trans hs) ?_ hnodup hsw ?_
    · simp only [List.append_nil] at hsets
      exact hsets
    · exact hsw.isSet hmw hlt hknown (hj.congr fun code => by simp)
  · obtain ⟨e, he⟩ := herr hnodup
    rw [getOrCreate_of_error (hresult.trans he)]
    exact ht.refuse _ hnodup rfl

theorem Tallies.step (ht : r.Tallies requests) (h : r.WF n) (hw : n.Within types)
    (hlt : types.length < UInt32.size) (op : Op κ) (hop : op.types ⊆ types)
    (hpool : op.LeavesPool) :
    Books r requests (r.step op) := by
  cases op with
  | getOrCreate xs => exact ht.books_getOrCreate h hw hlt hop
  | root =>
    have hi : r.IsSet 0 ([] : List κ).toFinset := h.isSet hw hlt nofun h.root
    refine ht.grant (Gains.of_index r r.index) (fun set => ?_) List.nodup_nil h hi
    rw [or_iff_left_of_imp]
    rintro ⟨p, hp, rfl⟩
    rw [List.prefix_nil.1 hp]
    exact mem_sets.2 ⟨0, hi⟩
  | index op hne => exact (ht.setIndex _).books_nil
  | newTenant => exact hpool.elim
  | removeTenant id => exact hpool.elim
  | onTenant number change =>
    cases ho : r.pool.withTenant number change with
    | none =>
      rw [Repository.step, ho]
      exact ht.books_nil
    | some o =>
      rw [Repository.step, ho]
      exact (ht.setPool (Pool.members_withTenant ho) (Pool.withTenant_spec ho).2).books_nil

theorem Tallies.run (ht : r.Tallies requests) (h : r.WF n) (hw : n.Within types)
    (hlt : types.length < UInt32.size) (ops : List (Op κ))
    (hops : ∀ op ∈ ops, op.types ⊆ types ∧ op.LeavesPool) :
    (r.run ops).2.Tallies (requests ++ (r.run ops).1) := by
  induction ops generalizing r n requests with
  | nil => rwa [Repository.run, List.append_nil]
  | cons op ops ih =>
    obtain ⟨⟨hop, hpool⟩, hops⟩ := List.forall_mem_cons.1 hops
    obtain ⟨m, hstep⟩ := h.step_spec hw hlt op hop
    have hrest := ih (ht.step h hw hlt op hop hpool).tallies hstep.wf hstep.within hops
    rwa [List.append_assoc] at hrest

omit [LawfulBEq κ] in
theorem tallies_create {config : Config} {log : List Event} (h : create config = .ok (r, log)) :
    r.Tallies [] := by
  obtain ⟨index, schema, -, rfl⟩ := exists_of_create h
  refine ⟨rfl, fun set => ?_, fun set => ?_, ⟨⟨.nil, nofun, nofun⟩, nofun⟩, rfl⟩
  · show set ∈ [∅] ↔ set ∈ insert ∅ ∅
    simp
  · show set ∈ [] ↔ set ∈ ∅
    simp

/-- The books of a run: nodes for the sets that its requests came by, and tenants for those that
were granted. The pool counts all of them as long as there are ids for them, and then as many as
there are ids. A refused request leaves everything but the class index as it was, and a request for
a set that has been granted leaves the pool. -/
structure CountsSets (r : Repository κ) (ops : List (Op κ)) : Prop where
  nodes : (r.run ops).2.nodeCount = (visited (r.run ops).1).card
  created : (r.run ops).2.pool.tenants.size = (granted (r.run ops).1).card
  tenants : (granted (r.run ops).1).card ≤ UInt32.size →
    (r.run ops).2.pool.tenantCount = (granted (r.run ops).1).card
  wrapped : UInt32.size ≤ (granted (r.run ops).1).card →
    (r.run ops).2.pool.tenantCount = UInt32.size
  refused : ∀ before op after, ops = before ++ op :: after →
    ∀ q ∈ ((r.run before).2.step op).1, ∀ e, q.result = .error e →
      ∃ index, ((r.run before).2.step op).2 = { (r.run before).2 with index }
  reused : ∀ before op after, ops = before ++ op :: after →
    ∀ q ∈ ((r.run before).2.step op).1, q.types.toFinset ∈ granted (r.run before).1 →
      ((r.run before).2.step op).2.pool = (r.run before).2.pool

/-- However the requests of a run list their sets, and whatever else happens to the class index and
to the tenants, nodes and tenants are counted by sets. There may be as many types as there are codes
for them. -/
theorem countsSets_of_run {config : Config} {log : List Event}
    (hr : create config = .ok (r, log)) (hlt : types.length < UInt32.size) (ops : List (Op κ))
    (hops : ∀ op ∈ ops, op.types ⊆ types ∧ op.LeavesPool) : r.CountsSets ops := by
  have hwf := wf_create hr
  have hstep {before after : List (Op κ)} {op : Op κ} (heq : ops = before ++ op :: after) :
      Books (r.run before).2 (r.run before).1 ((r.run before).2.step op) := by
    have hbefore : ∀ o ∈ before, o.types ⊆ types ∧ o.LeavesPool := fun o ho =>
      hops o (heq ▸ List.mem_append_left _ ho)
    obtain ⟨hop, hpool⟩ := hops op (heq ▸ List.mem_append_right _ (List.mem_cons_self ..))
    have ht := (tallies_create hr).run hwf Numbering.within_empty hlt before hbefore
    obtain ⟨n, h⟩ := hwf.run_spec Numbering.within_empty hlt before fun o ho => (hbefore o ho).1
    exact ht.step h.wf h.within hlt op hop hpool
  have ht := (tallies_create hr).run hwf Numbering.within_empty hlt ops hops
  obtain ⟨n, h⟩ := hwf.run_spec Numbering.within_empty hlt ops fun o ho => (hops o ho).1
  have hnodup := h.wf.nodup_sets
  have hcreated : (r.run ops).2.pool.tenants.size = (granted (r.run ops).1).card := by
    rw [ht.created, ← List.toFinset_card_of_nodup (hnodup.sublist (served_sublist _))]
    congr 1
    ext1 set
    exact List.mem_toFinset.trans (ht.served set)
  have hcount := ht.whole.tenantCount_eq
  rw [hcreated] at hcount
  refine ⟨?_, hcreated, fun hle => hcount.trans (Nat.min_eq_left hle),
    fun hle => hcount.trans (Nat.min_eq_right hle), fun before op after heq => (hstep heq).refused,
    fun before op after heq => (hstep heq).reused⟩
  · rw [nodeCount, ht.table, ← List.toFinset_card_of_nodup hnodup]
    congr 1
    ext1 set
    exact List.mem_toFinset.trans (ht.sets set)

/-- Two types in both orders, and one of them twice, after the empty set: five requests for three
sets come by four. -/
theorem countsSets_of_run_pair :
    ∃ r : Repository Key, ∃ log, create { name := "pair" } = .ok (r, log) ∧
      let ops : List (Op Key) := [.root, .getOrCreate [.component 1, .component 2],
        .getOrCreate [.component 2, .component 1], .getOrCreate [.component 1, .component 1],
        .getOrCreate [.component 2]]
      (r.run ops).2.nodeCount = 4 ∧ (r.run ops).2.pool.tenantCount = 3 ∧ r.CountsSets ops := by
  have hr : create { name := "pair" } = .ok ((_ : Repository Key), _) := rfl
  have hlt : [Key.component 1, .component 2].length < UInt32.size := by decide
  refine ⟨_, _, hr, by decide +kernel, by decide +kernel, ?_⟩
  exact countsSets_of_run hr hlt _ (by simp [Op.types, Op.LeavesPool])

end Repository
end EntityStore
