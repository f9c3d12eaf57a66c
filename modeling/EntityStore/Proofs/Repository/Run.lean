import EntityStore.Key
import EntityStore.Proofs.Repository.Composition
import EntityStore.Proofs.Repository.Walk

/-! Runs of a repository. Requests for the same set of types get the same composition, at whatever
time and in whatever order they name the types, and requests for different sets get compositions
with different tenants. -/

namespace EntityStore

/-- A request for the composition of a set of types, with the answer to it. -/
structure Request (κ : Type) where
  types : List κ
  result : Except Error (Composition κ)

namespace Repository

inductive Op (κ : Type) where
  | getOrCreate (types : List κ)
  | root
  | index (op : ClassIndex.Op κ) (h : op ≠ .close)
  | newTenant
  | removeTenant (id : UInt32)
  /-- Any change of a tenant, like registering an item. -/
  | onTenant (number : Nat) (change : Tenant → Outcome Tenant Unit)

def Op.types {κ : Type} : Op κ → List κ
  | .getOrCreate types => types
  | .index op _ => op.keys
  | .root | .newTenant | .removeTenant _ | .onTenant .. => []

variable {κ : Type} [BEq κ] {r s : Repository κ} {n n' : Numbering κ} {q : Request κ}
  {types xs : List κ}

/-- A request that was answered as it should be: its types have codes, and if they are distinct, the
set of their codes has the composition. -/
structure Answered (r : Repository κ) (n : Numbering κ) (q : Request κ) : Prop where
  known : ∀ type ∈ q.types, ∃ code, n.code? type = some code
  granted : q.types.Nodup → ∃ c, q.result = .ok c ∧ r.Serves (q.types.map n.get) c
  refused : ¬ q.types.Nodup → ∃ e, q.result = .error e

theorem Answered.mono (h : r.Answered n q) (hs : r.Retains s) (hn : n.Extends n') :
    s.Answered n' q where
  known type hmem := by
    obtain ⟨code, hc⟩ := h.known type hmem
    exact ⟨code, hn hc⟩
  granted hnodup := by
    obtain ⟨c, hresult, hc⟩ := h.granted hnodup
    refine ⟨c, hresult, ?_⟩
    rw [← List.map_congr_left fun type hmem => hn.get_eq (h.known type hmem)]
    exact hc.mono hs
  refused := h.refused

theorem Answered.of_ok (h : s.Answered n q) {c : Composition κ} (hc : q.result = .ok c) :
    q.types.Nodup ∧ s.Serves (q.types.map n.get) c := by
  by_cases hnodup : q.types.Nodup
  · obtain ⟨d, hd, hserves⟩ := h.granted hnodup
    cases hd.symm.trans hc
    exact ⟨hnodup, hserves⟩
  · obtain ⟨e, he⟩ := h.refused hnodup
    cases he.symm.trans hc

variable [Hashable κ]

def step (r : Repository κ) : Op κ → List (Request κ) × Repository κ
  | .getOrCreate types => ([⟨types, (r.getOrCreate types).result⟩], (r.getOrCreate types).state)
  | .root => ([⟨[], r.root.result⟩], r.root.state)
  | .index op _ => ([], { r with index := (r.index.step op).2 })
  | .newTenant => ([], { r with pool := r.pool.newTenant.state })
  | .removeTenant id => ([], { r with pool := (r.pool.removeTenant id).state })
  | .onTenant number change =>
    ([], { r with pool := ((r.pool.withTenant number change).map (·.state)).getD r.pool })

def run (r : Repository κ) : List (Op κ) → List (Request κ) × Repository κ
  | [] => ([], r)
  | op :: ops =>
    let (requests, r) := r.step op
    let (more, r) := r.run ops
    (requests ++ more, r)

theorem getOrCreate_of_error {e : IndexError} (h : (r.index.setHash types).result = .error e) :
    r.getOrCreate types = ⟨{ r with index := (r.index.setHash types).state }, .error (.index e),
      (r.index.setHash types).log⟩ := by
  unfold getOrCreate
  generalize r.index.setHash types = o at h
  obtain ⟨index, result, log⟩ := o
  obtain rfl : result = _ := h
  rfl

theorem getOrCreate_of_ok {hash : UInt64} {i : Nat} {log : List Event}
    (h : (r.index.setHash types).result = .ok hash)
    (hwalk : { r with index := (r.index.setHash types).state }.walk 0 types = ⟨s, .ok i, log⟩) :
    r.getOrCreate types = (s.compositionOf i).after ((r.index.setHash types).log ++ log) := by
  unfold getOrCreate
  generalize r.index.setHash types = o at h hwalk
  obtain ⟨index, result, log⟩ := o
  obtain rfl : result = _ := h
  simp only [hwalk]

theorem wf_init (config : Config) {index : ClassIndex κ} (hx : index.Numbers {})
    (schema : IdSchema) :
    WF { config, index, pool := { schema }, nodes := #[{ types := {} }],
         table := Std.TreeMap.empty.insert [] 0 } {} := by
  have hnode {i : Nat} {node : Node κ}
      (hi : (#[{ types := {} }] : Array (Node κ))[i]? = some node) :
      i = 0 ∧ node = { types := {} } := by
    obtain ⟨hlt, heq⟩ := Array.getElem?_eq_some_iff.1 hi
    obtain rfl : i = 0 := Nat.lt_one_iff.1 hlt
    exact ⟨rfl, heq.symm⟩
  refine
    { index := hx
      isOpen := rfl
      root := ⟨{ types := {} }, rfl, fun code => Iff.rfl⟩
      table := finds_empty.push {} rfl
      sound := fun {i node} hi => ?_
      apart := fun {i node c} hi hc => ?_ }
  · obtain ⟨-, rfl⟩ := hnode hi
    exact ⟨nofun, nofun, nofun, nofun, nofun⟩
  · obtain ⟨-, rfl⟩ := hnode hi
    cases hc

theorem exists_of_create {config : Config} {log : List Event} (h : create config = .ok (r, log)) :
    ∃ index schema, index.Numbers {} ∧
      r = { config, index, pool := { schema }, nodes := #[{ types := {} }],
            table := Std.TreeMap.empty.insert [] 0 } := by
  unfold create at h
  cases hv : config.validate with
  | error e => simp [hv, bind, Except.bind] at h
  | ok u =>
    cases hx : config.classIndex κ with
    | error e => simp [hv, hx, bind, Except.bind] at h
    | ok p =>
      cases hs : config.idSchema with
      | error e => simp [hv, hx, hs, bind, Except.bind] at h
      | ok schema =>
        simp only [hv, hx, hs, bind, Except.bind, pure, Except.pure, Except.ok.injEq,
          Prod.mk.injEq] at h
        exact ⟨_, schema, ClassIndex.numbers_of_create hx, h.1.symm⟩

theorem wf_create {config : Config} {log : List Event} (h : create config = .ok (r, log)) :
    r.WF {} := by
  obtain ⟨index, schema, hx, rfl⟩ := exists_of_create h
  exact wf_init config hx schema

/-- What a part of a run leads to: a repository that has kept nodes and codes, with the answers that
it owes to the requests. -/
structure Advances (types : List κ) (r : Repository κ) (n : Numbering κ)
    (p : List (Request κ) × Repository κ) (n' : Numbering κ) : Prop where
  wf : p.2.WF n'
  within : n'.Within types
  retains : r.Retains p.2
  codes : n.Extends n'
  answered : ∀ q ∈ p.1, p.2.Answered n' q

theorem Advances.append {p p' : List (Request κ) × Repository κ} {m : Numbering κ}
    (h : Advances types r n p m) (h' : Advances types p.2 m p' n') :
    Advances types r n (p.1 ++ p'.1, p'.2) n' where
  wf := h'.wf
  within := h'.within
  retains := h.retains.trans h'.retains
  codes := h.codes.trans h'.codes
  answered q hq := by
    rcases List.mem_append.1 hq with hq | hq
    · exact (h.answered q hq).mono h'.retains h'.codes
    · exact h'.answered q hq

theorem Advances.of_pool (h : r.WF n) (hw : n.Within types) {pool : Pool}
    (ho : pool.closed = r.pool.closed) (hle : r.pool.tenants.size ≤ pool.tenants.size) :
    Advances types r n ([], { r with pool }) n where
  wf := h.setPool (ho.trans h.isOpen) hle
  within := hw
  retains := r.retains_setPool hle
  codes := Numbering.Extends.refl n
  answered := nofun

variable [LawfulBEq κ]

theorem WF.getOrCreate_spec (h : r.WF n) (hw : n.Within types) (hlt : types.length < UInt32.size)
    (hxs : xs ⊆ types) : ∃ n', Advances types r n (r.step (.getOrCreate xs)) n' := by
  obtain ⟨m, hm, hmw, hnm, hknown, hok, herr⟩ := hw.setHash_spec hlt hxs
  have hsize : (n.setHash xs).2.keys.length < UInt32.size :=
    hm ▸ Nat.lt_of_le_of_lt hmw.length_le hlt
  obtain ⟨hresult, hindex⟩ := h.index.setHash xs hsize
  rw [hm] at hindex
  have hwf := h.setIndex hindex hnm
  have hret := r.retains_setIndex (r.index.setHash xs).state
  refine ⟨m, ?_⟩
  by_cases hnodup : xs.Nodup
  · obtain ⟨s, j, log, hwalk, hsw, hrs, hj⟩ := hwf.walk_spec hwf.root hknown
    obtain ⟨t, c, log', hcomp, htw, hst, hc⟩ := hsw.compositionOf_spec hj
    have hcreate := getOrCreate_of_ok (hresult.trans (hok hnodup)) hwalk
    show Advances types r n ([⟨xs, (r.getOrCreate xs).result⟩], (r.getOrCreate xs).state) m
    rw [hcreate, hcomp]
    refine ⟨htw, hmw, (hret.trans hrs).trans hst, hnm, fun q hq => ?_⟩
    rw [List.mem_singleton.1 hq]
    refine ⟨hknown, fun _ => ⟨c, rfl, ?_⟩, fun hdup => absurd hnodup hdup⟩
    rwa [List.append_nil] at hc
  · -- The hash refuses a repeated type before the walk, but has given codes to all types by then.
    obtain ⟨e, he⟩ := herr hnodup
    have hcreate := getOrCreate_of_error (hresult.trans he)
    show Advances types r n ([⟨xs, (r.getOrCreate xs).result⟩], (r.getOrCreate xs).state) m
    rw [hcreate]
    refine ⟨hwf, hmw, hret, hnm, fun q hq => ?_⟩
    rw [List.mem_singleton.1 hq]
    exact ⟨hknown, fun hno => absurd hno hnodup, fun _ => ⟨_, rfl⟩⟩

theorem WF.step_spec (h : r.WF n) (hw : n.Within types) (hlt : types.length < UInt32.size)
    (op : Op κ)
    (hop : op.types ⊆ types) : ∃ n', Advances types r n (r.step op) n' := by
  cases op with
  | getOrCreate xs => exact h.getOrCreate_spec hw hlt hop
  | root =>
    obtain ⟨s, c, log, hroot, hsw, hrs, hc⟩ := h.compositionOf_spec h.root
    refine ⟨n, ?_⟩
    show Advances types r n ([⟨[], r.root.result⟩], r.root.state) n
    rw [Repository.root, hroot]
    refine ⟨hsw, hw, hrs, Numbering.Extends.refl n, fun q hq => ?_⟩
    rw [List.mem_singleton.1 hq]
    exact ⟨by simp, fun _ => ⟨c, rfl, hc⟩, fun hdup => absurd List.nodup_nil hdup⟩
  | index op hne =>
    obtain ⟨hw', hn⟩ := hw.step op hne hop
    have hsize := Nat.lt_of_le_of_lt hw'.length_le hlt
    have hwf := h.setIndex (h.index.step op hsize).2 hn
    exact ⟨_, hwf, hw', r.retains_setIndex _, hn, nofun⟩
  | newTenant =>
    obtain ⟨pool, log, hnew, hopen, hsize⟩ := Pool.newTenant_of_open h.isOpen
    refine ⟨n, ?_⟩
    show Advances types r n ([], { r with pool := r.pool.newTenant.state }) n
    rw [hnew]
    exact .of_pool h hw (hopen.trans h.isOpen.symm) (hsize ▸ Nat.le_succ _)
  | removeTenant id =>
    obtain ⟨hclosed, hsize⟩ := r.pool.removeTenant_spec id
    exact ⟨n, .of_pool h hw hclosed (Nat.le_of_eq hsize.symm)⟩
  | onTenant number change =>
    refine ⟨n, ?_⟩
    show Advances types r n ([], { r with
      pool := ((r.pool.withTenant number change).map (·.state)).getD r.pool }) n
    cases ho : r.pool.withTenant number change with
    | none => exact .of_pool h hw rfl (Nat.le_refl _)
    | some o =>
      obtain ⟨hclosed, hsize⟩ := Pool.withTenant_spec ho
      exact .of_pool h hw hclosed (Nat.le_of_eq hsize.symm)

theorem WF.run_spec (h : r.WF n) (hw : n.Within types) (hlt : types.length < UInt32.size)
    (ops : List (Op κ)) (hops : ∀ op ∈ ops, op.types ⊆ types) :
    ∃ n', Advances types r n (r.run ops) n' := by
  induction ops generalizing r n with
  | nil => exact ⟨n, h, hw, Retains.refl r, Numbering.Extends.refl n, nofun⟩
  | cons op ops ih =>
    obtain ⟨hop, hops⟩ := List.forall_mem_cons.1 hops
    obtain ⟨m, hstep⟩ := h.step_spec hw hlt op hop
    obtain ⟨n', hrest⟩ := ih hstep.wf hstep.within hops
    exact ⟨n', hstep.append hrest⟩

/-- A request for distinct types is granted and any other one refused. What it is granted is the
composition of its types by the class index, then and at any later time, and two requests at any
times are granted the same composition, or only the same tenant, exactly if they are for the same
set of types. -/
theorem compositions_identify_sets {config : Config} {log : List Event}
    (hr : Repository.create config = .ok (r, log)) (hlt : types.length < UInt32.size)
    (ops later : List (Op κ)) (hops : ∀ op ∈ ops, op.types ⊆ types)
    (hlater : ∀ op ∈ later, op.types ⊆ types)
    (hsize : (r.run ops).2.pool.tenants.size ≤ UInt32.size) :
    (∀ q ∈ (r.run ops).1, (∃ c, q.result = .ok c) ↔ q.types.Nodup) ∧
    (∀ q ∈ (r.run ops).1, ∀ c, q.result = .ok c →
      c.Of ((r.run ops).2.run later).2.index q.types) ∧
    (∀ p ∈ (r.run ops).1, ∀ q ∈ (r.run ops).1, ∀ c d, p.result = .ok c → q.result = .ok d →
      ((c = d ↔ ∀ type, type ∈ p.types ↔ type ∈ q.types) ∧
        (UInt32.ofNat c.tenant = .ofNat d.tenant ↔ ∀ type, type ∈ p.types ↔ type ∈ q.types))) := by
  -- An answer is judged at the end of the run, up to which it has stayed right.
  obtain ⟨n, h⟩ := (wf_create hr).run_spec Numbering.within_empty hlt ops hops
  obtain ⟨m, h'⟩ := h.wf.run_spec h.within hlt later hlater
  refine ⟨fun q hq => ?_, fun q hq c hc => ?_, fun p hp q hq c d hc hd => ?_⟩
  · constructor
    · rintro ⟨c, hc⟩
      exact ((h.answered q hq).of_ok hc).1
    · intro hnodup
      obtain ⟨c, hc, -⟩ := (h.answered q hq).granted hnodup
      exact ⟨c, hc⟩
  · obtain ⟨hnodup, hserves⟩ := ((h.answered q hq).mono h'.retains h'.codes).of_ok hc
    exact h'.wf.composition_of h'.within hlt
      ((h.answered q hq).mono h'.retains h'.codes).known hnodup hserves
  · have hp := h.answered p hp
    have hq := h.answered q hq
    obtain ⟨hpn, hps⟩ := hp.of_ok hc
    obtain ⟨hqn, hqs⟩ := hq.of_ok hd
    have hcof := h.wf.composition_of h.within hlt hp.known hpn hps
    have hdof := h.wf.composition_of h.within hlt hq.known hqn hqs
    have hiff : c = d ↔ ∀ type, type ∈ p.types ↔ type ∈ q.types := by
      constructor
      · rintro rfl type
        exact (hcof.hasType type).symm.trans (hdof.hasType type)
      · intro heq
        refine h.wf.serves_congr hps hqs fun code => ?_
        simp only [List.mem_map, heq]
    refine ⟨hiff, Iff.trans ⟨fun htenant => ?_, fun heq => by rw [heq]⟩ hiff⟩
    exact h.wf.serves_inj hsize hps hqs htenant

/-- Two types in both orders, and one of them twice. -/
theorem compositions_identify_sets_pair :
    ∃ r : Repository Key, ∃ log, create { name := "pair" } = .ok (r, log) ∧
      let requests := (r.run [.getOrCreate [.component 1, .component 2],
        .getOrCreate [.component 2, .component 1], .getOrCreate [.component 1, .component 1]]).1
      (requests.map fun q => q.result.toOption.map (·.tenant)) = [some 0, some 0, none] ∧
      ∀ q ∈ requests, (∃ c, q.result = .ok c) ↔ q.types.Nodup := by
  have hr : create { name := "pair" } = .ok ((_ : Repository Key), _) := rfl
  have hlt : [Key.component 1, .component 2].length < UInt32.size := by decide
  refine ⟨_, _, hr, by decide +kernel, ?_⟩
  exact (compositions_identify_sets hr hlt _ [] (by simp [Op.types]) (by simp)
    (by decide +kernel)).1

end Repository
end EntityStore
