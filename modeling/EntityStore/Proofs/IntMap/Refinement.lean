import EntityStore.Proofs.IntMap
import Mathlib.Data.Set.Card
import Mathlib.Logic.Function.Basic

/-! Families of maps from codes as families of finite maps. Each call on a map is that on the finite
map, and a copy is another map with the same entries. What a map lists is known from its entries,
in whatever order its table finds them. -/

namespace EntityStore

inductive MapCall (α : Type) where
  | put (key : UInt32) (value : α)
  | get (key : UInt32)
  | contains (key : UInt32)
  | computeIfAbsent (key : UInt32) (f : UInt32 → α)
  | remove (key : UInt32)

inductive MapAnswer (α : Type) where
  | value (value : Option α)
  | flag (b : Bool)
  /-- The value, and whether the function was asked for it. -/
  | computed (value : α) (asked : Bool)

/-- What may be asked of a family of maps, which are named by their numbers. -/
inductive FamilyOp (α : Type) where
  | create (capacity : Nat)
  | call (i : Nat) (call : MapCall α)
  | clone (i : Nat)

def IntMap.serve {α : Type} {τ : Type → Type} [CodeTable τ] (m : IntMap α τ) :
    MapCall α → MapAnswer α × IntMap α τ
  | .put key value =>
    let (old, m) := m.put key value
    (.value old, m)
  | .get key => (.value (m.get? key), m)
  | .contains key => (.flag (m.contains key), m)
  | .computeIfAbsent key f =>
    let (value, asked, m) := m.computeIfAbsent key f
    (.computed value asked, m)
  | .remove key =>
    let (old, m) := m.remove key
    (.value old, m)

/-- A finite map: the value of each code that has one. -/
abbrev CodeMap (α : Type) := UInt32 → Option α

def CodeMap.serve {α : Type} (f : CodeMap α) : MapCall α → MapAnswer α × CodeMap α
  | .put key value => (.value (f key), Function.update f key (some value))
  | .get key => (.value (f key), f)
  | .contains key => (.flag (f key).isSome, f)
  | .computeIfAbsent key g =>
    match f key with
    | some value => (.computed value false, f)
    | none => (.computed (g key) true, Function.update f key (some (g key)))
  | .remove key => (.value (f key), Function.update f key none)

/-! ### Families -/

/-- The maps of a family: how one is made and copied, and how it answers calls. -/
structure MapKind (α M : Type) where
  create : Nat → M
  clone : M → M
  serve : M → MapCall α → MapAnswer α × M

def IntMap.kind (α : Type) (τ : Type → Type) [CodeTable τ] : MapKind α (IntMap α τ) where
  create := withCapacity
  clone := clone
  serve := serve

def CodeMap.kind (α : Type) : MapKind α (CodeMap α) where
  create _ _ := none
  clone f := f
  serve := serve

namespace MapKind
variable {α M N : Type}

/-- A family of maps of one kind. There is no answer for a map that is none. -/
def step (kind : MapKind α M) (ms : List M) : FamilyOp α → Option (MapAnswer α) × List M
  | .create capacity => (none, ms ++ [kind.create capacity])
  | .call i call =>
    match ms[i]? with
    | some m => (some (kind.serve m call).1, ms.set i (kind.serve m call).2)
    | none => (none, ms)
  | .clone i => (none, ms ++ (ms[i]?.map kind.clone).toList)

def run (kind : MapKind α M) (ms : List M) :
    List (FamilyOp α) → List (Option (MapAnswer α)) × List M
  | [] => ([], ms)
  | op :: ops =>
    let (answer, ms) := kind.step ms op
    let (answers, ms) := kind.run ms ops
    (answer :: answers, ms)

/-- Seen through `abs`, maps of one kind are made, copied and asked as those of the other. -/
structure Maps (kind : MapKind α M) (kind' : MapKind α N) (abs : M → N) : Prop where
  create : ∀ capacity, abs (kind.create capacity) = kind'.create capacity
  clone : ∀ m, abs (kind.clone m) = kind'.clone (abs m)
  serve : ∀ m call, kind'.serve (abs m) call = ((kind.serve m call).1, abs (kind.serve m call).2)

variable {kind : MapKind α M} {kind' : MapKind α N} {abs : M → N}

theorem Maps.step (h : kind.Maps kind' abs) (ms : List M) (op : FamilyOp α) :
    kind'.step (ms.map abs) op = ((kind.step ms op).1, (kind.step ms op).2.map abs) := by
  cases op with
  | create capacity => simp [MapKind.step, h.create]
  | call i call =>
    cases hm : ms[i]? with
    | none => simp [MapKind.step, hm]
    | some m => simp [MapKind.step, hm, h.serve, List.map_set]
  | clone i => cases hm : ms[i]? <;> simp [MapKind.step, hm, h.clone]

theorem Maps.run (h : kind.Maps kind' abs) (ms : List M) (ops : List (FamilyOp α)) :
    kind'.run (ms.map abs) ops = ((kind.run ms ops).1, (kind.run ms ops).2.map abs) := by
  induction ops generalizing ms with
  | nil => rfl
  | cons op ops ih => simp only [MapKind.run, h.step, ih]

theorem run_append (kind : MapKind α M) (ms : List M) (ops more : List (FamilyOp α)) :
    (kind.run ms (ops ++ more)).2 = (kind.run (kind.run ms ops).2 more).2 := by
  induction ops generalizing ms with
  | nil => rfl
  | cons op ops ih => exact ih (kind.step ms op).2

theorem getElem?_step {ms : List M} {j : Nat} {m : M} (hj : ms[j]? = some m) {op : FamilyOp α}
    (hop : ∀ call, op ≠ .call j call) : (kind.step ms op).2[j]? = some m := by
  have hlt : j < ms.length := (List.getElem?_eq_some_iff.1 hj).1
  cases op with
  | create capacity => exact (List.getElem?_append_left hlt).trans hj
  | call i call =>
    have hne : i ≠ j := by
      rintro rfl
      exact hop call rfl
    cases hm : ms[i]? with
    | none => simp [step, hm, hj]
    | some n => simp [step, hm, List.getElem?_set_ne hne, hj]
  | clone i => exact (List.getElem?_append_left hlt).trans hj

theorem getElem?_run {ms : List M} {j : Nat} {m : M} (hj : ms[j]? = some m)
    {ops : List (FamilyOp α)} (hops : ∀ call, .call j call ∉ ops) :
    (kind.run ms ops).2[j]? = some m := by
  induction ops generalizing ms with
  | nil => exact hj
  | cons op ops ih =>
    apply ih
    · apply getElem?_step hj
      intro call heq
      exact hops call (heq ▸ List.mem_cons_self ..)
    · intro call hmem
      exact hops call (List.mem_cons_of_mem _ hmem)

end MapKind

/-! ### One map -/

namespace IntMap
variable {α : Type} {τ : Type → Type} [CodeTable τ] [LawfulCodeTable τ]

theorem serve_get? (m : IntMap α τ) (call : MapCall α) :
    CodeMap.serve m.get? call = ((m.serve call).1, (m.serve call).2.get?) := by
  have hput (key : UInt32) (value : α) :
      Function.update m.get? key (some value) = (m.put key value).2.get? := by
    funext code
    rw [Function.update_apply, get?_put]
  cases call with
  | put key value =>
    show (_, _) = (MapAnswer.value (m.put key value).1, (m.put key value).2.get?)
    rw [put_fst, ← hput]
  | get key => rfl
  | contains key => exact congrArg (fun b => (MapAnswer.flag b, m.get?)) (m.contains_eq key).symm
  | computeIfAbsent key g =>
    cases hget : m.get? key with
    | some value =>
      have hkept : m.computeIfAbsent key g = (value, false, m) := by rw [computeIfAbsent, hget]
      simp only [CodeMap.serve, serve, hget, hkept]
    | none =>
      have hnew : m.computeIfAbsent key g = (g key, true, (m.put key (g key)).2) := by
        rw [computeIfAbsent, hget]
        rfl
      simp only [CodeMap.serve, serve, hget, hnew, hput]
  | remove key =>
    show (_, _) = (MapAnswer.value (m.remove key).1, (m.remove key).2.get?)
    rw [remove_fst]
    congr 1
    funext code
    rw [Function.update_apply, get?_remove]

theorem maps_get? (α : Type) (τ : Type → Type) [CodeTable τ] [LawfulCodeTable τ] :
    (kind α τ).Maps (CodeMap.kind α) get? where
  create capacity := funext (get?_withCapacity capacity)
  clone m := funext m.get?_clone
  serve := serve_get?

theorem zip_keys_values (m : IntMap α τ) : m.keys.zip m.values = m.sorted :=
  (List.zip_of_prod m.keys_eq_map.symm rfl).symm

theorem lookup_sorted (m : IntMap α τ) (key : UInt32) : m.sorted.lookup key = m.get? key := by
  apply Option.ext
  intro value
  rw [← mem_sorted, List.lookup_eq_some_iff]
  constructor
  · rintro ⟨front, back, heq, -⟩
    rw [heq]
    exact List.mem_append_right _ (List.mem_cons_self ..)
  · intro hmem
    obtain ⟨front, back, heq⟩ := List.append_of_mem hmem
    refine ⟨front, back, heq, ?_⟩
    intro p hp
    -- What stands in front has smaller keys.
    have hpair := heq ▸ m.pairwise_sorted
    have hlt := (List.pairwise_append.1 hpair).2.2 p hp _ (List.mem_cons_self ..)
    exact bne_iff_ne.2 (UInt32.ne_of_lt hlt).symm

/-- Two tables with the same entries are sorted to one list, however different their orders are. -/
theorem sorted_eq_of_get?_eq {σ : Type → Type} [CodeTable σ] [LawfulCodeTable σ] {m : IntMap α τ}
    {n : IntMap α σ} (h : ∀ key, n.get? key = m.get? key) : n.sorted = m.sorted := by
  have hperm : n.sorted.Perm m.sorted := by
    apply (List.perm_ext_iff_of_nodup (List.Nodup.of_map _ n.nodup_map_sorted)
      (List.Nodup.of_map _ m.nodup_map_sorted)).2
    intro e
    rw [mem_sorted, mem_sorted, h]
  apply hperm.eq_of_pairwise _ n.pairwise_sorted m.pairwise_sorted
  intro a b _ _ hab hba
  exact absurd hba (UInt32.lt_asymm hab)

/-- What a map shows of the finite map `f` that it is. A map with the same entries shows the same,
whatever kind of table it is kept in. -/
structure Views (m : IntMap α τ) (f : CodeMap α) : Prop where
  get? : ∀ key, m.get? key = f key
  contains : ∀ key, m.contains key = (f key).isSome
  ascending : m.keys.Pairwise (· < ·)
  mem_keys : ∀ key, key ∈ m.keys ↔ (f key).isSome = true
  values : m.values.map some = m.keys.map f
  zip : ∀ key, (m.keys.zip m.values).lookup key = f key
  size : m.size = {key | (f key).isSome = true}.ncard
  hash : m.hash.toNat = m.keys.foldl (fun h code => h * 31 + code.toNat) 0 % UInt64.size
  same : ∀ (σ : Type → Type) [CodeTable σ] [LawfulCodeTable σ] (n : IntMap α σ),
    (∀ key, n.get? key = f key) →
      n.keys = m.keys ∧ n.values = m.values ∧ n.size = m.size ∧ n.hash = m.hash

theorem views (m : IntMap α τ) : m.Views m.get? where
  get? _ := rfl
  contains := m.contains_eq
  ascending := m.pairwise_keys
  mem_keys key := by rw [IntMap.mem_keys, Option.isSome_iff_exists]
  values := m.map_values fun _ _ hget => hget.symm
  zip key := by rw [zip_keys_values, lookup_sorted]
  size := by
    have hset : {key | (m.get? key).isSome = true} = ↑m.keys.toFinset := by
      ext key
      rw [List.coe_toFinset, Set.mem_ofPred_eq, Set.mem_ofPred_eq, IntMap.mem_keys,
        Option.isSome_iff_exists]
    rw [hset, Set.ncard_coe_finset, List.toFinset_card_of_nodup m.nodup_keys, length_keys]
  hash := toNat_canonicalHash m.keys
  same σ _ _ n hn := by
    have heq := sorted_eq_of_get?_eq hn
    have hkeys : n.keys = m.keys := by rw [keys_eq_map, keys_eq_map, heq]
    have hsize : n.size = m.size := by rw [← length_keys, ← length_keys, hkeys]
    exact ⟨hkeys, congrArg (List.map _) heq, hsize, congrArg canonicalHash hkeys⟩

end IntMap

/-! ### Families of maps from codes -/

namespace Family
variable {α : Type} {τ : Type → Type} [CodeTable τ] [LawfulCodeTable τ]

/-- A family that has been asked some things, from none on. -/
def maps (τ : Type → Type) [CodeTable τ] (ops : List (FamilyOp α)) :
    List (Option (MapAnswer α)) × List (IntMap α τ) :=
  (IntMap.kind α τ).run [] ops

/-- The family of finite maps that has been asked the same. -/
def codeMaps (ops : List (FamilyOp α)) : List (Option (MapAnswer α)) × List (CodeMap α) :=
  (CodeMap.kind α).run [] ops

/-- A family is one of finite maps: it answers alike, and each map shows the finite map of its
number. A copy is a map of its own that shows the same, and no map notices what is asked of another
one. -/
structure Refines (τ : Type → Type) [CodeTable τ] [LawfulCodeTable τ] (ops : List (FamilyOp α)) :
    Prop where
  answers : (maps τ ops).1 = (codeMaps ops).1
  length : (maps τ ops).2.length = (codeMaps ops).2.length
  views : ∀ (i : Nat) (m : IntMap α τ), (maps τ ops).2[i]? = some m →
    ∃ f : CodeMap α, (codeMaps ops).2[i]? = some f ∧ m.Views f
  clone : ∀ (i : Nat) (m : IntMap α τ), (maps τ ops).2[i]? = some m →
    (maps τ (ops ++ [.clone i])).2 = (maps τ ops).2 ++ [m.clone] ∧
      ∀ f : CodeMap α, m.Views f → m.clone.Views f
  apart : ∀ (j : Nat) (m : IntMap α τ) more, (maps τ ops).2[j]? = some m →
    (∀ call, .call j call ∉ more) → (maps τ (ops ++ more)).2[j]? = some m

theorem codeMaps_eq (τ : Type → Type) [CodeTable τ] [LawfulCodeTable τ] (ops : List (FamilyOp α)) :
    codeMaps ops = ((maps τ ops).1, (maps τ ops).2.map IntMap.get?) :=
  (IntMap.maps_get? α τ).run [] ops

/-- Maps from codes refine finite maps, however many there are and whatever is asked of them, in
every kind of table that keeps its promises. -/
theorem refines_of_run (τ : Type → Type) [CodeTable τ] [LawfulCodeTable τ]
    (ops : List (FamilyOp α)) : Refines τ ops where
  answers := by rw [codeMaps_eq τ]
  length := by rw [codeMaps_eq τ, List.length_map]
  views i m hm := by
    refine ⟨m.get?, ?_, m.views⟩
    rw [codeMaps_eq τ, List.getElem?_map, hm, Option.map_some]
  clone i m hm := by
    refine ⟨?_, ?_⟩
    · unfold maps at hm ⊢
      rw [MapKind.run_append]
      simp only [MapKind.run, MapKind.step]
      rw [hm]
      rfl
    · intro f hf
      have hsame : m.clone.get? = f := funext fun key => (m.get?_clone key).trans (hf.get? key)
      exact hsame ▸ m.clone.views
  apart j m more hm hmore := by
    unfold maps at hm ⊢
    rw [MapKind.run_append]
    exact MapKind.getElem?_run hm hmore

/-- A map is copied, and from then on each of the two has an entry that the other lacks. -/
theorem refines_of_run_copied :
    let ops : List (FamilyOp String) := [.create 16, .call 0 (.put 7 "seven"),
      .call 0 (.put 3 "three"), .clone 0, .call 0 (.put 5 "five"),
      .call 1 (.computeIfAbsent 4 toString)]
    (maps DescendingTable ops).2.map (fun m => (m.keys, m.values)) =
        [([3, 5, 7], ["three", "five", "seven"]), ([3, 4, 7], ["three", "4", "seven"])] ∧
      Refines DescendingTable ops := by
  intro ops
  exact ⟨by decide +kernel, refines_of_run DescendingTable ops⟩

end Family
end EntityStore
