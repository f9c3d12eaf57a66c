import EntityStore.Proofs.ClassIndex.Run

/-! What a class index reports. Each time that it warns it gives its raw table up, so it warns once
at most. -/

namespace EntityStore

def Event.isCollision : Event → Bool
  | slotCollision .. => true
  | _ => false

namespace ClassIndex
variable {κ : Type} [BEq κ] [Hashable κ]

/-! ### Adding one key -/

/-- All that adding a key can lead to. -/
inductive Adds (x : ClassIndex κ) (key : κ) :
    Outcome (ClassIndex κ) (Except IndexError UInt32) → Prop
  | closed (hc : x.closed = true) : Adds x key ⟨x, .error .closed, []⟩
  | known {code : UInt32} (ho : x.closed = false) (hk : x.codes.get? key = some code) :
    Adds x key ⟨x, .ok code, []⟩
  | mapped (ho : x.closed = false) (hnew : x.codes.get? key = none) (he : x.exact = true) :
    Adds x key ⟨x.assign key, .ok (x.counter + 1), []⟩
  | placed (ho : x.closed = false) (hnew : x.codes.get? key = none) (he : x.exact = false)
    (hfree : x.raw.code? (x.slotOf key) = some 0) :
    Adds x key ⟨{ x with raw := x.raw.record (x.slotOf key) (x.counter + 1) key }.assign key,
      .ok (x.counter + 1), []⟩
  | collides (ho : x.closed = false) (hnew : x.codes.get? key = none) (he : x.exact = false)
    (htaken : x.raw.code? (x.slotOf key) ≠ some 0) :
    Adds x key ⟨{ x with exact := true }.assign key, .ok (x.counter + 1),
      [.slotCollision (x.slotOf key) (x.counter + 1)]⟩

theorem adds (x : ClassIndex κ) (key : κ) : x.Adds key (x.add key) := by
  unfold add
  split
  · exact .closed ‹_›
  · rename_i ho
    have ho : x.closed = false := by simpa using ho
    split
    · exact .known ho ‹_›
    · rename_i hnew
      dsimp only
      split
      · exact .mapped ho hnew ‹_›
      · rename_i he
        have he : x.exact = false := by simpa using he
        split
        · exact .placed ho hnew he ‹_›
        · exact .collides ho hnew he ‹_›

/-! ### Reports of a run -/

def log (x : ClassIndex κ) : Op κ → List Event
  | .add key => (x.add key).log
  | .getOrAdd key => (x.getOrAdd key).log
  | .getOrAddAll keys => (x.getOrAddAll keys).log
  | .setHash keys => (x.setHash keys).log
  | .close => x.close.log
  | .get _ | .useExactMap => []

def logs (x : ClassIndex κ) : List (Op κ) → List Event
  | [] => []
  | op :: ops => x.log op ++ (x.step op).2.logs ops

theorem adds_of_closed {x : ClassIndex κ} (hc : x.closed = true) (keys : List κ) :
    (x.run (keys.map .add)).2 = x ∧ x.logs (keys.map .add) = [] := by
  induction keys with
  | nil => exact ⟨rfl, rfl⟩
  | cons key keys ih =>
    have hadd : x.add key = ⟨x, .error .closed, []⟩ := if_pos hc
    rw [List.map_cons, logs, run, step, log, hadd]
    exact ih

def warnings (log : List Event) : Nat := log.countP Event.isCollision

theorem warnings_add (x : ClassIndex κ) (key : κ) :
    x.exact.toNat + warnings (x.add key).log = (x.add key).state.exact.toNat := by
  have hadds := x.adds key
  generalize x.add key = o at hadds
  cases hadds with
  | closed hc => rfl
  | known ho hk => rfl
  | mapped ho hnew he => rfl
  | placed ho hnew he hfree => rfl
  | collides ho hnew he htaken =>
    rw [he]
    rfl

theorem warnings_getOrAdd (x : ClassIndex κ) (key : κ) :
    x.exact.toNat + warnings (x.getOrAdd key).log = (x.getOrAdd key).state.exact.toNat := by
  unfold getOrAdd
  split
  · exact x.warnings_add key
  · rfl

theorem warnings_getOrAddAll (x : ClassIndex κ) (keys : List κ) :
    x.exact.toNat + warnings (x.getOrAddAll keys).log = (x.getOrAddAll keys).state.exact.toNat := by
  induction keys generalizing x with
  | nil => rfl
  | cons key keys ih =>
    have hone := x.warnings_getOrAdd key
    rw [getOrAddAll]
    split
    · rename_i y e log hy
      rw [hy] at hone
      exact hone
    · rename_i y code log hy
      rw [hy] at hone
      have hrest := ih y
      simp only [Outcome.after, Outcome.map, warnings, List.countP_append] at hone hrest ⊢
      omega

theorem warnings_step (x : ClassIndex κ) (op : Op κ) :
    x.exact.toNat + warnings (x.log op) ≤ (x.step op).2.exact.toNat := by
  cases op with
  | add key => exact Nat.le_of_eq (x.warnings_add key)
  | get key => exact Nat.le_refl _
  | getOrAdd key => exact Nat.le_of_eq (x.warnings_getOrAdd key)
  | getOrAddAll keys => exact Nat.le_of_eq (x.warnings_getOrAddAll keys)
  | setHash keys => exact Nat.le_of_eq (x.warnings_getOrAddAll keys)
  | useExactMap => exact Bool.toNat_le _
  | close =>
    simp only [log, step, close]
    split
    · exact Nat.le_refl _
    · exact Nat.le_refl _

theorem warnings_run (x : ClassIndex κ) (ops : List (Op κ)) :
    x.exact.toNat + warnings (x.logs ops) ≤ (x.run ops).2.exact.toNat := by
  induction ops generalizing x with
  | nil => exact Nat.le_refl _
  | cons op ops ih =>
    have hstep := x.warnings_step op
    have hrest := ih (x.step op).2
    rw [logs]
    simp only [warnings, List.countP_append] at hstep hrest ⊢
    show _ ≤ ((x.step op).2.run ops).2.exact.toNat
    omega

theorem exact_run {x : ClassIndex κ} (he : x.exact = true) (ops : List (Op κ)) :
    (x.run ops).2.exact = true ∧ warnings (x.logs ops) = 0 := by
  have hle := x.warnings_run ops
  have hlast := Bool.toNat_le (x.run ops).2.exact
  rw [he, Bool.toNat_true] at hle
  refine ⟨?_, by omega⟩
  by_contra hf
  rw [Bool.not_eq_true] at hf
  rw [hf, Bool.toNat_false] at hle
  omega

end ClassIndex
end EntityStore
