import Mathlib.Data.List.Basic
import Mathlib.Tactic.Common

/-! Passes over something that changes while they are under way. A call may put out some of what the
pass still has before it. It brings nothing back, and takes nothing away without putting it out that
is kept where it was. -/

namespace EntityStore

/-- A pass together with what it goes over, under calls that ask for the next output or change what
there is. -/
structure Sweep (σ κ α : Type) where
  step : σ → κ → σ
  out : σ → κ → List α
  Inv : σ → Prop
  /-- What may still be put out. -/
  Remains : σ → α → Prop
  /-- What is where the pass will find it. -/
  Kept : σ → α → Prop
  /-- The order in which the pass goes. -/
  Before : α → α → Prop
  inv_step {s : σ} (h : Inv s) (k : κ) : Inv (step s k)
  remains_of_step {s : σ} (h : Inv s) {k : κ} {a : α} : Remains (step s k) a → Remains s a
  pairwise_out {s : σ} (h : Inv s) (k : κ) : (out s k).Pairwise Before
  remains_of_out {s : σ} (h : Inv s) {k : κ} {a : α} : a ∈ out s k → Remains s a
  before_of_out {s : σ} (h : Inv s) {k : κ} {a b : α} :
    a ∈ out s k → Remains (step s k) b → Before a b
  remains_or_out {s : σ} (h : Inv s) {k : κ} {a : α} :
    Kept s a → Remains s a → Remains (step s k) a ∨ a ∈ out s k

namespace Sweep
variable {σ κ α : Type} (S : Sweep σ κ α) {s : σ} {a : α} {ks ls : List κ}

def run (s : σ) (ks : List κ) : σ := ks.foldl S.step s

def outputs (s : σ) : List κ → List α
  | [] => []
  | k :: ks => S.out s k ++ outputs (S.step s k) ks

theorem run_append (s : σ) (ks ls : List κ) : S.run s (ks ++ ls) = S.run (S.run s ks) ls :=
  List.foldl_append

theorem outputs_append (s : σ) (ks ls : List κ) :
    S.outputs s (ks ++ ls) = S.outputs s ks ++ S.outputs (S.run s ks) ls := by
  induction ks generalizing s with
  | nil => rfl
  | cons k ks ih =>
    rw [List.cons_append, outputs, ih, ← List.append_assoc]
    rfl

theorem inv_run (h : S.Inv s) (ks : List κ) : S.Inv (S.run s ks) := by
  induction ks generalizing s with
  | nil => exact h
  | cons k ks ih => exact ih (S.inv_step h k)

theorem remains_of_outputs (h : S.Inv s) (ha : a ∈ S.outputs s ks) : S.Remains s a := by
  induction ks generalizing s with
  | nil => cases ha
  | cons k ks ih =>
    rcases List.mem_append.1 ha with ha | ha
    · exact S.remains_of_out h ha
    · exact S.remains_of_step h (ih (S.inv_step h k) ha)

theorem pairwise_outputs (h : S.Inv s) (ks : List κ) : (S.outputs s ks).Pairwise S.Before := by
  induction ks generalizing s with
  | nil => exact .nil
  | cons k ks ih =>
    refine List.pairwise_append.2 ⟨S.pairwise_out h k, ih (S.inv_step h k), fun a ha b hb => ?_⟩
    exact S.before_of_out h ha (S.remains_of_outputs (S.inv_step h k) hb)

/-- What is kept all the time is not passed over. -/
theorem remains_or_outputs (h : S.Inv s) (hr : S.Remains s a)
    (hkept : ∀ part, part <+: ks → S.Kept (S.run s part) a) :
    S.Remains (S.run s ks) a ∨ a ∈ S.outputs s ks := by
  induction ks generalizing s with
  | nil => exact .inl hr
  | cons k ks ih =>
    rcases S.remains_or_out h (hkept [] List.nil_prefix) hr with hr | ha
    · have hrest := ih (S.inv_step h k) hr fun part hpart =>
        hkept (k :: part) (List.cons_prefix_cons.2 ⟨rfl, hpart⟩)
      exact hrest.imp_right (List.mem_append_right _)
    · -- Once it has been put out it need not be kept any more.
      exact .inr (List.mem_append_left _ ha)

end Sweep
end EntityStore
