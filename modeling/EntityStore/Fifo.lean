/-! First in, first out queues of two lists: entries leave `front` and enter at the head of `back`.
`toList` is the queue in the order in which its entries leave. -/

namespace EntityStore

structure Fifo (α : Type) where
  front : List α := []
  back : List α := []

namespace Fifo
variable {α : Type}

def toList (q : Fifo α) : List α := q.front ++ q.back.reverse

def push (q : Fifo α) (a : α) : Fifo α := { q with back := a :: q.back }

/-- The entry that leaves next, and the queue behind it. -/
def pop? (q : Fifo α) : Option (α × Fifo α) :=
  match q.front with
  | a :: front => some (a, { q with front })
  | [] =>
    match q.back.reverse with
    | a :: front => some (a, ⟨front, []⟩)
    | [] => none

@[simp] theorem toList_push (q : Fifo α) (a : α) : (q.push a).toList = q.toList ++ [a] := by
  simp [toList, push]

theorem toList_eq_of_pop? {q r : Fifo α} {a : α} (h : q.pop? = some (a, r)) :
    q.toList = a :: r.toList := by
  unfold pop? at h
  split at h
  · rename_i hf
    cases h
    simp [toList, hf]
  · rename_i hf
    split at h
    · rename_i hb
      cases h
      simp [toList, hf, hb]
    · cases h

theorem length_of_pop? {q r : Fifo α} {a : α} (h : q.pop? = some (a, r)) :
    r.toList.length < q.toList.length := by
  rw [toList_eq_of_pop? h]
  exact Nat.lt_succ_self _

theorem pop?_eq_none_iff {q : Fifo α} : q.pop? = none ↔ q.toList = [] := by
  unfold pop?
  split
  · rename_i hf
    simp [toList, hf]
  · rename_i hf
    split
    · rename_i hb
      simp [toList, hf, hb]
    · rename_i hb
      simp [toList, hf, hb]

end Fifo
end EntityStore
