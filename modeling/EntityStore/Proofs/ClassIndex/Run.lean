import EntityStore.Key
import EntityStore.Proofs.ClassIndex.SetHash

/-! Runs of a class index. Whatever the hash, every answer is the one of first-seen numbering. -/

namespace EntityStore

namespace ClassIndex

inductive Op (κ : Type) where
  | add (key : κ)
  | get (key : κ)
  | getOrAdd (key : κ)
  | getOrAddAll (keys : List κ)
  | setHash (keys : List κ)
  | useExactMap
  | close

inductive Answer where
  | code (code : UInt32)
  | added (r : Except IndexError UInt32)
  | batch (r : Except IndexError (List UInt32))
  | hashed (r : Except IndexError UInt64)
  | done

variable {κ : Type} [BEq κ] [Hashable κ]

def step (x : ClassIndex κ) : Op κ → Answer × ClassIndex κ
  | .add key => (.added (x.add key).result, (x.add key).state)
  | .get key => (.code (x.get key), x)
  | .getOrAdd key => (.added (x.getOrAdd key).result, (x.getOrAdd key).state)
  | .getOrAddAll keys => (.batch (x.getOrAddAll keys).result, (x.getOrAddAll keys).state)
  | .setHash keys => (.hashed (x.setHash keys).result, (x.setHash keys).state)
  | .useExactMap => (.done, x.useExactMap)
  | .close => (.done, x.close.state)

def run (x : ClassIndex κ) : List (Op κ) → List Answer × ClassIndex κ
  | [] => ([], x)
  | op :: ops =>
    let (answer, x) := x.step op
    let (answers, x) := x.run ops
    (answer :: answers, x)

end ClassIndex

namespace Numbering
open ClassIndex
variable {κ : Type} [BEq κ]

def step (r : Numbering κ) : Op κ → Answer × Numbering κ
  | .add key => (.added (r.add key).1, (r.add key).2)
  | .get key => (.code (r.get key), r)
  | .getOrAdd key => (.added (r.getOrAdd key).1, (r.getOrAdd key).2)
  | .getOrAddAll keys => (.batch (r.getOrAddAll keys).1, (r.getOrAddAll keys).2)
  | .setHash keys => (.hashed (r.setHash keys).1, (r.setHash keys).2)
  | .useExactMap => (.done, r)
  | .close => (.done, r.close)

def run (r : Numbering κ) : List (Op κ) → List Answer × Numbering κ
  | [] => ([], r)
  | op :: ops =>
    let (answer, r) := r.step op
    let (answers, r) := r.run ops
    (answer :: answers, r)

theorem keys_prefix_step (r : Numbering κ) (op : Op κ) : r.keys <+: (r.step op).2.keys := by
  cases op with
  | add key => exact r.keys_prefix_add key
  | getOrAdd key => exact r.keys_prefix_getOrAdd key
  | getOrAddAll keys => exact r.keys_prefix_getOrAddAll keys
  | setHash keys => exact r.keys_prefix_getOrAddAll keys
  | get key => exact List.prefix_rfl
  | useExactMap => exact List.prefix_rfl
  | close => exact List.prefix_rfl

theorem keys_prefix_run (r : Numbering κ) (ops : List (Op κ)) : r.keys <+: (r.run ops).2.keys := by
  induction ops generalizing r with
  | nil => exact List.prefix_rfl
  | cons op ops ih => exact (r.keys_prefix_step op).trans (ih _)

end Numbering

namespace ClassIndex
variable {κ : Type} [BEq κ] [Hashable κ] {x : ClassIndex κ} {r : Numbering κ}

theorem Numbers.useExactMap (h : x.Numbers r) : x.useExactMap.Numbers r :=
  { h with
    codes := h.codes
    code_of_key := h.code_of_key
    raw := fun hf => by cases hf }

theorem Numbers.close (h : x.Numbers r) : x.close.state.Numbers r.close := by
  unfold ClassIndex.close Numbering.close
  split
  · rename_i hc
    have hr : { r with closed := true } = r := by
      rw [← h.closed.symm.trans hc]
    rw [hr]
    exact h
  · refine
      { closed := rfl
        lt := h.lt
        counter := h.counter
        codes := fun _ => rfl
        code_of_key := fun {code key} hk => ?_
        raw := fun _ {key code} hk => ?_ }
    · simp [RawTable.key?] at hk
    · cases hk

theorem numbers_of_create {hashBits : Nat} {log : List Event}
    (h : ClassIndex.create hashBits = .ok (x, log)) : x.Numbers {} := by
  unfold create at h
  split at h
  · rename_i hbits
    cases h
    exact numbers_empty hbits.1 hbits.2 rfl
  · cases h

theorem exists_create {hashBits : Nat} (h2 : 2 ≤ hashBits) (h24 : hashBits ≤ 24) :
    ∃ (x : ClassIndex κ) (log : List Event), ClassIndex.create hashBits = .ok (x, log) ∧
      x.Numbers {} :=
  ⟨_, _, dif_pos ⟨h2, h24⟩, numbers_empty h2 h24 rfl⟩

variable [EquivBEq κ] [LawfulHashable κ]

theorem Numbers.getOrAdd (h : x.Numbers r) (key : κ)
    (hlt : (r.getOrAdd key).2.keys.length < UInt32.size) :
    (x.getOrAdd key).result = (r.getOrAdd key).1 ∧
      (x.getOrAdd key).state.Numbers (r.getOrAdd key).2 := by
  have hget := h.get_eq key
  unfold ClassIndex.getOrAdd Numbering.getOrAdd Numbering.get at *
  rw [hget]
  cases hc : r.code? key with
  | some code =>
    have hne := Numbering.code?_ne_zero h.lt hc
    rw [Option.getD_some]
    split
    · exact absurd rfl hne
    · exact ⟨rfl, h⟩
  | none =>
    rw [hc] at hlt
    exact h.add key hlt

theorem Numbers.getOrAddAll (h : x.Numbers r) (keys : List κ)
    (hlt : (r.getOrAddAll keys).2.keys.length < UInt32.size) :
    (x.getOrAddAll keys).result = (r.getOrAddAll keys).1 ∧
      (x.getOrAddAll keys).state.Numbers (r.getOrAddAll keys).2 := by
  induction keys generalizing x r with
  | nil => exact ⟨rfl, h⟩
  | cons key keys ih =>
    have hone := h.getOrAdd key
    rw [Numbering.getOrAddAll] at hlt
    rw [ClassIndex.getOrAddAll, Numbering.getOrAddAll]
    generalize r.getOrAdd key = p at *
    generalize x.getOrAdd key = o at *
    obtain ⟨res, s⟩ := p
    obtain ⟨y, res', log⟩ := o
    cases res with
    | error e =>
      obtain ⟨rfl, hy⟩ := hone hlt
      exact ⟨rfl, hy⟩
    | ok code =>
      -- The bound is one on the keys after the whole list, of which there are no fewer.
      obtain ⟨rfl, hy⟩ :=
        hone (Nat.lt_of_le_of_lt (s.keys_prefix_getOrAddAll keys).length_le hlt)
      obtain ⟨hres, hstate⟩ := ih hy hlt
      refine ⟨?_, hstate⟩
      simp only [Outcome.after, Outcome.map, hres]

theorem Numbers.setHash (h : x.Numbers r) (keys : List κ)
    (hlt : (r.setHash keys).2.keys.length < UInt32.size) :
    (x.setHash keys).result = (r.setHash keys).1 ∧
      (x.setHash keys).state.Numbers (r.setHash keys).2 := by
  obtain ⟨hres, hstate⟩ := h.getOrAddAll keys hlt
  refine ⟨?_, hstate⟩
  show (x.getOrAddAll keys).result.bind _ = (r.getOrAddAll keys).1.bind _
  rw [hres]
  exact congrArg _ (funext hash_codes)

theorem Numbers.step (h : x.Numbers r) (op : Op κ)
    (hlt : (r.step op).2.keys.length < UInt32.size) :
    (x.step op).1 = (r.step op).1 ∧ (x.step op).2.Numbers (r.step op).2 := by
  cases op with
  | add key => exact (h.add key hlt).imp_left (congrArg _)
  | get key => exact ⟨congrArg _ (h.get_eq key), h⟩
  | getOrAdd key => exact (h.getOrAdd key hlt).imp_left (congrArg _)
  | getOrAddAll keys => exact (h.getOrAddAll keys hlt).imp_left (congrArg _)
  | setHash keys => exact (h.setHash keys hlt).imp_left (congrArg _)
  | useExactMap => exact ⟨rfl, h.useExactMap⟩
  | close => exact ⟨rfl, h.close⟩

theorem Numbers.run (h : x.Numbers r) (ops : List (Op κ))
    (hlt : (r.run ops).2.keys.length < UInt32.size) :
    (x.run ops).1 = (r.run ops).1 ∧ (x.run ops).2.Numbers (r.run ops).2 := by
  induction ops generalizing x r with
  | nil => exact ⟨rfl, h⟩
  | cons op ops ih =>
    have hstep := Nat.lt_of_le_of_lt ((r.step op).2.keys_prefix_run ops).length_le hlt
    obtain ⟨hanswer, hnext⟩ := h.step op hstep
    obtain ⟨hanswers, hlast⟩ := ih hnext hlt
    exact ⟨congrArg₂ List.cons hanswer hanswers, hlast⟩

/-- Whatever the hash and the width, a class index answers as first-seen numbering does, and its raw
table never tells anything else than the exact map. A closed index knows no key and takes none. -/
theorem refines_numbering {hashBits : Nat} (h2 : 2 ≤ hashBits) (h24 : hashBits ≤ 24) :
    ∃ (x : ClassIndex κ) (log : List Event), ClassIndex.create hashBits = .ok (x, log) ∧
      ∀ ops : List (Op κ), (({} : Numbering κ).run ops).2.keys.length < UInt32.size →
        (x.run ops).1 = (({} : Numbering κ).run ops).1 ∧
        (x.run ops).2.counter.toNat = (({} : Numbering κ).run ops).2.keys.length ∧
        (∀ key, (x.run ops).2.get key = (x.run ops).2.exactGet key) ∧
        ((x.run ops).2.closed = true →
          (∀ key, (x.run ops).2.get key = 0 ∧ ((x.run ops).2.add key).result = .error .closed) ∧
          ((x.run ops).2.getOrAddAll []).result = .ok [] ∧
          ((x.run ops).2.setHash []).result = .ok 0) := by
  have hx : ClassIndex.create hashBits = .ok (({ hashBits, two_le := h2, le_twentyFour := h24 } :
      ClassIndex κ), [.indexCreated (1 <<< hashBits)]) := dif_pos ⟨h2, h24⟩
  refine ⟨_, _, hx, fun ops hlt => ?_⟩
  obtain ⟨hanswers, h⟩ := (numbers_of_create hx).run ops hlt
  refine ⟨hanswers, h.counter, h.get_eq_exactGet, fun hc => ⟨fun key => ⟨?_, ?_⟩, rfl, rfl⟩⟩
  · rw [h.get_eq, Numbering.get, Numbering.code?, if_pos (h.closed ▸ hc)]
    rfl
  · unfold ClassIndex.add
    rw [if_pos hc]

/-- Two keys of one hash, before and after the index is closed. -/
theorem refines_numbering_bucket :
    ∃ (x : ClassIndex Key) (log : List Event), ClassIndex.create 4 = .ok (x, log) ∧
      (x.run [.add (.bucket 7 1), .add (.bucket 7 2), .get (.bucket 7 1), .close,
        .add (.bucket 7 1)]).1 =
      [.added (.ok 1), .added (.ok 2), .code 1, .done, .added (.error .closed)] := by
  obtain ⟨x, log, hx, h⟩ := refines_numbering (κ := Key) (by decide : 2 ≤ 4) (by decide)
  exact ⟨x, log, hx, (h _ (by decide)).1⟩

end ClassIndex
end EntityStore
