import EntityStore.Layout
import EntityStore.Proofs.Bounds.Chunk
import EntityStore.Proofs.ClassIndex.Collision

/-! Checked execution of a class index. The slot of a key is below the length of the raw table as
long as the index is open, the list of keys grows to the code that is written, and the set that
finds repeated codes is as long as the greatest of them needs. The counter stays in its range as
long as there are codes for all keys. -/

namespace EntityStore

def RawTable.checkedRecord {κ : Type} (r : RawTable κ) (slot : Nat) (code : UInt32) (key : κ) :
    Checked (RawTable κ) :=
  if slot < r.size then
    let n := code.toNat
    let keys := r.keys ++ Array.replicate (n + 1 - r.keys.size) none
    (checkedSet keys n (some key)).map fun keys =>
      { r with slots := r.slots.insert slot code, keys }
  else none

theorem RawTable.checkedRecord_eq {κ : Type} {r : RawTable κ} {slot : Nat} (h : slot < r.size)
    (code : UInt32) (key : κ) : r.checkedRecord slot code key = some (r.record slot code key) := by
  have hlt : code.toNat < r.keys.size + (code.toNat + 1 - r.keys.size) := by omega
  simp [checkedRecord, record, checkedSet, h, hlt]

namespace ClassIndex
variable {κ : Type} [BEq κ] [Hashable κ]

def checkedNextCode (x : ClassIndex κ) : Checked UInt32 :=
  (raise x.counter.toNat (UInt32.size - 1)).map .ofNat

def checkedAdd (x : ClassIndex κ) (key : κ) :
    Checked (Outcome (ClassIndex κ) (Except IndexError UInt32)) :=
  if x.closed then some ⟨x, .error .closed, []⟩
  else match x.codes.get? key with
    | some code => some ⟨x, .ok code, []⟩
    | none => do
      let code ← x.checkedNextCode
      if x.exact then return ⟨x.assign key, .ok code, []⟩
      let slot := x.slotOf key
      let old ← x.raw.code? slot
      if old = 0 then
        let raw ← x.raw.checkedRecord slot code key
        return ⟨{ x with raw }.assign key, .ok code, []⟩
      else return ⟨{ x with exact := true }.assign key, .ok code, [.slotCollision slot code]⟩

def checkedGetOrAdd (x : ClassIndex κ) (key : κ) :
    Checked (Outcome (ClassIndex κ) (Except IndexError UInt32)) :=
  if x.get key = 0 then x.checkedAdd key else some ⟨x, .ok (x.get key), []⟩

def checkedGetOrAddAll (x : ClassIndex κ) :
    List κ → Checked (Outcome (ClassIndex κ) (Except IndexError (List UInt32)))
  | [] => some ⟨x, .ok [], []⟩
  | key :: keys => do
    match ← x.checkedGetOrAdd key with
    | ⟨x, .error e, log⟩ => return ⟨x, .error e, log⟩
    | ⟨x, .ok code, log⟩ =>
      let o ← x.checkedGetOrAddAll keys
      return (o.map (·.map (code :: ·))).after log

def checkedMark (seen : BitSet) : List UInt32 → Checked (Except IndexError BitSet)
  | [] => some (.ok seen)
  | code :: codes => do
    match ← seen.checkedPut code.toNat with
    | (true, _) => return .error (.duplicateType code)
    | (false, seen) => checkedMark seen codes

def checkedSetHash (x : ClassIndex κ) (keys : List κ) :
    Checked (Outcome (ClassIndex κ) (Except IndexError UInt64)) := do
  match ← x.checkedGetOrAddAll keys with
  | ⟨x, .error e, log⟩ => return ⟨x, .error e, log⟩
  | ⟨x, .ok codes, log⟩ =>
    let greatest := codes.foldl max 0
    let seen ← checkedMark (.ofLength (greatest.toNat + 1)) codes
    return ⟨x, seen.map fun seen => canonicalHash (seen.toList.map UInt32.ofNat), log⟩

def checkedStep (x : ClassIndex κ) : Op κ → Checked (Answer × ClassIndex κ)
  | .add key => (x.checkedAdd key).map fun o => (.added o.result, o.state)
  | .get key => some (.code (x.get key), x)
  | .getOrAdd key => (x.checkedGetOrAdd key).map fun o => (.added o.result, o.state)
  | .getOrAddAll keys => (x.checkedGetOrAddAll keys).map fun o => (.batch o.result, o.state)
  | .setHash keys => (x.checkedSetHash keys).map fun o => (.hashed o.result, o.state)
  | .useExactMap => some (.done, x.useExactMap)
  | .close => some (.done, x.close.state)

def checkedRun (x : ClassIndex κ) : List (Op κ) → Checked (List Answer × ClassIndex κ)
  | [] => some ([], x)
  | op :: ops => do
    let (answer, x) ← x.checkedStep op
    let (answers, x) ← x.checkedRun ops
    return (answer :: answers, x)

theorem checkedMark_eq {seen : BitSet} {codes : List UInt32}
    (h : ∀ code ∈ codes, code.toNat < seen.length) :
    checkedMark seen codes = some (mark seen codes) := by
  induction codes generalizing seen with
  | nil => rfl
  | cons code codes ih =>
    obtain ⟨hcode, hcodes⟩ := List.forall_mem_cons.1 h
    unfold checkedMark mark
    simp only [BitSet.checkedPut, hcode, if_true, BitSet.put]
    cases seen.contains code.toNat with
    | true => rfl
    | false => exact ih fun c hc => (BitSet.length_insert ..).symm ▸ hcodes c hc

variable {x : ClassIndex κ} {r : Numbering κ} {key : κ} {hashBits : Nat} {forced : Prop}

theorem Flagged.checkedNextCode_eq (h : x.Flagged r hashBits forced)
    (hlt : r.keys.length + 1 < UInt32.size) : x.checkedNextCode = some (x.counter + 1) := by
  have hcounter : x.counter.toNat = r.keys.length := by
    rw [h.counter]
    exact UInt32.toNat_ofNat_of_lt' (Nat.lt_of_succ_lt hlt)
  have hbelow : x.counter.toNat < UInt32.size - 1 := by omega
  rw [checkedNextCode, raise, if_pos hbelow, h.counter_add_one, hcounter]
  rfl

theorem Flagged.checkedAdd_eq (h : x.Flagged r hashBits forced) (key : κ)
    (hlt : (r.add key).2.keys.length < UInt32.size) : x.checkedAdd key = some (x.add key) := by
  unfold checkedAdd ClassIndex.add
  split
  · rfl
  · rename_i ho
    replace ho : x.closed = false := by simpa using ho
    cases hk : x.codes.get? key with
    | some code => rfl
    | none =>
      have hlen : r.keys.length + 1 < UInt32.size := by
        rw [h.codes] at hk
        rw [Numbering.add, if_neg (by simp [← h.closed, ho]), hk] at hlt
        simpa [Numbering.push] using hlt
      have hslot : x.slotOf key < x.raw.size := h.size ho ▸ x.slotOf_lt key
      have hcode : x.raw.code? (x.slotOf key) = some (x.raw.slots.getD (x.slotOf key) 0) :=
        if_pos hslot
      by_cases he : x.exact = true
      · simp [h.checkedNextCode_eq hlen, he]
      · by_cases hzero : x.raw.slots.getD (x.slotOf key) 0 = 0
        · simp [h.checkedNextCode_eq hlen, he, hcode, hzero, RawTable.checkedRecord_eq hslot]
        · simp [h.checkedNextCode_eq hlen, he, hcode, hzero]

theorem Flagged.checkedGetOrAdd_eq (h : x.Flagged r hashBits forced) (key : κ)
    (hlt : (r.add key).2.keys.length < UInt32.size) :
    x.checkedGetOrAdd key = some (x.getOrAdd key) := by
  by_cases hc : x.get key = 0
  · rw [checkedGetOrAdd, if_pos hc, h.checkedAdd_eq key hlt, ClassIndex.getOrAdd, hc]
    rfl
  · rw [checkedGetOrAdd, if_neg hc, ClassIndex.getOrAdd]
    split
    · contradiction
    · rfl

variable [EquivBEq κ] [LawfulHashable κ]

theorem Flagged.checkedGetOrAddAll_eq (h : x.Flagged r hashBits forced) (keys : List κ)
    (hlt : (r.getOrAddAll keys).2.keys.length < UInt32.size) :
    x.checkedGetOrAddAll keys = some (x.getOrAddAll keys) := by
  induction keys generalizing x r with
  | nil => rfl
  | cons key keys ih =>
    rw [Numbering.getOrAddAll, Numbering.getOrAdd_eq_add] at hlt
    rw [checkedGetOrAddAll, ClassIndex.getOrAddAll]
    obtain ⟨hresult, hstate⟩ := h.add key
    have hadd := h.checkedGetOrAdd_eq key
    rw [h.getOrAdd_eq] at hadd ⊢
    generalize r.add key = p at hlt hresult hstate hadd
    generalize x.add key = o at hresult hstate hadd
    obtain ⟨result, s⟩ := p
    obtain ⟨y, result', log⟩ := o
    obtain rfl : result' = result := hresult
    cases result' with
    | error e =>
      rw [hadd hlt]
      rfl
    | ok code =>
      have hle := (s.keys_prefix_getOrAddAll keys).length_le
      rw [hadd (Nat.lt_of_le_of_lt hle hlt)]
      simp [ih hstate hlt]

theorem Flagged.checkedSetHash_eq (h : x.Flagged r hashBits forced) (keys : List κ)
    (hlt : (r.setHash keys).2.keys.length < UInt32.size) :
    x.checkedSetHash keys = some (x.setHash keys) := by
  unfold checkedSetHash ClassIndex.setHash
  rw [h.checkedGetOrAddAll_eq keys hlt]
  obtain ⟨y, result, log⟩ := x.getOrAddAll keys
  cases result with
  | error e => rfl
  | ok codes =>
    have hcodes : ∀ code ∈ codes,
        code.toNat < (BitSet.ofLength ((codes.foldl max 0).toNat + 1)).length := fun code hc => by
      rw [BitSet.length_ofLength]
      exact Nat.lt_succ_of_le ((toNat_le_foldl_max codes 0).2 code hc)
    simp [checkedMark_eq hcodes, Outcome.map, Except.bind]

theorem Flagged.checkedStep_eq (h : x.Flagged r hashBits forced) (op : Op κ)
    (hlt : (r.step op).2.keys.length < UInt32.size) : x.checkedStep op = some (x.step op) := by
  cases op with
  | add key => exact congrArg (Option.map _) (h.checkedAdd_eq key hlt)
  | getOrAdd key =>
    refine congrArg (Option.map _) (h.checkedGetOrAdd_eq key ?_)
    rwa [← Numbering.getOrAdd_eq_add]
  | getOrAddAll keys => exact congrArg (Option.map _) (h.checkedGetOrAddAll_eq keys hlt)
  | setHash keys => exact congrArg (Option.map _) (h.checkedSetHash_eq keys hlt)
  | get key => rfl
  | useExactMap => rfl
  | close => rfl

theorem Flagged.checkedRun_eq (h : x.Flagged r hashBits forced) (ops : List (Op κ))
    (hlt : (r.run ops).2.keys.length < UInt32.size) : x.checkedRun ops = some (x.run ops) := by
  induction ops generalizing x r forced with
  | nil => rfl
  | cons op ops ih =>
    have hle := ((r.step op).2.keys_prefix_run ops).length_le
    rw [checkedRun, h.checkedStep_eq op (Nat.lt_of_le_of_lt hle hlt)]
    simp only [Option.bind_eq_bind, Option.bind_some, ih (h.step op) hlt]
    rfl

end ClassIndex

namespace Layout
variable {κ : Type} [BEq κ]

def checkedCreate [Hashable κ] (x : ClassIndex κ) (types : List κ) :
    Checked (Outcome (ClassIndex κ) (Except IndexError (Layout κ))) :=
  (x.checkedGetOrAddAll types).map fun _ => Layout.create x types

def checkedCodeOf (l : Layout κ) (type : κ) : Checked (Option UInt32) :=
  match l.offsetOf? type with
  | none => some none
  | some i => if i < l.codes.length then some l.codes[i]? else none

theorem checkedCreate_eq [Hashable κ] [EquivBEq κ] [LawfulHashable κ] {x : ClassIndex κ}
    {r : Numbering κ} {hashBits : Nat} {forced : Prop} (h : x.Flagged r hashBits forced)
    (types : List κ) (hlt : (r.getOrAddAll types).2.keys.length < UInt32.size) :
    checkedCreate x types = some (Layout.create x types) := by
  rw [checkedCreate, h.checkedGetOrAddAll_eq types hlt]
  rfl

theorem checkedCodeOf_eq [Hashable κ] {x : ClassIndex κ} {types : List κ} {l : Layout κ}
    (hl : (Layout.create x types).result = .ok l) (type : κ) :
    l.checkedCodeOf type = some (l.codeOf? type) := by
  have hlen : l.codes.length = l.types.length := by
    unfold Layout.create Outcome.map at hl
    cases hx : (x.getOrAddAll types).result with
    | error e => simp [hx, Except.bind] at hl
    | ok codes =>
      simp only [hx, Except.bind] at hl
      split at hl
      · cases hl
      · cases hl
        simp only [List.length_map]
  unfold checkedCodeOf codeOf?
  cases hi : l.offsetOf? type with
  | none => rfl
  | some i =>
    have hlt : i < l.codes.length := hlen ▸ (List.findIdx?_eq_some_iff_getElem.1 hi).1
    exact if_pos hlt

end Layout
end EntityStore
