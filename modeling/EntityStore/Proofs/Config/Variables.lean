import EntityStore.Config.Basic
import EntityStore.Proofs.Config.Name

/-! The names of variables. A variable tells the setting that it is of by its last characters, and
one of a repository is longer than the shared one. So no two of them are confused, except those of
names that differ in their separators only. -/

namespace EntityStore

namespace Name

/-- One separator for all three. -/
def joinedChar (c : Char) : Char := if c = '-' ∨ c = '.' then '_' else c

def joined (name : String) : String := String.ofList (name.toList.map joinedChar)

theorem toLower_toUpper_joinedChar {c : Char} (h : isAllowed c = true) :
    (joinedChar c).toUpper.toLower = joinedChar c :=
  of_ascii (p := fun c => isAllowed c = true → (joinedChar c).toUpper.toLower = joinedChar c)
    (by decide) (toNat_lt_of_isAllowed h) h

end Name

namespace Setting

/-- The last characters of each variable of a setting. -/
def ending : Setting → String
  | chunkBit => "_CHUNK_BIT"
  | classIndexBit => "_INDEX_BIT"

variable {s t : Setting} {name other : String}

theorem ending_suffix_key (s : Setting) : s.ending.toList <:+ "_".toList ++ s.key.toList := by
  cases s with
  | chunkBit => exact ⟨[], rfl⟩
  | classIndexBit => exact ⟨"_CLASS".toList, rfl⟩

theorem ending_suffix_scopedVariable (s : Setting) (name : String) :
    s.ending.toList <:+ (s.scopedVariable name).toList := by
  rw [scopedVariable, String.append_assoc, String.toList_append, String.toList_append (s := "_")]
  exact s.ending_suffix_key.trans (List.suffix_append ..)

theorem ending_suffix_sharedVariable (s : Setting) :
    s.ending.toList <:+ s.sharedVariable.toList := by
  have hsplit : s.sharedVariable.toList = "RUSTY_POOL".toList ++ ("_".toList ++ s.key.toList) :=
    String.toList_append
  rw [hsplit]
  exact s.ending_suffix_key.trans (List.suffix_append ..)

theorem eq_of_ending_suffix {var : List Char} (hs : s.ending.toList <:+ var)
    (ht : t.ending.toList <:+ var) : s = t := by
  have hlength (s : Setting) : s.ending.toList.length = 10 := by cases s <;> rfl
  have hle : s.ending.toList.length ≤ t.ending.toList.length :=
    Nat.le_of_eq ((hlength s).trans (hlength t).symm)
  have heq := (List.suffix_of_suffix_length_le hs ht hle).eq_of_length (by rw [hlength, hlength])
  revert heq
  cases s <;> cases t <;> decide

theorem scopedVariable_ne_sharedVariable (s t : Setting) (name : String) :
    s.scopedVariable name ≠ t.sharedVariable := by
  intro h
  obtain rfl : s = t := by
    refine eq_of_ending_suffix (s.ending_suffix_scopedVariable name) ?_
    rw [h]
    exact t.ending_suffix_sharedVariable
  have hlength := congrArg String.length h
  simp only [scopedVariable, sharedVariable, String.length_append] at hlength
  have hone : "_".length = 1 := rfl
  omega

theorem eq_of_scopedVariable_eq (h : s.scopedVariable name = t.scopedVariable other) : s = t := by
  refine eq_of_ending_suffix (s.ending_suffix_scopedVariable name) ?_
  rw [h]
  exact t.ending_suffix_scopedVariable other

theorem scopedVariable_eq_iff :
    s.scopedVariable name = s.scopedVariable other ↔ scope name = scope other := by
  simp only [scopedVariable, ← String.toList_inj, String.toList_append, List.append_cancel_right_eq,
    List.append_cancel_left_eq]

theorem toList_scope (name : String) :
    (scope name).toList = (Name.joined name).toList.map Char.toUpper := by
  rw [scope, Name.joined, String.toList_ofList, String.toList_ofList, List.map_map]
  refine List.map_congr_left fun c _ => ?_
  rw [Function.comp_apply, Name.joinedChar]
  split <;> rfl

theorem scopedVariable_eq (s : Setting) (name : String) : s.scopedVariable name =
    "RUSTY_POOL_" ++ String.ofList ((Name.joined name).toList.map Char.toUpper) ++
      "_" ++ s.key := by
  rw [scopedVariable, ← toList_scope, String.ofList_toList]

theorem toList_joined (h : ∀ c ∈ name.toList, Name.isAllowed c = true) :
    (Name.joined name).toList = (scope name).toList.map Char.toLower := by
  rw [toList_scope, Name.joined, String.toList_ofList, List.map_map, List.map_map]
  exact List.map_congr_left fun c hc => (Name.toLower_toUpper_joinedChar (h c hc)).symm

theorem scope_eq_iff (hname : ∀ c ∈ name.toList, Name.isAllowed c = true)
    (hother : ∀ c ∈ other.toList, Name.isAllowed c = true) :
    scope name = scope other ↔ Name.joined name = Name.joined other := by
  constructor <;> intro h <;> rw [← String.toList_inj]
  · rw [toList_joined hname, toList_joined hother, h]
  · rw [toList_scope, toList_scope, h]

/-- No variable of a name is shared or one of another setting, and two names have one variable for a
setting exactly if they differ in their separators only. -/
structure Apart (name other : String) : Prop where
  shared : ∀ s t : Setting, s.scopedVariable name ≠ t.sharedVariable
  settings : ∀ s t : Setting, s ≠ t → s.scopedVariable name ≠ t.scopedVariable other
  names : ∀ s : Setting, s.scopedVariable name = s.scopedVariable other ↔
    Name.joined name = Name.joined other

theorem apart_normalize (supply supply' : Name.Supply) (given other : String) :
    Apart (Name.normalize supply given).1 (Name.normalize supply' other).1 where
  shared s t := s.scopedVariable_ne_sharedVariable t _
  settings _ _ hst heq := hst (eq_of_scopedVariable_eq heq)
  names _ := scopedVariable_eq_iff.trans
    (scope_eq_iff (fun _ hc => Name.isAllowed_of_mem_normalize supply given hc)
      fun _ hc => Name.isAllowed_of_mem_normalize supply' other hc)

end Setting
end EntityStore
