import EntityStore.Proofs.Config.Spelling

/-! Names are normalized once and for all, and those that come to nothing are told apart by numbers.
A number is taken for each text without an allowed character and for no other, so that the numbers
say in which order these texts came. -/

namespace EntityStore.Name
open Lowercase
variable {supply : Supply} {given other : String} {calls : List String} {cs : List Char}
variable {j k n : Nat}

def numbered (n : Nat) : String := "pool-" ++ toString n

/-- The name made of some characters, or a numbered one if there are none. -/
def Supply.nameOf (supply : Supply) : List Char → String × Supply
  | [] => (numbered supply.next.toNat, ⟨supply.next + 1⟩)
  | cs => (String.ofList cs, supply)

/-- Whether nothing of a text can stand in a name. -/
def isMute (given : String) : Bool := (spelled given.toList).isEmpty

/-- The names for some texts, one after the other, and the numbers that are left. -/
def names (supply : Supply) : List String → List String × Supply
  | [] => ([], supply)
  | given :: calls =>
    let (name, supply) := normalize supply given
    let (rest, supply) := names supply calls
    (name :: rest, supply)

/-! ### One name -/

theorem nameOf_of_ne_nil (h : cs ≠ []) : supply.nameOf cs = (String.ofList cs, supply) := by
  cases cs with
  | nil => exact absurd rfl h
  | cons c cs => rfl

theorem normalize_eq_nameOf (supply : Supply) (given : String) :
    normalize supply given = supply.nameOf (letters given.toList) := by
  by_cases h : letters given.toList = []
  · rw [normalize_of_letters_eq_nil h, h]
    rfl
  · rw [normalize_of_letters_ne_nil h, nameOf_of_ne_nil h]

theorem isMute_iff : isMute given = true ↔ letters given.toList = [] := by
  rw [isMute, List.isEmpty_iff, letters_eq, List.take_eq_nil_iff]
  exact (or_iff_right (by decide)).symm

theorem letters_ne_nil (h : isMute given = false) : letters given.toList ≠ [] := by
  intro hnil
  rw [isMute_iff.2 hnil] at h
  cases h

theorem normalize_of_isMute (h : isMute given = true) (supply : Supply) :
    normalize supply given = (numbered supply.next.toNat, ⟨supply.next + 1⟩) := by
  rw [normalize_eq_nameOf, isMute_iff.1 h]
  rfl

theorem normalize_of_not_isMute (h : isMute given = false) (supply : Supply) :
    normalize supply given = (String.ofList ((spelled given.toList).take maxLength), supply) := by
  rw [normalize_eq_nameOf, nameOf_of_ne_nil (letters_ne_nil h), letters_eq]

theorem toList_numbered (n : Nat) :
    (numbered n).toList = ['p', 'o', 'o', 'l', '-'] ++ Nat.toDigits 10 n := by
  rw [numbered, String.toList_append, Nat.toString_eq_repr, Nat.toList_repr]
  rfl

theorem length_numbered_le (hn : n < UInt32.size) : (numbered n).length ≤ 15 := by
  have hdigits : (Nat.toDigits 10 n).length ≤ 10 := by
    rw [Nat.length_toDigits_le_iff (by decide) (by decide)]
    exact Nat.lt_trans hn (by decide)
  rw [← String.length_toList, toList_numbered, List.length_append]
  exact Nat.add_le_add_left hdigits 5

theorem numbered_ne_empty (n : Nat) : numbered n ≠ "" := by
  intro h
  have hlist := toList_numbered n
  rw [h] at hlist
  cases hlist

theorem numbered_injective {m : Nat} (h : numbered m = numbered n) : m = n := by
  rw [← String.toList_inj, toList_numbered, toList_numbered, List.append_cancel_left_eq] at h
  have hvalue := congrArg (fun digits => Nat.ofDigitChars 10 digits 0) h
  rwa [Nat.ofDigitChars_toDigits (by decide) (by decide),
    Nat.ofDigitChars_toDigits (by decide) (by decide)] at hvalue

theorem length_normalize_le (supply : Supply) (given : String) :
    (normalize supply given).1.length ≤ maxLength := by
  cases h : isMute given with
  | true =>
    rw [normalize_of_isMute h]
    exact Nat.le_trans (length_numbered_le supply.next.toNat_lt_size) (by decide)
  | false =>
    rw [normalize_of_not_isMute h, String.length_ofList]
    exact List.length_take_le _ _

theorem normalize_ne_empty (supply : Supply) (given : String) :
    (normalize supply given).1 ≠ "" := by
  cases h : isMute given with
  | true =>
    rw [normalize_of_isMute h]
    exact numbered_ne_empty _
  | false =>
    have hne := letters_ne_nil h
    rw [normalize_of_letters_ne_nil hne]
    intro hempty
    exact hne (String.ofList_injective hempty)

theorem normalize_congr (h : given.toList.filterMap fold = other.toList.filterMap fold)
    (supply : Supply) : normalize supply given = normalize supply other := by
  rw [normalize_eq_nameOf, normalize_eq_nameOf, letters, letters, h]

theorem normalize_of_isAllowed (hne : given ≠ "")
    (hallowed : ∀ c ∈ given.toList, isAllowed c = true) (hlength : given.length ≤ maxLength)
    (supply : Supply) :
    normalize supply given = (given, supply) := by
  have hletters : letters given.toList = given.toList :=
    letters_of_isAllowed hallowed (String.length_toList ▸ hlength)
  have hnil : given.toList ≠ [] := by
    intro hnil
    exact hne (String.toList_inj.1 hnil)
  rw [normalize_eq_nameOf, hletters, nameOf_of_ne_nil hnil, String.ofList_toList]

/-- What a name is. It is made of allowed characters, the first of those that the text has in lower
case, whatever else stands in the text; only a text without any takes a number. -/
structure Normalizes (supply : Supply) (given : String) : Prop where
  ne_empty : (normalize supply given).1 ≠ ""
  length_le : (normalize supply given).1.length ≤ maxLength
  allowed : ∀ c ∈ (normalize supply given).1.toList, isAllowed c = true
  reads : ∀ ends, normalize supply given = supply.nameOf (reading ends given.toList)
  own : spelled given.toList ≠ [] →
    normalize supply given = (String.ofList ((spelled given.toList).take maxLength), supply)
  takes : spelled given.toList = [] →
    normalize supply given = (numbered supply.next.toNat, ⟨supply.next + 1⟩)
  padded : ∀ lead trail : List Char, (∀ c ∈ lead ++ trail, Blank.isBlank c = true) →
    normalize supply (String.ofList (lead ++ given.toList ++ trail)) = normalize supply given
  inserted : ∀ pre mid post : List Char, given.toList = pre ++ post →
    (∀ c ∈ mid, ∀ d ∈ ofChar c, isAllowed d = false) →
    normalize supply (String.ofList (pre ++ mid ++ post)) = normalize supply given
  again : ∀ other, normalize other (normalize supply given).1 = ((normalize supply given).1, other)

theorem normalizes (supply : Supply) (given : String) : Normalizes supply given where
  ne_empty := normalize_ne_empty supply given
  length_le := length_normalize_le supply given
  allowed _ := isAllowed_of_mem_normalize supply given
  reads ends := by rw [reading_eq, normalize_eq_nameOf]
  own h := normalize_of_not_isMute (List.isEmpty_eq_false_iff.2 h) supply
  takes h := normalize_of_isMute (List.isEmpty_iff.2 h) supply
  padded lead trail h := by
    apply normalize_congr
    obtain ⟨hlead, htrail⟩ := List.forall_mem_append.1 h
    rw [String.toList_ofList, List.filterMap_append, List.filterMap_append,
      filterMap_fold_of_blank hlead, filterMap_fold_of_blank htrail, List.nil_append,
      List.append_nil]
  inserted pre mid post hgiven hmid := by
    apply normalize_congr
    have hnone : mid.filterMap fold = [] := by
      rw [List.filterMap_eq_nil_iff]
      intro c hc
      exact fold_eq_none_iff.2 (hmid c hc)
    rw [String.toList_ofList, hgiven, List.filterMap_append, List.filterMap_append, hnone,
      List.append_nil, List.filterMap_append]
  again := normalize_of_isAllowed (normalize_ne_empty supply given)
    (fun _ => isAllowed_of_mem_normalize supply given) (length_normalize_le supply given)

/-! ### Names one after the other -/

theorem supply_names (supply : Supply) (calls : List String) :
    (names supply calls).2 = ⟨supply.next + .ofNat (calls.countP isMute)⟩ := by
  induction calls generalizing supply with
  | nil =>
    show supply = ⟨supply.next + 0⟩
    rw [UInt32.add_zero]
  | cons given calls ih =>
    show (names (normalize supply given).2 calls).2 = _
    rw [ih, List.countP_cons]
    cases h : isMute given with
    | true =>
      rw [normalize_of_isMute h, if_pos rfl, UInt32.ofNat_add, UInt32.add_assoc]
      congr 2
      exact UInt32.add_comm _ _
    | false =>
      rw [normalize_of_not_isMute h, if_neg Bool.false_ne_true]
      rfl

theorem getElem?_names (supply : Supply) (calls : List String) (k : Nat) :
    (names supply calls).1[k]? =
      calls[k]?.map fun given => (normalize (names supply (calls.take k)).2 given).1 := by
  induction calls generalizing supply k with
  | nil => rfl
  | cons given calls ih =>
    cases k with
    | zero => rfl
    | succ k => exact ih (normalize supply given).2 k

theorem countP_take_lt (hj : calls[j]? = some given) (hmute : isMute given = true) (hjk : j < k) :
    (calls.take j).countP isMute < (calls.take k).countP isMute := by
  have hsucc : (calls.take (j + 1)).countP isMute = (calls.take j).countP isMute + 1 := by
    rw [List.take_add_one, hj, Option.toList_some, List.countP_append, List.countP_singleton,
      if_pos hmute]
  have hprefix : (calls.take (j + 1)).countP isMute ≤ (calls.take k).countP isMute :=
    (List.take_prefix_take_left hjk).sublist.countP_le
  rw [hsucc] at hprefix
  exact hprefix

/-- The numbered names are those of the mute texts, in the order of the calls. -/
structure Numbers (calls : List String) : Prop where
  name : ∀ (k : Nat) (given : String), calls[k]? = some given → (names {} calls).1[k]? = some
    (if isMute given then numbered ((calls.take k).countP isMute + 1)
      else String.ofList ((spelled given.toList).take maxLength))
  supply : ∀ k, (names {} (calls.take k)).2 = ⟨.ofNat ((calls.take k).countP isMute + 1)⟩
  distinct : ∀ (j k : Nat) (given other : String), calls[j]? = some given → calls[k]? = some other →
    isMute given = true → isMute other = true →
    (names {} calls).1[j]? = (names {} calls).1[k]? → j = k

theorem supply_names_take (calls : List String) (k : Nat) :
    (names {} (calls.take k)).2 = ⟨.ofNat ((calls.take k).countP isMute + 1)⟩ := by
  rw [supply_names, UInt32.ofNat_add, UInt32.add_comm]
  rfl

theorem getElem?_names_of_isMute (h : calls.countP isMute < UInt32.size)
    (hk : calls[k]? = some given) (hmute : isMute given = true) :
    (names {} calls).1[k]? = some (numbered ((calls.take k).countP isMute + 1)) := by
  have hlt := countP_take_lt hk hmute (List.getElem?_eq_some_iff.1 hk).1
  rw [List.take_length] at hlt
  rw [getElem?_names, hk, Option.map_some, normalize_of_isMute hmute, supply_names_take,
    UInt32.toNat_ofNat_of_lt' (Nat.lt_of_le_of_lt hlt h)]

theorem numbers (h : calls.countP isMute < UInt32.size) : Numbers calls where
  name k given hk := by
    cases hmute : isMute given with
    | true =>
      rw [if_pos rfl]
      exact getElem?_names_of_isMute h hk hmute
    | false =>
      rw [getElem?_names, hk, Option.map_some, normalize_of_not_isMute hmute,
        if_neg Bool.false_ne_true]
  supply := supply_names_take calls
  distinct j k given other hj hk hgiven hother heq := by
    rw [getElem?_names_of_isMute h hj hgiven, getElem?_names_of_isMute h hk hother] at heq
    have hcount := Nat.succ.inj (numbered_injective (Option.some.inj heq))
    rcases Nat.lt_trichotomy j k with hlt | hjk | hlt
    · exact absurd hcount (Nat.ne_of_lt (countP_take_lt hj hgiven hlt))
    · exact hjk
    · exact absurd hcount.symm (Nat.ne_of_lt (countP_take_lt hk hother hlt))

/-- Every text has a name that depends on nothing but its own allowed characters, and as long as
there are numbers the texts without any get different ones. -/
theorem normalizes_of_calls (h : calls.countP isMute < UInt32.size) :
    (∀ supply given, Normalizes supply given) ∧ Numbers calls :=
  ⟨normalizes, numbers h⟩

/-- The Kelvin sign and the dotted capital I leave letters behind, and a sigma does not. A text that
looks like a numbered name takes no number. -/
theorem normalizes_of_calls_kelvin :
    let calls := ["\u3000\u212AELV\u0130N ", "\u03A3?", "", "pool-1"]
    calls.countP isMute < UInt32.size ∧
      (names {} calls).1 = ["kelvin", "pool-1", "pool-2", "pool-1"] ∧
      (∀ supply given, Normalizes supply given) ∧ Numbers calls := by
  intro calls
  have hcount : calls.countP isMute < UInt32.size := by decide +kernel
  have hnames : (names {} calls).1 = ["kelvin", "pool-1", "pool-2", "pool-1"] := by decide +kernel
  exact ⟨hcount, hnames, normalizes_of_calls hcount⟩

end EntityStore.Name
