import EntityStore.Proofs.ClassIndex.Extension
import EntityStore.Proofs.IntMap
import Mathlib.Data.List.Induction

/-! The canonical hash as a function of a set of keys. The order of a list decides which new key
gets which code, but not which codes its new keys get: these are the next numbers. -/

namespace EntityStore

theorem IntMap.hash_eq {α : Type} {τ : Type → Type} [CodeTable τ] [LawfulCodeTable τ]
    {m : IntMap α τ} {codes : List UInt32} (h : codes.Nodup)
    (hm : ∀ code, m.contains code = true ↔ code ∈ codes) :
    m.hash = canonicalHash (sortCodes codes) := by
  have hkeys : m.keys.Perm codes := by
    refine (List.perm_ext_iff_of_nodup m.nodup_keys h).2 fun code => ?_
    rw [m.mem_keys, ← m.contains_iff, hm]
  exact congrArg canonicalHash (eq_sortCodes hkeys (m.pairwise_keys.imp UInt32.le_of_lt))

namespace Numbering
variable {κ : Type} [BEq κ] {r : Numbering κ} {pre keys keys' : List κ} {key : κ}

def knows (r : Numbering κ) (key : κ) : Bool := (r.code? key).isSome

/-- The codes of the keys that have one, and then as many next numbers as there are new keys. -/
def codesAfter (r : Numbering κ) (keys : List κ) : List UInt32 :=
  (keys.filter r.knows).map r.get ++
    (List.range' (r.keys.length + 1) (keys.countP fun key => !r.knows key)).map .ofNat

theorem codesAfter_perm (h : keys'.Perm keys) : (r.codesAfter keys').Perm (r.codesAfter keys) := by
  unfold codesAfter
  rw [h.countP_eq]
  exact ((h.filter _).map _).append_right _

theorem firstRepeated?_append {seen pre : List UInt32} {code : UInt32} (post : List UInt32)
    (hpre : firstRepeated? seen pre = none) (hcode : code ∈ seen ∨ code ∈ pre) :
    firstRepeated? seen (pre ++ code :: post) = some code := by
  induction pre generalizing seen with
  | nil =>
    have hmem : code ∈ seen := hcode.resolve_right List.not_mem_nil
    rw [List.nil_append, firstRepeated?, if_pos hmem]
  | cons c pre ih =>
    unfold firstRepeated? at hpre
    split at hpre
    · cases hpre
    · rename_i hc
      rw [List.cons_append, firstRepeated?, if_neg hc]
      refine ih hpre ?_
      rw [List.mem_cons] at hcode ⊢
      tauto

theorem code?_push_of_ne [EquivBEq κ] (ho : r.closed = false) (hnew : r.code? key = none) {k : κ}
    (hk : (k == key) = false) : (r.push key).code? k = r.code? k := by
  rw [code?_push ho hnew, if_neg (by simp [hk])]

theorem Distinct.perm [EquivBEq κ] (hd : Distinct keys) (h : keys'.Perm keys) : Distinct keys' := by
  refine (h.pairwise_iff fun {a b} hab => ?_).2 hd
  rwa [BEq.comm]

theorem exists_split_of_not_distinct (hd : ¬ Distinct keys) :
    ∃ pre key post, keys = pre ++ key :: post ∧ Distinct pre ∧ ∃ k ∈ pre, (k == key) = true := by
  induction keys using List.reverseRecOn with
  | nil => exact absurd .nil hd
  | append_singleton keys last ih =>
    by_cases hkeys : Distinct keys
    · by_contra hnone
      refine hd (List.pairwise_append.2 ⟨hkeys, List.pairwise_singleton _ _, fun k hk l hl => ?_⟩)
      rw [List.mem_singleton.1 hl, ← Bool.not_eq_true]
      exact fun heq => hnone ⟨keys, last, [], rfl, hkeys, k, hk, heq⟩
    · obtain ⟨pre, key, post, rfl, hrest⟩ := ih hkeys
      exact ⟨pre, key, post ++ [last], by simp, hrest⟩

section
variable [EquivBEq κ]

theorem codes_of_distinct (ho : r.closed = false) (hd : Distinct keys) :
    (keys.map (r.learnAll keys).get).Perm (r.codesAfter keys) ∧
      (r.learnAll keys).keys.length = r.keys.length + keys.countP fun key => !r.knows key := by
  induction keys generalizing r with
  | nil => exact ⟨.nil, rfl⟩
  | cons key keys ih =>
    obtain ⟨hkey, hrest⟩ := List.pairwise_cons.1 hd
    have ho' : (r.learn key).closed = false := (r.closed_learn key).trans ho
    obtain ⟨hperm, hlen⟩ := ih ho' hrest
    obtain ⟨code, -, hcode⟩ := add_spec ho key
    have hget : (r.learnAll (key :: keys)).get key = (r.learn key).get key :=
      ((extends_learnAll ho' keys).get_eq ⟨code, hcode⟩).symm
    rw [List.map_cons, hget]
    show (_ :: keys.map ((r.learn key).learnAll keys).get).Perm _ ∧
      ((r.learn key).learnAll keys).keys.length = _
    rw [hlen]
    cases hc : r.code? key with
    | some c =>
      rw [learn_of_code? hc] at hperm ⊢
      have hknows : r.knows key = true := by simp [knows, hc]
      have hcodes : r.codesAfter (key :: keys) = r.get key :: r.codesAfter keys := by
        simp [codesAfter, hknows]
      rw [hcodes]
      exact ⟨hperm.cons _, by simp [hknows]⟩
    | none =>
      rw [learn_of_new hc] at hperm ⊢
      have hknows : r.knows key = false := by simp [knows, hc]
      have hother {k : κ} (hk : k ∈ keys) : (r.push key).code? k = r.code? k :=
        code?_push_of_ne ho hc (by rw [BEq.comm]; exact hkey k hk)
      have hfilter : keys.filter (r.push key).knows = keys.filter r.knows :=
        List.filter_congr fun k hk => congrArg Option.isSome (hother hk)
      have hcount :
          (keys.countP fun k => !(r.push key).knows k) = keys.countP fun k => !r.knows k :=
        List.countP_congr fun k hk => by simp [knows, hother hk]
      have hmap : (keys.filter r.knows).map (r.push key).get = (keys.filter r.knows).map r.get :=
        List.map_congr_left fun k hk =>
          congrArg (Option.getD · 0) (hother (List.mem_of_mem_filter hk))
      have hnew : (r.push key).get key = .ofNat (r.keys.length + 1) := by
        rw [get, code?_push ho hc, if_pos BEq.rfl]
        rfl
      have hsize : (r.push key).keys.length = r.keys.length + 1 := by simp [push]
      have hcodes : r.codesAfter (key :: keys) = (keys.filter r.knows).map r.get ++
          (r.push key).get key :: (List.range' (r.keys.length + 2)
            (keys.countP fun k => !r.knows k)).map .ofNat := by
        simp [codesAfter, hknows, hnew, List.range'_succ]
      have hrest : (r.push key).codesAfter keys = (keys.filter r.knows).map r.get ++
          (List.range' (r.keys.length + 2) (keys.countP fun k => !r.knows k)).map .ofNat := by
        rw [codesAfter, hfilter, hmap, hcount, hsize]
      rw [hcodes, hcount, hsize]
      rw [hrest] at hperm
      refine ⟨(hperm.cons _).trans List.perm_middle.symm, ?_⟩
      simp only [List.countP_cons, hknows]
      simp only [Bool.not_false, if_true]
      omega

theorem setHash_of_distinct (ho : r.closed = false) (hd : Distinct keys)
    (hlt : (r.learnAll keys).keys.length < UInt32.size) :
    r.setHash keys =
      (.ok (canonicalHash (sortCodes (keys.map (r.learnAll keys).get))), r.learnAll keys) := by
  have hnodup := (nodup_map_get_iff hlt fun _ hk => known_of_mem ho hk).2 hd
  have hnone := (firstRepeated?_eq_none_iff [] _).2 ⟨hnodup, by simp⟩
  unfold setHash
  rw [getOrAddAll_eq ho]
  simp only [Except.bind, hnone]

/-- Distinct keys hash to one value in any order, also where the order decides on their codes. -/
theorem setHash_of_perm (ho : r.closed = false) (hd : Distinct keys)
    (hlt : (r.learnAll keys).keys.length < UInt32.size) (hp : keys'.Perm keys) :
    r.setHash keys' =
      (.ok (canonicalHash (sortCodes (keys.map (r.learnAll keys).get))), r.learnAll keys') := by
  obtain ⟨hperm, hlen⟩ := codes_of_distinct ho hd
  obtain ⟨hperm', hlen'⟩ := codes_of_distinct ho (hd.perm hp)
  have hlt' : (r.learnAll keys').keys.length < UInt32.size := by
    rw [hlen', hp.countP_eq, ← hlen]
    exact hlt
  have hsame : (keys'.map (r.learnAll keys').get).Perm (keys.map (r.learnAll keys).get) :=
    (hperm'.trans (codesAfter_perm hp)).trans hperm.symm
  rw [setHash_of_distinct ho (hd.perm hp) hlt', sortCodes_congr hsame]

theorem setHash_of_run {ops : List (ClassIndex.Op κ)} (ho : (r.run ops).2.closed = false)
    (hd : Distinct keys) (hlt : (r.run ops).2.keys.length < UInt32.size)
    (hknown : ∀ key ∈ keys, ∃ code, r.code? key = some code) (hp : keys'.Perm keys) :
    (r.run ops).2.setHash keys' =
      (.ok (canonicalHash (sortCodes (keys.map r.get))), (r.run ops).2) := by
  obtain ⟨-, hext⟩ := extends_run ho
  have hkept : keys.map (r.run ops).2.get = keys.map r.get :=
    List.map_congr_left fun key hk => (hext.get_eq (hknown key hk)).symm
  generalize (r.run ops).2 = s at ho hlt hext hkept ⊢
  have hsame (list : List κ) (hsub : list ⊆ keys) : s.learnAll list = s := by
    have hall := getOrAddAll_of_known fun key hk => (hknown key (hsub hk)).imp fun _ hc => hext hc
    exact congrArg Prod.snd ((getOrAddAll_eq ho list).symm.trans hall)
  have hkeys := hsame keys (List.Subset.refl _)
  rw [setHash_of_perm ho hd (by rwa [hkeys]) hp, hkeys, hsame keys' hp.subset, hkept]

theorem setHash_of_repeated (ho : r.closed = false) (hd : Distinct pre)
    (hkey : ∃ k ∈ pre, (k == key) = true) (post : List κ)
    (hlt : (r.learnAll (pre ++ key :: post)).keys.length < UInt32.size) :
    r.setHash (pre ++ key :: post) =
      (.error (.duplicateType ((r.learnAll (pre ++ key :: post)).get key)),
        r.learnAll (pre ++ key :: post)) := by
  have hall := getOrAddAll_eq ho (pre ++ key :: post)
  generalize hs : r.learnAll (pre ++ key :: post) = s at hall hlt ⊢
  have hpre : (pre.map s.get).Nodup := by
    refine (nodup_map_get_iff hlt fun k hk => ?_).2 hd
    rw [← hs]
    exact known_of_mem ho (List.mem_append_left _ hk)
  have hmem : s.get key ∈ pre.map s.get := by
    obtain ⟨k, hk, heq⟩ := hkey
    refine List.mem_map.2 ⟨k, hk, ?_⟩
    rw [get, get, code?_congr s heq]
  have hfirst := firstRepeated?_append (post.map s.get)
    ((firstRepeated?_eq_none_iff [] _).2 ⟨hpre, by simp⟩) (.inr hmem)
  unfold setHash
  rw [hall, List.map_append, List.map_cons]
  simp only [Except.bind, hfirst]

end
end Numbering

namespace ClassIndex
open EntityStore.Numbering
variable {κ : Type} [BEq κ] [Hashable κ] {x : ClassIndex κ} {r : Numbering κ} {keys : List κ}

/-- One value stands for a set of distinct keys: the polynomial in 31, modulo `2 ^ 64`, of the codes
that they have once they are hashed, in ascending order. It does not depend on the order of the
keys, not even of those that are new, and it is what hashing finds at any later time, and what a map
with these codes as its keys hashes to. -/
structure Canonical (x : ClassIndex κ) (r : Numbering κ) (keys : List κ) (codes : List UInt32)
    (value : UInt64) : Prop where
  ascending : codes.Pairwise (· < ·)
  codes_of_keys : codes.Perm (keys.map (x.setHash keys).state.get)
  value_eq : value.toNat = codes.foldl (fun h code => h * 31 + code.toNat) 0 % UInt64.size
  hash : (x.setHash keys).result = .ok value
  reordered : ∀ keys', keys'.Perm keys → (x.setHash keys').result = .ok value
  later : ∀ ops keys', ((x.setHash keys).state.run ops).2.closed = false →
    ((r.setHash keys).2.run ops).2.keys.length < UInt32.size → keys'.Perm keys →
    (((x.setHash keys).state.run ops).2.setHash keys').result = .ok value
  map : ∀ (α : Type) (τ : Type → Type) [CodeTable τ] [LawfulCodeTable τ] (m : IntMap α τ),
    (∀ code, m.contains code = true ↔ code ∈ codes) → m.hash = value

variable [EquivBEq κ] [LawfulHashable κ]

theorem Numbers.canonical (h : x.Numbers r) (ho : r.closed = false) (hd : Distinct keys)
    (hlt : (r.learnAll keys).keys.length < UInt32.size) :
    ∃ codes value, x.Canonical r keys codes value := by
  have hall (keys' : List κ) (hp : keys'.Perm keys) := setHash_of_perm ho hd hlt hp
  have hlength (keys' : List κ) (hp : keys'.Perm keys) :
      (r.setHash keys').2.keys.length < UInt32.size := by
    obtain ⟨-, hlen⟩ := codes_of_distinct ho hd
    obtain ⟨-, hlen'⟩ := codes_of_distinct ho (hd.perm hp)
    rw [hall keys' hp]
    show (r.learnAll keys').keys.length < UInt32.size
    rwa [hlen', hp.countP_eq, ← hlen]
  have hresult (keys' : List κ) (hp : keys'.Perm keys) : (x.setHash keys').result =
      .ok (canonicalHash (sortCodes (keys.map (r.learnAll keys).get))) := by
    rw [(h.setHash keys' (hlength keys' hp)).1, hall keys' hp]
  obtain ⟨-, hstate⟩ := h.setHash keys (hlength keys (.refl _))
  rw [hall keys (.refl _)] at hstate
  have hget : (x.setHash keys).state.get = (r.learnAll keys).get := funext hstate.get_eq
  have hknown : ∀ key ∈ keys, ∃ code, (r.learnAll keys).code? key = some code :=
    fun _ hk => known_of_mem ho hk
  have hnodup : (keys.map (r.learnAll keys).get).Nodup := (nodup_map_get_iff hlt hknown).2 hd
  refine
    ⟨sortCodes (keys.map (r.learnAll keys).get), _,
      { ascending := pairwise_lt_sortCodes hnodup
        codes_of_keys := hget ▸ sortCodes_perm _
        value_eq := toNat_canonicalHash _
        hash := hresult keys (.refl _)
        reordered := hresult
        later := ?_
        map := fun _ _ _ _ _ hm => IntMap.hash_eq hnodup fun code => ?_ }⟩
  · intro ops keys' hopen hbound hp
    rw [hall keys (.refl _)] at hbound
    obtain ⟨-, hlast⟩ := hstate.run ops hbound
    have hlater := setHash_of_run (hlast.closed.symm.trans hopen) hd hbound hknown hp
    rw [(hlast.setHash keys' (by rwa [hlater])).1, hlater]
  · rw [hm, (sortCodes_perm _).mem_iff]

theorem Numbers.setHash_of_repeated (h : x.Numbers r) (ho : r.closed = false)
    (hd : ¬ Distinct keys) (hlt : (r.learnAll keys).keys.length < UInt32.size) :
    ∃ pre key post, keys = pre ++ key :: post ∧ Distinct pre ∧ (∃ k ∈ pre, (k == key) = true) ∧
      (x.setHash keys).result = .error (.duplicateType ((x.setHash keys).state.get key)) := by
  obtain ⟨pre, key, post, rfl, hpre, hkey⟩ := exists_split_of_not_distinct hd
  have hall := Numbering.setHash_of_repeated ho hpre hkey post hlt
  obtain ⟨hresult, hstate⟩ := h.setHash (pre ++ key :: post) (by rwa [hall])
  refine ⟨pre, key, post, rfl, hpre, hkey, ?_⟩
  rw [hresult, hstate.get_eq, hall]

/-- At any time of any run, as long as there are codes left, an open index hashes distinct keys to
one value for their set. Keys of which one is repeated are refused with the code of the first that
came before. -/
theorem canonicalHash_of_run {hashBits : Nat} (h2 : 2 ≤ hashBits) (h24 : hashBits ≤ 24) :
    ∃ (x : ClassIndex κ) (log : List Event), ClassIndex.create hashBits = .ok (x, log) ∧
      ∀ (ops : List (Op κ)) (keys : List κ), (x.run ops).2.closed = false →
        ((({} : Numbering κ).run ops).2.setHash keys).2.keys.length < UInt32.size →
        (Distinct keys → ∃ codes value,
          (x.run ops).2.Canonical (({} : Numbering κ).run ops).2 keys codes value) ∧
        (¬ Distinct keys → ∃ pre key post, keys = pre ++ key :: post ∧ Distinct pre ∧
          (∃ k ∈ pre, (k == key) = true) ∧
          ((x.run ops).2.setHash keys).result =
            .error (.duplicateType (((x.run ops).2.setHash keys).state.get key))) := by
  obtain ⟨x, log, hx, hempty⟩ := exists_create (κ := κ) h2 h24
  refine ⟨x, log, hx, fun ops keys hopen hlt => ?_⟩
  have hbound : (({} : Numbering κ).run ops).2.keys.length < UInt32.size :=
    Nat.lt_of_le_of_lt (keys_prefix_getOrAddAll _ keys).length_le hlt
  obtain ⟨-, h⟩ := hempty.run ops hbound
  have ho := h.closed.symm.trans hopen
  have hlearn : ((({} : Numbering κ).run ops).2.setHash keys).2 =
      (({} : Numbering κ).run ops).2.learnAll keys := congrArg Prod.snd (getOrAddAll_eq ho keys)
  rw [hlearn] at hlt
  exact ⟨fun hd => h.canonical ho hd hlt, fun hd => h.setHash_of_repeated ho hd hlt⟩

/-- Two new keys of one hash, in both orders: their codes are 1 and 2, and `1 * 31 + 2` is 33. -/
theorem canonicalHash_of_run_bucket :
    ∃ (x : ClassIndex Key) (log : List Event), ClassIndex.create 4 = .ok (x, log) ∧
      (x.setHash [.bucket 7 1, .bucket 7 2]).result = .ok 33 ∧
      (x.setHash [.bucket 7 2, .bucket 7 1]).result = .ok 33 := by
  obtain ⟨x, log, hx, h⟩ := canonicalHash_of_run (κ := Key) (by decide : 2 ≤ 4) (by decide)
  have hopen : (x.run []).2.closed = false := (numbers_of_create hx).closed
  have hd : Distinct [Key.bucket 7 1, Key.bucket 7 2] := by decide
  obtain ⟨codes, value, hc⟩ := (h [] _ hopen (by decide)).1 hd
  have hvalue : (x.setHash [.bucket 7 1, .bucket 7 2]).result.toOption = some 33 := by
    cases hx
    decide +kernel
  have hsame : value = 33 := by
    have hhash : (x.setHash [.bucket 7 1, .bucket 7 2]).result = .ok value := hc.hash
    rw [hhash] at hvalue
    exact Option.some.inj hvalue
  rw [hsame] at hc
  exact ⟨x, log, hx, hc.hash, hc.reordered _ (.swap ..)⟩

end ClassIndex
end EntityStore
