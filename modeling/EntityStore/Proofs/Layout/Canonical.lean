import EntityStore.Proofs.ClassIndex.Collision
import EntityStore.Proofs.Layout.Create
import Mathlib.Data.List.Duplicate

/-! Layouts are canonical. A layout has its types in ascending order of their codes, so layouts of
the same types are equal, whenever they were made and however the types were listed. -/

namespace EntityStore

namespace Layout
variable {κ : Type} {l m : Layout κ} {code code' : κ → UInt32} {types types' : List κ}

/-- The layout `l` is made of some types, which stand in ascending order of their codes. -/
structure Arranges (l : Layout κ) (code : κ → UInt32) (types : List κ) : Prop where
  perm : l.types.Perm types
  codes : l.codes = l.types.map code
  ascending : l.codes.Pairwise (· < ·)

theorem Arranges.pairwise (h : l.Arranges code types) :
    l.types.Pairwise fun a b => code a < code b :=
  List.pairwise_map.1 (h.codes ▸ h.ascending)

theorem Arranges.nodup (h : l.Arranges code types) : l.types.Nodup :=
  List.Nodup.of_map code (h.pairwise.map code fun _ _ => UInt32.ne_of_lt)

theorem Arranges.congr (h : l.Arranges code types) (hcode : ∀ t ∈ types, code t = code' t) :
    l.Arranges code' types where
  perm := h.perm
  codes := by
    rw [h.codes]
    exact List.map_congr_left fun t ht => hcode t (h.perm.mem_iff.1 ht)
  ascending := h.ascending

theorem Arranges.eq_of_mem_iff (h : l.Arranges code types) (h' : m.Arranges code types')
    (hmem : ∀ t, t ∈ types ↔ t ∈ types') : l = m := by
  have hperm : l.types.Perm m.types := by
    refine (List.perm_ext_iff_of_nodup h.nodup h'.nodup).2 fun t => ?_
    rw [h.perm.mem_iff, h'.perm.mem_iff, hmem]
  have htypes : l.types = m.types := by
    refine hperm.eq_of_pairwise (fun a b _ _ hab hba => ?_) h.pairwise h'.pairwise
    exact absurd hba (UInt32.lt_asymm hab)
  have hcodes : l.codes = m.codes := by rw [h.codes, h'.codes, htypes]
  cases l
  cases m
  exact congrArg₂ Layout.mk htypes hcodes

/-! ### Repeated codes -/

theorem least_of_repeatedCode? {pairs : List (UInt32 × κ)} {c : UInt32}
    (h : (pairs.map (·.1)).Pairwise (· ≤ ·)) (hc : repeatedCode? pairs = some c) :
    List.Duplicate c (pairs.map (·.1)) ∧
      ∀ d, List.Duplicate d (pairs.map (·.1)) → c ≤ d := by
  induction pairs with
  | nil => cases hc
  | cons a rest ih =>
    cases rest with
    | nil => cases hc
    | cons b rest =>
      obtain ⟨ha, hrest⟩ := List.pairwise_cons.1 h
      unfold repeatedCode? at hc
      split at hc
      · rename_i hab
        obtain rfl := Option.some.inj hc
        refine ⟨.cons_mem (hab ▸ List.mem_cons_self ..), fun d hd => ?_⟩
        rcases List.mem_cons.1 hd.mem with rfl | hd
        · exact UInt32.le_refl _
        · exact ha d hd
      · rename_i hab
        obtain ⟨hdup, hleast⟩ := ih hrest hc
        refine ⟨hdup.duplicate_cons _, fun d hd => ?_⟩
        rcases List.duplicate_cons_iff.1 hd with ⟨rfl, hmem⟩ | hd
        · exact absurd hmem (not_mem_of_ne h hab)
        · exact hleast d hd

theorem duplicate_iff_of_perm {codes codes' : List UInt32} (h : codes.Perm codes') (c : UInt32) :
    List.Duplicate c codes ↔ List.Duplicate c codes' := by
  rw [List.duplicate_iff_two_le_count, List.duplicate_iff_two_le_count, h.count_eq]

/-! ### Layouts of known types -/

section
variable [BEq κ] [Hashable κ] {x : ClassIndex κ}

theorem create_cases (hcodes : (x.getOrAddAll types).result = .ok (types.map code)) :
    ∃ pairs : List (UInt32 × κ), pairs.Perm (types.map fun t => (code t, t)) ∧
      (pairs.map (·.1)).Pairwise (· ≤ ·) ∧
      ((∃ c, repeatedCode? pairs = some c ∧ (create x types).result = .error (.duplicateType c)) ∨
        repeatedCode? pairs = none ∧ (create x types).result =
          .ok { types := pairs.map (·.2), codes := pairs.map (·.1) }) := by
  refine ⟨_, sortBy_perm _ _, pairwise_sortBy_fst _, ?_⟩
  unfold create Outcome.map
  rw [hcodes, List.map_prod_right_eq_zip]
  simp only [Except.bind]
  split
  · rename_i c hc
    exact .inl ⟨c, hc, rfl⟩
  · rename_i hnone
    exact .inr ⟨hnone, rfl⟩

theorem arranges_of_create (hcodes : (x.getOrAddAll types).result = .ok (types.map code))
    (hl : (create x types).result = .ok l) : l.Arranges code types := by
  obtain ⟨pairs, hperm, hle, ⟨c, -, hresult⟩ | ⟨hnone, hresult⟩⟩ := create_cases hcodes
  · rw [hresult] at hl
    cases hl
  · rw [hresult] at hl
    cases hl
    have hnodup := (repeatedCode?_eq_none_iff hle).1 hnone
    refine ⟨?_, ?_, ?_⟩
    · simpa [Function.comp_def] using hperm.map (·.2)
    · rw [List.map_map]
      refine List.map_congr_left fun pair hpair => ?_
      obtain ⟨t, -, rfl⟩ := List.mem_map.1 (hperm.mem_iff.1 hpair)
      rfl
    · exact (hle.and hnodup).imp fun h => UInt32.lt_of_le_of_ne h.1 h.2

theorem error_of_create {e : IndexError}
    (hcodes : (x.getOrAddAll types).result = .ok (types.map code))
    (he : (create x types).result = .error e) :
    ∃ c, e = .duplicateType c ∧ List.Duplicate c (types.map code) ∧
      ∀ d, List.Duplicate d (types.map code) → c ≤ d := by
  obtain ⟨pairs, hperm, hle, ⟨c, hc, hresult⟩ | ⟨-, hresult⟩⟩ := create_cases hcodes
  · rw [hresult] at he
    cases he
    have hdup (d : UInt32) :
        List.Duplicate d (pairs.map (·.1)) ↔ List.Duplicate d (types.map code) := by
      simpa [Function.comp_def] using duplicate_iff_of_perm (hperm.map (·.1)) d
    obtain ⟨hmem, hleast⟩ := least_of_repeatedCode? hle hc
    exact ⟨c, rfl, (hdup c).1 hmem, fun d hd => hleast d ((hdup d).2 hd)⟩
  · rw [hresult] at he
    cases he

theorem create_ok_iff (hcodes : (x.getOrAddAll types).result = .ok (types.map code)) :
    (∃ l, (create x types).result = .ok l) ↔ (types.map code).Nodup := by
  obtain ⟨pairs, hperm, hle, hresult⟩ := create_cases hcodes
  have hnodup : (pairs.map (·.1)).Nodup ↔ (types.map code).Nodup := by
    simpa [Function.comp_def] using (hperm.map (·.1)).nodup_iff
  rw [← hnodup, ← repeatedCode?_eq_none_iff hle]
  rcases hresult with ⟨c, hc, hresult⟩ | ⟨hnone, hresult⟩
  · simp [hc, hresult]
  · simp [hnone, hresult]

end

/-! ### Look-ups -/

variable [BEq κ] [LawfulBEq κ] {t : κ} {i : Nat}

theorem offsetOf?_eq_none_iff : l.offsetOf? t = none ↔ t ∉ l.types := by
  unfold offsetOf?
  rw [List.findIdx?_eq_none_iff]
  exact ⟨fun h ht => by simpa using h t ht, fun h a ha => beq_false_of_ne fun hat => h (hat ▸ ha)⟩

theorem offsetOf?_eq_some_iff (hl : l.types.Nodup) :
    l.offsetOf? t = some i ↔ l.types[i]? = some t := by
  unfold offsetOf?
  rw [List.findIdx?_eq_some_iff_getElem, List.getElem?_eq_some_iff]
  constructor
  · rintro ⟨hi, heq, -⟩
    exact ⟨hi, eq_of_beq heq⟩
  · rintro ⟨hi, rfl⟩
    refine ⟨hi, BEq.rfl, fun j hj => ?_⟩
    have hne : l.types[j] ≠ l.types[i] := fun heq =>
      Nat.ne_of_lt hj ((hl.getElem_inj_iff).1 heq)
    simpa using hne

theorem Arranges.codeOf?_of_mem (h : l.Arranges code types) (ht : t ∈ types) :
    l.codeOf? t = some (code t) := by
  obtain ⟨i, hi, hget⟩ := List.mem_iff_getElem.1 (h.perm.mem_iff.2 ht)
  have hat : l.types[i]? = some t := List.getElem?_eq_some_iff.2 ⟨hi, hget⟩
  have hoffset := (offsetOf?_eq_some_iff h.nodup).2 hat
  unfold codeOf?
  rw [hoffset, Option.bind_some, h.codes, List.getElem?_map, hat]
  rfl

theorem Arranges.codeOf?_of_not_mem (h : l.Arranges code types) (ht : t ∉ types) :
    l.codeOf? t = none := by
  unfold codeOf?
  rw [offsetOf?_eq_none_iff.2 fun hmem => ht (h.perm.mem_iff.1 hmem)]
  rfl

end Layout

/-! ### Layouts of an index -/

namespace ClassIndex
variable {κ : Type} [BEq κ] [Hashable κ] {x : ClassIndex κ} {r : Numbering κ}
  {types types' : List κ} {l m : Layout κ} {hashBits : Nat} {forced : Prop}

section
variable [EquivBEq κ]

theorem Flagged.get_eq (h : x.Flagged r hashBits forced) (key : κ) : x.get key = r.get key := by
  cases he : x.exact with
  | true => rw [get, if_pos he, exactGet, KeyMap.getD, h.codes, Numbering.get]
  | false => exact (h.numbers he).get_eq key

variable [LawfulHashable κ]

theorem Flagged.result_getOrAddAll (h : x.Flagged r hashBits forced) (keys : List κ) :
    (x.getOrAddAll keys).result = (r.getOrAddAll keys).1 := by
  induction keys generalizing x r with
  | nil => rfl
  | cons key keys ih =>
    obtain ⟨hresult, hstate⟩ := h.add key
    rw [ClassIndex.getOrAddAll, Numbering.getOrAddAll, Numbering.getOrAdd_eq_add, h.getOrAdd_eq]
    generalize r.add key = p at hresult hstate
    generalize x.add key = o at hresult hstate
    obtain ⟨y, res, log⟩ := o
    obtain ⟨res', s⟩ := p
    obtain rfl : res = res' := hresult
    cases res with
    | error e => rfl
    | ok code => exact congrArg (Except.map (code :: ·)) (ih hstate)

theorem Flagged.result_getOrAddAll_of_open (h : x.Flagged r hashBits forced)
    (ho : x.closed = false) (keys : List κ) :
    (x.getOrAddAll keys).result = .ok (keys.map (x.getOrAddAll keys).state.get) := by
  have hbatch := Numbering.getOrAddAll_eq (h.closed ▸ ho) keys
  have hstate := (h.getOrAddAll keys).1
  rw [hbatch] at hstate
  rw [h.result_getOrAddAll, hbatch]
  exact congrArg Except.ok (List.map_congr_left fun key _ => (hstate.get_eq key).symm)

theorem Flagged.create (h : x.Flagged r hashBits forced) (types : List κ) :
    (Layout.create x types).state.Flagged (r.getOrAddAll types).2 hashBits forced :=
  (h.getOrAddAll types).1

theorem Flagged.eq_nil_of_closed (h : x.Flagged r hashBits forced) (hc : x.closed = true)
    (hl : (Layout.create x types).result = .ok l) : types = [] := by
  have hresult := h.result_getOrAddAll types
  rw [Numbering.getOrAddAll_of_closed (h.closed ▸ hc)] at hresult
  cases types with
  | nil => rfl
  | cons t types =>
    unfold Layout.create Outcome.map at hl
    rw [hresult] at hl
    cases hl

theorem Flagged.arranges (h : x.Flagged r hashBits forced)
    (hl : (Layout.create x types).result = .ok l) :
    l.Arranges (Layout.create x types).state.get types := by
  cases ho : x.closed with
  | false => exact Layout.arranges_of_create (h.result_getOrAddAll_of_open ho types) hl
  | true =>
    obtain rfl := h.eq_nil_of_closed ho hl
    exact Layout.arranges_of_create rfl hl

theorem Flagged.closed_getOrAddAll (h : x.Flagged r hashBits forced) (ho : x.closed = false)
    (types : List κ) : (x.getOrAddAll types).state.closed = false := by
  rw [(h.getOrAddAll types).1.closed, Numbering.getOrAddAll_eq (h.closed ▸ ho),
    Numbering.closed_learnAll, ← h.closed, ho]

theorem Flagged.exists_create_iff (h : x.Flagged r hashBits forced) (ho : x.closed = false)
    (hlt : (r.getOrAddAll types).2.keys.length < UInt32.size) :
    (∃ l, (Layout.create x types).result = .ok l) ↔ Numbering.Distinct types := by
  have hcodes := h.result_getOrAddAll_of_open ho types
  have hstate := (h.getOrAddAll types).1
  rw [Numbering.getOrAddAll_eq (h.closed ▸ ho)] at hlt hstate
  rw [Layout.create_ok_iff hcodes, funext hstate.get_eq]
  exact Numbering.nodup_map_get_iff hlt fun _ ht => Numbering.known_of_mem (h.closed ▸ ho) ht

theorem Flagged.arranges_run (h : x.Flagged r hashBits forced)
    (hl : (Layout.create x types).result = .ok l) {ops : List (Op κ)}
    (ho : ((Layout.create x types).state.run ops).2.closed = false) :
    l.Arranges ((Layout.create x types).state.run ops).2.get types := by
  have hbatch := h.create types
  have hrun := hbatch.run ops
  obtain ⟨hopen, hextends⟩ := Numbering.extends_run (hrun.closed ▸ ho)
  have hr : r.closed = false := by
    by_contra hc
    rw [Numbering.getOrAddAll_of_closed (Bool.not_eq_false _ ▸ hc)] at hopen
    exact hc hopen
  refine (h.arranges hl).congr fun t ht => ?_
  rw [hbatch.get_eq, hrun.get_eq]
  refine hextends.get_eq ?_
  rw [Numbering.getOrAddAll_eq hr]
  exact Numbering.known_of_mem hr ht

theorem Flagged.arranges_later (h : x.Flagged r hashBits forced)
    (hl : (Layout.create x types).result = .ok l) {ops : List (Op κ)}
    (ho : ((Layout.create x types).state.run ops).2.closed = false) (types' : List κ) :
    l.Arranges (Layout.create ((Layout.create x types).state.run ops).2 types').state.get
      types := by
  have hrun := ClassIndex.run_append (Layout.create x types).state ops [.getOrAddAll types']
  have hopen : ((Layout.create x types).state.run (ops ++ [.getOrAddAll types'])).2.closed =
      false := by
    rw [hrun]
    exact ((h.create types).run ops).closed_getOrAddAll ho types'
  have harr := h.arranges_run hl hopen
  rw [hrun] at harr
  exact harr

end

variable [LawfulBEq κ]

/-- What the layouts are that an index makes of some types. They hold the codes that the types have
then and until the index is closed, and are one layout for one set of types. -/
structure LaysOut (x : ClassIndex κ) (types : List κ) : Prop where
  arranges : ∀ l, (Layout.create x types).result = .ok l → ∀ ops,
    ((Layout.create x types).state.run ops).2.closed = false →
    l.Arranges ((Layout.create x types).state.run ops).2.get types
  codeOf? : ∀ l, (Layout.create x types).result = .ok l → ∀ ops,
    ((Layout.create x types).state.run ops).2.closed = false → ∀ t,
    (t ∈ types → l.codeOf? t = some (((Layout.create x types).state.run ops).2.get t)) ∧
      (t ∉ types → l.codeOf? t = none)
  eq_iff : ∀ l, (Layout.create x types).result = .ok l → ∀ ops types' m,
    (Layout.create ((Layout.create x types).state.run ops).2 types').result = .ok m →
    (l = m ↔ ∀ t, t ∈ types ↔ t ∈ types')
  least : ∀ e, (Layout.create x types).result = .error e → ∃ c, e = .duplicateType c ∧
    List.Duplicate c (types.map (Layout.create x types).state.get) ∧
    ∀ d, List.Duplicate d (types.map (Layout.create x types).state.get) → c ≤ d

variable [LawfulHashable κ]

theorem Flagged.laysOut (h : x.Flagged r hashBits forced) (ho : x.closed = false)
    (types : List κ) : x.LaysOut types := by
  refine
    { arranges := fun l hl ops hopen => h.arranges_run hl hopen
      codeOf? := fun l hl ops hopen t => ?_
      eq_iff := fun l hl ops types' m hm => ?_
      least := fun e he => Layout.error_of_create (h.result_getOrAddAll_of_open ho types) he }
  · have harr := h.arranges_run hl hopen
    exact ⟨harr.codeOf?_of_mem, harr.codeOf?_of_not_mem⟩
  · have hlater := (h.create types).run ops
    have hm' := hlater.arranges hm
    constructor
    · rintro rfl t
      rw [← (h.arranges hl).perm.mem_iff, hm'.perm.mem_iff]
    · intro hmem
      cases hc : ((Layout.create x types).state.run ops).2.closed with
      | true =>
        -- Only the layout of no types can be made from now on.
        obtain rfl := hlater.eq_nil_of_closed hc hm
        have hnil (t : κ) : t ∉ types := fun ht => absurd ((hmem t).1 ht) List.not_mem_nil
        exact ((h.arranges hl).congr fun t ht => absurd ht (hnil t)).eq_of_mem_iff hm' hmem
      | false =>
        exact (h.arranges_later hl hc types').eq_of_mem_iff hm' hmem

/-- Whatever has been asked of it, an open class index makes canonical layouts. It makes them of
distinct types only, and of all of those as long as there are codes left. -/
theorem laysOut_of_run {hashBits : Nat} (h2 : 2 ≤ hashBits) (h24 : hashBits ≤ 24) :
    ∃ (x : ClassIndex κ) (log : List Event), ClassIndex.create hashBits = .ok (x, log) ∧
      ∀ (ops : List (Op κ)) (types : List κ), (x.run ops).2.closed = false →
        (x.run ops).2.LaysOut types ∧
        ((∃ l, (Layout.create (x.run ops).2 types).result = .ok l) → types.Nodup) ∧
        (((({} : Numbering κ).run ops).2.getOrAddAll types).2.keys.length < UInt32.size →
          types.Nodup → ∃ l, (Layout.create (x.run ops).2 types).result = .ok l) := by
  obtain ⟨x, log, hx, -⟩ := exists_create (κ := κ) h2 h24
  refine ⟨x, log, hx, fun ops types ho => ?_⟩
  have h := (flagged_of_create hx).run ops
  refine ⟨h.laysOut ho types, ?_, fun hlt hnodup => ?_⟩
  · rintro ⟨l, hl⟩
    exact (h.arranges hl).perm.nodup_iff.1 (h.arranges hl).nodup
  · exact (h.exists_create_iff ho hlt).2 (Numbering.distinct_iff_nodup.2 hnodup)

/-- Two keys with one hash are laid out by their codes, whichever comes first in the list. -/
theorem laysOut_of_run_bucket :
    ∃ (x : ClassIndex Key) (log : List Event), ClassIndex.create 4 = .ok (x, log) ∧
      (x.run [.add (.bucket 7 1)]).2.LaysOut [.bucket 7 2, .bucket 7 1] ∧
      ∃ l, (Layout.create (x.run [.add (.bucket 7 1)]).2
          [.bucket 7 2, .bucket 7 1]).result = .ok l ∧
        l = ⟨[.bucket 7 1, .bucket 7 2], [1, 2]⟩ := by
  obtain ⟨x, log, hx, h⟩ := laysOut_of_run (κ := Key) (by decide : 2 ≤ 4) (by decide)
  cases hx
  obtain ⟨hlays, -, hmake⟩ :=
    h [.add (.bucket 7 1)] [.bucket 7 2, .bucket 7 1] (by decide +kernel)
  obtain ⟨l, hl⟩ := hmake (by decide +kernel) (by decide)
  refine ⟨_, _, rfl, hlays, l, hl, Except.ok.inj (hl.symm.trans ?_)⟩
  decide +kernel

end ClassIndex
end EntityStore
