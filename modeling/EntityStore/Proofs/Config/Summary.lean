import EntityStore.Proofs.Config.Resolution
import EntityStore.Proofs.Config.Variables
import Mathlib.Logic.Function.Basic

/-! What the summary of a configuration offers. It names a variable to set for each setting that
none decides. That variable is absent, and once it holds a number it decides this setting and no
other. -/

namespace EntityStore

namespace Config

def lines (c : Config) : List (List Char) := c.summary.toList.splitOn '\n'

/-- A line that shows a setting and the variable to set for it. -/
def offer (s : Setting) (bits : Nat) (var : String) : String :=
  "  " ++ s.label ++ ": " ++ toString bits ++ " (set env '" ++ var ++ "')"

/-- The summary names a variable to set for a setting. -/
def Offers (c : Config) (s : Setting) (var : String) : Prop :=
  ∃ bits, (offer s bits var).toList ∈ c.lines

variable {c : Config} {s t : Setting} {var : String} {m n : Nat} {u v : List Char}

/-! ### Lines -/

def lineStart (s : Setting) : List Char := ("  " ++ s.label ++ ": ").toList

theorem toList_settingLine (c : Config) (s : Setting) : (c.settingLine s).toList =
    lineStart s ++ (Nat.toDigits 10 (c.width s).bits ++
      ((c.width s).source.hint (s.scopedVariable c.name)).toList) := by
  have hline : c.settingLine s = "  " ++ s.label ++ (": " ++ toString (c.width s).bits) ++
      (c.width s).source.hint (s.scopedVariable c.name) := rfl
  simp only [hline, lineStart, Nat.toString_eq_repr, String.toList_append, Nat.toList_repr,
    List.append_assoc]

theorem toList_offer (s : Setting) (bits : Nat) (var : String) : (offer s bits var).toList =
    lineStart s ++ (Nat.toDigits 10 bits ++ (" (set env '" ++ var ++ "')").toList) := by
  simp only [offer, lineStart, Nat.toString_eq_repr, String.toList_append, Nat.toList_repr,
    List.append_assoc]

theorem eq_of_lineStart_append (h : lineStart s ++ u = lineStart t ++ v) : s = t ∧ u = v := by
  -- The third letter of the label tells the settings apart.
  have hst : s = t := by
    have hletter := congrArg (·[3]?) h
    revert hletter
    cases s <;> cases t <;> simp [lineStart, Setting.label]
  subst hst
  exact ⟨rfl, List.append_cancel_left h⟩

theorem eq_of_toDigits_append (hu : ∀ c ∈ u.head?, c.isDigit = false)
    (hv : ∀ c ∈ v.head?, c.isDigit = false)
    (h : Nat.toDigits 10 m ++ u = Nat.toDigits 10 n ++ v) : u = v := by
  have hdigits (k : Nat) : ∀ c ∈ Nat.toDigits 10 k, c.isDigit = true := fun c hc =>
    Nat.isDigit_of_mem_toDigits (by decide) (by decide) hc
  have hdrop {k : Nat} {w : List Char} (hw : ∀ c ∈ w.head?, c.isDigit = false) :
      (Nat.toDigits 10 k ++ w).dropWhile Char.isDigit = w := by
    rw [List.dropWhile_append_of_pos (hdigits k)]
    cases w with
    | nil => rfl
    | cons c w => simp [hw c rfl]
  rw [← hdrop (k := m) hu, h, hdrop hv]

theorem lines_eq (hname : '\n' ∉ c.name.toList) (hlines : ∀ s, '\n' ∉ (c.settingLine s).toList) :
    c.lines = [("Pool '" ++ c.name ++ "'").toList, (c.settingLine .chunkBit).toList,
      (c.settingLine .classIndexBit).toList] := by
  have hsummary : c.summary.toList = ['\n'].intercalate [("Pool '" ++ c.name ++ "'").toList,
      (c.settingLine .chunkBit).toList, (c.settingLine .classIndexBit).toList] := by
    simp [summary, List.intercalate]
  rw [lines, hsummary]
  refine List.splitOn_intercalate _ ?_ (by simp)
  simp only [List.forall_mem_cons, List.not_mem_nil, false_implies, implies_true, and_true]
  refine ⟨?_, hlines _, hlines _⟩
  simpa using hname

/-! ### Hints -/

theorem hint_eq_iff {source : Source} {own : String} :
    source.hint own = " (set env '" ++ var ++ "')" ↔ source = .standard ∧ own = var := by
  cases source <;> simp [Source.hint, ← String.toList_inj]

theorem isDigit_head_hint (source : Source) (own : String) :
    ∀ c ∈ (source.hint own).toList.head?, c.isDigit = false := by
  cases source <;> simp [Source.hint]

theorem hint_of_settingLine_eq {bits : Nat}
    (h : (offer s bits var).toList = (c.settingLine t).toList) :
    t = s ∧ (c.width s).source = .standard ∧ s.scopedVariable c.name = var := by
  rw [toList_offer, toList_settingLine] at h
  obtain ⟨rfl, hrest⟩ := eq_of_lineStart_append h
  have hhint := eq_of_toDigits_append (isDigit_head_hint .standard var) (isDigit_head_hint _ _)
    hrest
  exact ⟨rfl, hint_eq_iff.1 (String.toList_inj.1 hhint.symm)⟩

theorem offers_iff (hname : '\n' ∉ c.name.toList) (hlines : ∀ s, '\n' ∉ (c.settingLine s).toList) :
    c.Offers s var ↔ (c.width s).source = .standard ∧ s.scopedVariable c.name = var := by
  unfold Offers
  rw [lines_eq hname hlines]
  constructor
  · rintro ⟨bits, hmem⟩
    simp only [List.mem_cons, List.not_mem_nil, or_false] at hmem
    rcases hmem with h | h | h
    · -- The first line does not start with a blank.
      rw [toList_offer] at h
      have hfirst := congrArg List.head? h
      simp [lineStart] at hfirst
    · exact (hint_of_settingLine_eq h).2
    · exact (hint_of_settingLine_eq h).2
  · intro h
    refine ⟨(c.width s).bits, ?_⟩
    have hline : (offer s (c.width s).bits var).toList = (c.settingLine s).toList := by
      rw [toList_offer, toList_settingLine, hint_eq_iff.2 h]
    rw [hline]
    cases s <;> simp

/-! ### Configurations from variables -/

variable {lookup : String → Option String} {name : String} {asked : List String}

theorem settles_of_ofLookup (h : (ofLookup name lookup).1 = .ok c) :
    c.name = name ∧ ∀ s, ∃ asked, Settles lookup name s (.ok (c.width s)) asked := by
  obtain ⟨asked, hr⟩ := exists_resolves_of_ofLookup h
  cases hr with
  | ok hchunk hindex =>
    refine ⟨rfl, fun s => ?_⟩
    cases s with
    | chunkBit => exact ⟨_, hchunk⟩
    | classIndexBit => exact ⟨_, hindex⟩

theorem exists_ofLookup {w : Setting → Width}
    (h : ∀ s, ∃ asked, Settles lookup name s (.ok (w s)) asked) :
    ∃ d, (ofLookup name lookup).1 = .ok d ∧ d.name = name ∧ ∀ s, d.width s = w s := by
  obtain ⟨_, hchunk⟩ := h .chunkBit
  obtain ⟨_, hindex⟩ := h .classIndexBit
  refine ⟨⟨name, w .chunkBit, w .classIndexBit⟩, ?_, rfl, fun s => ?_⟩
  · rw [ofLookup_of_resolves (.ok hchunk hindex)]
  · cases s <;> rfl

theorem Settles.congr {lookup' : String → Option String} {r : Except ConfigError Width}
    (h : Settles lookup name s r asked)
    (hown : lookup' (s.scopedVariable name) = lookup (s.scopedVariable name))
    (hshared : lookup' s.sharedVariable = lookup s.sharedVariable) :
    Settles lookup' name s r asked := by
  have hgoverns {var raw : String} {asked : List String} (h : Governs lookup name s var raw asked) :
      Governs lookup' name s var raw asked := by
    cases h with
    | own h => exact .own (hown.trans h)
    | shared habsent h => exact .shared (hown.trans habsent) (hshared.trans h)
  cases h with
  | value h hn => exact .value (hgoverns h) hn
  | invalid h hn => exact .invalid (hgoverns h) hn
  | standard h h' => exact .standard (hown.trans h) (hshared.trans h')

theorem absent_of_settles_standard {w : Width} (h : Settles lookup name s (.ok w) asked)
    (hw : w.source = .standard) : lookup (s.scopedVariable name) = none := by
  cases h with
  | value => cases hw
  | standard hown _ => exact hown

theorem exists_ofLookup_update (h : (ofLookup name lookup).1 = .ok c) (s : Setting)
    (hn : n < UInt32.size) :
    ∃ d, (ofLookup name (Function.update lookup (s.scopedVariable name) (some (toString n)))).1 =
        .ok d ∧ d.name = name ∧ d.width s = ⟨n, .variable (s.scopedVariable name)⟩ ∧
      ∀ t, t ≠ s → d.width t = c.width t := by
  obtain ⟨-, hsettles⟩ := settles_of_ofLookup h
  have hall (t : Setting) : ∃ asked, Settles
      (Function.update lookup (s.scopedVariable name) (some (toString n))) name t
      (.ok (if t = s then ⟨n, .variable (s.scopedVariable name)⟩ else c.width t)) asked := by
    by_cases ht : t = s
    · subst ht
      rw [if_pos rfl]
      exact ⟨_, .value (.own (Function.update_self ..)) (Numeral.denotes_toString hn)⟩
    · rw [if_neg ht]
      obtain ⟨asked, hold⟩ := hsettles t
      refine ⟨asked, hold.congr (Function.update_of_ne ?_ _ _) (Function.update_of_ne ?_ _ _)⟩
      · exact fun heq => ht (Setting.eq_of_scopedVariable_eq heq)
      · exact (s.scopedVariable_ne_sharedVariable t name).symm
  obtain ⟨d, hd, hname, hwidth⟩ := exists_ofLookup hall
  refine ⟨d, hd, hname, ?_, fun t ht => ?_⟩
  · rw [hwidth, if_pos rfl]
  · rw [hwidth, if_neg ht]

/-! ### No line is broken -/

theorem newline_not_mem_of_isAllowed (h : ∀ c ∈ name.toList, Name.isAllowed c = true) :
    '\n' ∉ name.toList :=
  fun hmem => absurd (h _ hmem) (by decide)

theorem newline_not_mem_scope (h : ∀ c ∈ name.toList, Name.isAllowed c = true) :
    '\n' ∉ (Setting.scope name).toList := by
  intro hmem
  have hjoined : '\n' ∈ (Name.joined name).toList := by
    rw [Setting.toList_joined h]
    exact List.mem_map.2 ⟨'\n', hmem, rfl⟩
  rw [Name.joined, String.toList_ofList] at hjoined
  obtain ⟨c, hc, heq⟩ := List.mem_map.1 hjoined
  unfold Name.joinedChar at heq
  split at heq
  · exact absurd heq (by decide)
  · exact newline_not_mem_of_isAllowed h (heq ▸ hc)

theorem newline_not_mem_hint {w : Width} (h : ∀ c ∈ name.toList, Name.isAllowed c = true)
    (hs : Settles lookup name s (.ok w) asked) :
    '\n' ∉ (w.source.hint (s.scopedVariable name)).toList := by
  have hown : '\n' ∉ (s.scopedVariable name).toList := by
    have hscope := newline_not_mem_scope h
    cases s <;> simpa [Setting.scopedVariable, Setting.key] using hscope
  have hshared : '\n' ∉ s.sharedVariable.toList := by cases s <;> decide
  cases hs with
  | value hg _ =>
    cases hg with
    | own => simpa [Source.hint] using hown
    | shared => simpa [Source.hint] using hshared
  | standard => simpa [Source.hint] using hown

theorem newline_not_mem_settingLine (h : ∀ c ∈ name.toList, Name.isAllowed c = true)
    (hname : c.name = name) (hs : Settles lookup name s (.ok (c.width s)) asked) :
    '\n' ∉ (c.settingLine s).toList := by
  have hstart : '\n' ∉ lineStart s := by cases s <;> decide
  have hdigits : '\n' ∉ Nat.toDigits 10 (c.width s).bits := fun hmem =>
    absurd (Nat.isDigit_of_mem_toDigits (by decide) (by decide) hmem) (by decide)
  rw [toList_settingLine, hname, List.mem_append, List.mem_append]
  rintro (hmem | hmem | hmem)
  · exact hstart hmem
  · exact hdigits hmem
  · exact newline_not_mem_hint h hs hmem

/-! ### Summaries of configurations from variables -/

/-- What a summary says about variables is true. Each one that it offers is absent, and once it
holds a number, its setting has this number from it, and the other setting is as before. -/
structure HintsTrue (c : Config) (given : String) (lookup : String → Option String) : Prop where
  offers_iff : ∀ s var, c.Offers s var ↔
    (c.width s).source = .standard ∧ s.scopedVariable c.name = var
  absent : ∀ s var, c.Offers s var → lookup var = none
  settable : ∀ s var, c.Offers s var → ∀ n < UInt32.size, ∀ supply, ∃ d,
    (ofLookup (Name.normalize supply given).1
      (Function.update lookup var (some (toString n)))).1 = .ok d ∧
    d.name = c.name ∧ d.width s = ⟨n, .variable var⟩ ∧ ∀ t, t ≠ s → d.width t = c.width t

theorem hintsTrue {given : String} (hgiven : Name.letters given.toList ≠ []) {supply : Name.Supply}
    (h : (ofLookup (Name.normalize supply given).1 lookup).1 = .ok c) :
    c.HintsTrue given lookup := by
  have hallowed : ∀ c ∈ (Name.normalize supply given).1.toList, Name.isAllowed c = true :=
    fun c hc => Name.isAllowed_of_mem_normalize supply given hc
  obtain ⟨hname, hsettles⟩ := settles_of_ofLookup h
  have hoffers (s : Setting) (var : String) : c.Offers s var ↔
      (c.width s).source = .standard ∧ s.scopedVariable c.name = var := by
    refine offers_iff (hname ▸ newline_not_mem_of_isAllowed hallowed) fun s => ?_
    obtain ⟨_, hs⟩ := hsettles s
    exact newline_not_mem_settingLine hallowed hname hs
  refine
    { offers_iff := hoffers
      absent := fun s var ho => ?_
      settable := fun s var ho n hn supply' => ?_ }
  · obtain ⟨hstandard, rfl⟩ := (hoffers s var).1 ho
    obtain ⟨_, hs⟩ := hsettles s
    exact hname ▸ absent_of_settles_standard hs hstandard
  · obtain ⟨-, rfl⟩ := (hoffers s var).1 ho
    -- A name with letters is the same whatever numbers were given out.
    have hsame : (Name.normalize supply' given).1 = (Name.normalize supply given).1 := by
      rw [Name.normalize_of_letters_ne_nil hgiven, Name.normalize_of_letters_ne_nil hgiven]
    rw [hsame, hname]
    exact exists_ofLookup_update h s hn

/-- The summary of every configuration that comes out of variables tells the truth about them, and
the variables of normalized names do not clash. -/
theorem hintsTrue_of_lookup {given : String} (hgiven : Name.letters given.toList ≠ [])
    {supply : Name.Supply} {lookup : String → Option String} {c : Config}
    (h : (ofLookup (Name.normalize supply given).1 lookup).1 = .ok c) :
    c.HintsTrue given lookup ∧ ∀ (p q : Name.Supply) (name other : String),
      Setting.Apart (Name.normalize p name).1 (Name.normalize q other).1 :=
  ⟨hintsTrue hgiven h, Setting.apart_normalize⟩

/-- One setting from the shared variable, and one that the summary offers a variable for. -/
theorem hintsTrue_of_lookup_myworld :
    Name.letters "My World!".toList ≠ [] ∧
    (ofLookup (Name.normalize {} "My World!").1
      fun var => if var = "RUSTY_POOL_CHUNK_BIT" then some " +08 " else none).1 =
      .ok ⟨"myworld", ⟨8, .variable "RUSTY_POOL_CHUNK_BIT"⟩, ⟨20, .standard⟩⟩ ∧
    HintsTrue ⟨"myworld", ⟨8, .variable "RUSTY_POOL_CHUNK_BIT"⟩, ⟨20, .standard⟩⟩ "My World!"
      (fun var => if var = "RUSTY_POOL_CHUNK_BIT" then some " +08 " else none) ∧
    Offers ⟨"myworld", ⟨8, .variable "RUSTY_POOL_CHUNK_BIT"⟩, ⟨20, .standard⟩⟩ .classIndexBit
      "RUSTY_POOL_MYWORLD_CLASS_INDEX_BIT" := by
  have hgiven : Name.letters "My World!".toList ≠ [] := by decide
  have h : (ofLookup (Name.normalize {} "My World!").1
      fun var => if var = "RUSTY_POOL_CHUNK_BIT" then some " +08 " else none).1 =
      .ok ⟨"myworld", ⟨8, .variable "RUSTY_POOL_CHUNK_BIT"⟩, ⟨20, .standard⟩⟩ := by
    decide +kernel
  obtain ⟨hhints, -⟩ := hintsTrue_of_lookup hgiven h
  exact ⟨hgiven, h, hhints, (hhints.offers_iff _ _).2 ⟨rfl, by decide +kernel⟩⟩

end Config
end EntityStore
