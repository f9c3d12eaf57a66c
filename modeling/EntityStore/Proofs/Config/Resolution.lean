import EntityStore.Proofs.Config.Variables
import EntityStore.Proofs.Text.Numeral

/-! How a configuration comes out of variables. A setting is decided by the first of its two
variables that is present, and by no other: if the text of that one is no numeral, the configuration
is refused, whatever the other variables hold. The rules stand as relations, and making a
configuration follows them. -/

namespace EntityStore

/-- The width of a setting that no variable decides. -/
def Setting.standardBits : Setting → Nat
  | chunkBit => 14
  | classIndexBit => 20

namespace Config

/-- The variable that decides a setting, its text, and the variables asked for up to there: the one
of the repository if it is present, or else the one that all share. -/
inductive Governs (lookup : String → Option String) (name : String) (s : Setting) :
    String → String → List String → Prop where
  | own {raw : String} (h : lookup (s.scopedVariable name) = some raw) :
      Governs lookup name s (s.scopedVariable name) raw [s.scopedVariable name]
  | shared {raw : String} (habsent : lookup (s.scopedVariable name) = none)
      (h : lookup s.sharedVariable = some raw) :
      Governs lookup name s s.sharedVariable raw [s.scopedVariable name, s.sharedVariable]

/-- What becomes of a setting, and the variables asked for. -/
inductive Settles (lookup : String → Option String) (name : String) (s : Setting) :
    Except ConfigError Width → List String → Prop where
  | value {var raw : String} {asked : List String} {n : Nat}
      (h : Governs lookup name s var raw asked) (hn : Numeral.Denotes raw.toList n) :
      Settles lookup name s (.ok ⟨n, .variable var⟩) asked
  | invalid {var raw : String} {asked : List String} (h : Governs lookup name s var raw asked)
      (hn : ∀ n, ¬ Numeral.Denotes raw.toList n) :
      Settles lookup name s (.error (.invalidValue var raw)) asked
  | standard (hown : lookup (s.scopedVariable name) = none)
      (hshared : lookup s.sharedVariable = none) :
      Settles lookup name s (.ok ⟨s.standardBits, .standard⟩)
        [s.scopedVariable name, s.sharedVariable]

/-- What becomes of a configuration. The second setting is not looked at if the first is refused. -/
inductive Resolves (lookup : String → Option String) (name : String) :
    Except ConfigError Config → List String → Prop where
  | ok {chunk index : Width} {asked more : List String}
      (hchunk : Settles lookup name .chunkBit (.ok chunk) asked)
      (hindex : Settles lookup name .classIndexBit (.ok index) more) :
      Resolves lookup name (.ok ⟨name, chunk, index⟩) (asked ++ more)
  | first {e : ConfigError} {asked : List String}
      (hchunk : Settles lookup name .chunkBit (.error e) asked) :
      Resolves lookup name (.error e) asked
  | second {chunk : Width} {e : ConfigError} {asked more : List String}
      (hchunk : Settles lookup name .chunkBit (.ok chunk) asked)
      (hindex : Settles lookup name .classIndexBit (.error e) more) :
      Resolves lookup name (.error e) (asked ++ more)

variable {lookup : String → Option String} {name : String} {s : Setting} {var raw : String}
  {asked : List String} {n : Nat}

/-! ### Reading one setting -/

theorem readWidth_of_denotes (h : Governs lookup name s var raw asked)
    (hn : Numeral.Denotes raw.toList n) :
    readWidth lookup (variableNames name s) = (.ok (some ⟨n, .variable var⟩), asked) := by
  rw [← Numeral.read?_trim_eq_some_iff] at hn
  cases h with
  | own h => simp only [variableNames, readWidth, h, hn]
  | shared habsent h => simp only [variableNames, readWidth, habsent, h, hn]

theorem readWidth_of_not_denotes (h : Governs lookup name s var raw asked)
    (hn : ∀ n, ¬ Numeral.Denotes raw.toList n) :
    readWidth lookup (variableNames name s) = (.error (.invalidValue var raw), asked) := by
  have hread : Numeral.read? (Blank.trim raw.toList) = none :=
    Option.eq_none_iff_forall_ne_some.2 fun n hn' => hn n (Numeral.read?_trim_eq_some_iff.1 hn')
  cases h with
  | own h => simp only [variableNames, readWidth, h, hread]
  | shared habsent h => simp only [variableNames, readWidth, habsent, h, hread]

theorem readWidth_of_absent (hown : lookup (s.scopedVariable name) = none)
    (hshared : lookup s.sharedVariable = none) :
    readWidth lookup (variableNames name s) =
      (.ok none, [s.scopedVariable name, s.sharedVariable]) := by
  simp only [variableNames, readWidth, hown, hshared]

theorem readWidth_of_settles_ok {w : Width} (h : Settles lookup name s (.ok w) asked) :
    ∃ o, readWidth lookup (variableNames name s) = (.ok o, asked) ∧
      o.getD ⟨s.standardBits, .standard⟩ = w := by
  cases h with
  | value h hn => exact ⟨_, readWidth_of_denotes h hn, rfl⟩
  | standard hown hshared => exact ⟨none, readWidth_of_absent hown hshared, rfl⟩

theorem readWidth_of_settles_error {e : ConfigError} (h : Settles lookup name s (.error e) asked) :
    readWidth lookup (variableNames name s) = (.error e, asked) := by
  cases h with
  | invalid h hn => exact readWidth_of_not_denotes h hn

theorem exists_settles_of_governs (h : Governs lookup name s var raw asked) :
    ∃ r, Settles lookup name s r asked := by
  by_cases hn : ∃ n, Numeral.Denotes raw.toList n
  · obtain ⟨n, hn⟩ := hn
    exact ⟨_, .value h hn⟩
  · exact ⟨_, .invalid h (not_exists.1 hn)⟩

theorem exists_settles (lookup : String → Option String) (name : String) (s : Setting) :
    ∃ r asked, Settles lookup name s r asked := by
  cases hown : lookup (s.scopedVariable name) with
  | some raw =>
    obtain ⟨r, hr⟩ := exists_settles_of_governs (.own hown)
    exact ⟨r, _, hr⟩
  | none =>
    cases hshared : lookup s.sharedVariable with
    | some raw =>
      obtain ⟨r, hr⟩ := exists_settles_of_governs (.shared hown hshared)
      exact ⟨r, _, hr⟩
    | none => exact ⟨_, _, .standard hown hshared⟩

/-! ### Both settings -/

theorem ofLookup_of_resolves {r : Except ConfigError Config} (h : Resolves lookup name r asked) :
    ofLookup name lookup = (r, asked) := by
  cases h with
  | ok hchunk hindex =>
    obtain ⟨chunk, hc, rfl⟩ := readWidth_of_settles_ok hchunk
    obtain ⟨index, hi, rfl⟩ := readWidth_of_settles_ok hindex
    simp only [ofLookup, hc, hi]
    rfl
  | first hchunk => simp only [ofLookup, readWidth_of_settles_error hchunk]
  | second hchunk hindex =>
    obtain ⟨chunk, hc, -⟩ := readWidth_of_settles_ok hchunk
    simp only [ofLookup, hc, readWidth_of_settles_error hindex]

theorem exists_resolves (lookup : String → Option String) (name : String) :
    ∃ r asked, Resolves lookup name r asked := by
  obtain ⟨e | chunk, asked, hchunk⟩ := exists_settles lookup name .chunkBit
  · exact ⟨_, _, .first hchunk⟩
  · obtain ⟨e | index, more, hindex⟩ := exists_settles lookup name .classIndexBit
    · exact ⟨_, _, .second hchunk hindex⟩
    · exact ⟨_, _, .ok hchunk hindex⟩

/-- Making a configuration follows the rules. -/
theorem ofLookup_eq_iff {r : Except ConfigError Config} :
    ofLookup name lookup = (r, asked) ↔ Resolves lookup name r asked := by
  refine ⟨fun h => ?_, ofLookup_of_resolves⟩
  obtain ⟨r', asked', h'⟩ := exists_resolves lookup name
  rw [ofLookup_of_resolves h'] at h
  cases h
  exact h'

theorem exists_resolves_of_ofLookup {r : Except ConfigError Config}
    (h : (ofLookup name lookup).1 = r) : ∃ asked, Resolves lookup name r asked :=
  ⟨_, ofLookup_eq_iff.1 (Prod.ext h rfl)⟩

/-- A setting is refused over a variable: that one decides it, and its text is no numeral. -/
def Refuses (lookup : String → Option String) (name : String) (s : Setting) (var raw : String) :
    Prop :=
  ∃ asked, Governs lookup name s var raw asked ∧ ∀ n, ¬ Numeral.Denotes raw.toList n

theorem not_refuses_of_settles_ok {w : Width} (h : Settles lookup name s (.ok w) asked)
    (var raw : String) : ¬ Refuses lookup name s var raw := by
  rintro ⟨asked', hg, hn⟩
  obtain ⟨o, ho, -⟩ := readWidth_of_settles_ok h
  rw [readWidth_of_not_denotes hg hn] at ho
  cases ho

theorem exists_refuses_of_settles_error {e : ConfigError}
    (h : Settles lookup name s (.error e) asked) :
    ∃ var raw, e = .invalidValue var raw ∧ Refuses lookup name s var raw := by
  cases h with
  | invalid h hn => exact ⟨_, _, rfl, asked, h, hn⟩

theorem ofLookup_eq_error_iff {e : ConfigError} : (ofLookup name lookup).1 = .error e ↔
    ∃ var raw, e = .invalidValue var raw ∧ (Refuses lookup name .chunkBit var raw ∨
      (∀ v r, ¬ Refuses lookup name .chunkBit v r) ∧
        Refuses lookup name .classIndexBit var raw) := by
  constructor
  · intro h
    obtain ⟨asked, hr⟩ := exists_resolves_of_ofLookup h
    cases hr with
    | first hchunk =>
      obtain ⟨var, raw, he, hrefuses⟩ := exists_refuses_of_settles_error hchunk
      exact ⟨var, raw, he, .inl hrefuses⟩
    | second hchunk hindex =>
      obtain ⟨var, raw, he, hrefuses⟩ := exists_refuses_of_settles_error hindex
      exact ⟨var, raw, he, .inr ⟨not_refuses_of_settles_ok hchunk, hrefuses⟩⟩
  · rintro ⟨var, raw, rfl, ⟨asked, hg, hn⟩ | ⟨hchunk, asked, hg, hn⟩⟩
    · rw [ofLookup_of_resolves (.first (.invalid hg hn))]
    · obtain ⟨e | w, _, hw⟩ := exists_settles lookup name .chunkBit
      · obtain ⟨v, r, -, hrefuses⟩ := exists_refuses_of_settles_error hw
        exact absurd hrefuses (hchunk v r)
      · rw [ofLookup_of_resolves (.second hw (.invalid hg hn))]

/-- A configuration follows the rules, and it is refused exactly over the first setting that is. The
variable of a repository is spelled with its name in capital letters, all separators alike. -/
structure Follows (lookup : String → Option String) (name : String) : Prop where
  resolves : ∀ r asked, ofLookup name lookup = (r, asked) ↔ Resolves lookup name r asked
  refused : ∀ e, (ofLookup name lookup).1 = .error e ↔
    ∃ var raw, e = .invalidValue var raw ∧ (Refuses lookup name .chunkBit var raw ∨
      (∀ v r, ¬ Refuses lookup name .chunkBit v r) ∧ Refuses lookup name .classIndexBit var raw)
  numeral : ∀ (raw : String) (n : Nat),
    Numeral.read? (Blank.trim raw.toList) = some n ↔ Numeral.Denotes raw.toList n
  own : ∀ s : Setting, s.scopedVariable name =
    "RUSTY_POOL_" ++ String.ofList ((Name.joined name).toList.map Char.toUpper) ++ "_" ++ s.key
  shared : ∀ s : Setting, s.sharedVariable = "RUSTY_POOL_" ++ s.key

/-- Whatever name is given and whatever the variables hold, the configuration follows the rules. -/
theorem follows_of_lookup (supply : Name.Supply) (given : String)
    (lookup : String → Option String) : Follows lookup (Name.normalize supply given).1 where
  resolves _ _ := ofLookup_eq_iff
  refused _ := ofLookup_eq_error_iff
  numeral _ _ := Numeral.read?_trim_eq_some_iff
  own s := s.scopedVariable_eq _
  shared _ := rfl

/-- A bad value of the repository's own variable is not made good by the shared one, which is not
even asked for. -/
example : ofLookup "my-world"
    (fun var => if var = "RUSTY_POOL_MY_WORLD_CHUNK_BIT" then some " -0" else some "8") =
      (.error (.invalidValue "RUSTY_POOL_MY_WORLD_CHUNK_BIT" " -0"),
        ["RUSTY_POOL_MY_WORLD_CHUNK_BIT"]) := by
  decide +kernel

end Config
end EntityStore
