import EntityStore.Config.Name
import EntityStore.ClassIndex
import EntityStore.Text.Blank
import EntityStore.Text.Numeral

/-! The configuration of a repository: its name and two bit widths. A width is read from the
variable of the repository if that is present, or else from the one that all share. -/

namespace EntityStore

inductive Source where
  | standard
  | explicit
  | variable (name : String)
  deriving DecidableEq, Repr

/-- How the summary tells where a width comes from; a standard one names the variable to set. -/
def Source.hint (var : String) : Source → String
  | .standard => " (set env '" ++ var ++ "')"
  | .explicit => ""
  | .variable name => " (from env '" ++ name ++ "')"

inductive Setting where
  | chunkBit
  | classIndexBit
  deriving DecidableEq, Repr

namespace Setting

def key : Setting → String
  | chunkBit => "CHUNK_BIT"
  | classIndexBit => "CLASS_INDEX_BIT"

def label : Setting → String
  | chunkBit => "chunk bit"
  | classIndexBit => "class index bit"

/-- The part of a variable's name that stands for a repository. -/
def scope (name : String) : String :=
  String.ofList (name.toList.map fun c => if c = '-' ∨ c = '.' then '_' else c.toUpper)

def scopedVariable (s : Setting) (name : String) : String :=
  "RUSTY_POOL_" ++ scope name ++ "_" ++ s.key

def sharedVariable (s : Setting) : String := "RUSTY_POOL_" ++ s.key

end Setting

structure Width where
  bits : Nat
  source : Source
  deriving DecidableEq, Repr

structure Config where
  name : String
  chunkBit : Width := ⟨IdSchema.standard.chunkBit, .standard⟩
  classIndexBit : Width := ⟨ClassIndex.defaultHashBits, .standard⟩
  deriving DecidableEq, Repr

namespace Config

/-- Reads a width from the first of some variables that is present. The second part lists the
variables that were looked up. -/
def readWidth (lookup : String → Option String) :
    List String → Except ConfigError (Option Width) × List String
  | [] => (.ok none, [])
  | var :: vars =>
    match lookup var with
    | none =>
      let (width, asked) := readWidth lookup vars
      (width, var :: asked)
    | some raw =>
      match Numeral.read? (Blank.trim raw.toList) with
      | some bits => (.ok (some ⟨bits, .variable var⟩), [var])
      | none => (.error (.invalidValue var raw), [var])

/-- The variables that can hold a setting, the one that wins first. -/
def variableNames (name : String) (s : Setting) : List String :=
  [s.scopedVariable name, s.sharedVariable]

/-- The configuration under a normalized name that variables give, and the variables looked up. -/
def ofLookup (name : String) (lookup : String → Option String) :
    Except ConfigError Config × List String :=
  match readWidth lookup (variableNames name .chunkBit) with
  | (.error e, asked) => (.error e, asked)
  | (.ok chunk, asked) =>
    match readWidth lookup (variableNames name .classIndexBit) with
    | (.error e, more) => (.error e, asked ++ more)
    | (.ok index, more) =>
      let base : Config := { name }
      (.ok { name, chunkBit := chunk.getD base.chunkBit,
             classIndexBit := index.getD base.classIndexBit }, asked ++ more)

def withChunkBit (c : Config) (bits : Nat) : Config := { c with chunkBit := ⟨bits, .explicit⟩ }

def withClassIndexBit (c : Config) (bits : Nat) : Config :=
  { c with classIndexBit := ⟨bits, .explicit⟩ }

def idSchema (c : Config) : Except ConfigError IdSchema := IdSchema.ofChunkBit c.chunkBit.bits

def classIndex (κ : Type) (c : Config) : Except ConfigError (ClassIndex κ × List Event) :=
  ClassIndex.create c.classIndexBit.bits

def validate (c : Config) : Except ConfigError Unit := do
  let _ ← c.idSchema
  let bits := c.classIndexBit.bits
  if ClassIndex.minHashBits ≤ bits ∧ bits ≤ ClassIndex.maxHashBits then return ()
  else throw (.hashBitOutOfRange bits ClassIndex.minHashBits ClassIndex.maxHashBits)

def width (c : Config) : Setting → Width
  | .chunkBit => c.chunkBit
  | .classIndexBit => c.classIndexBit

def settingLine (c : Config) (s : Setting) : String :=
  "  " ++ s.label ++ s!": {(c.width s).bits}" ++
    (c.width s).source.hint (s.scopedVariable c.name)

def summary (c : Config) : String :=
  "Pool '" ++ c.name ++ "'\n" ++ c.settingLine .chunkBit ++ "\n" ++ c.settingLine .classIndexBit

end Config
end EntityStore
