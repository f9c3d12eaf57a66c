import EntityStore.Identifier

/-! What the store reports while it works. Each event has a level and a message. -/

namespace EntityStore

inductive Level where
  | trace | debug | info | warn
  deriving DecidableEq, Repr

def Level.name : Level → String
  | trace => "TRACE"
  | debug => "DEBUG"
  | info => "INFO"
  | warn => "WARN"

inductive Event where
  | registered (tenant id : UInt32)
  /-- A chunk became the tail of the chain. -/
  | chunkLinked (tenant : UInt32) (chunk chunks : Nat)
  | detachedRefused (tenant id : UInt32)
  | freeFailed (tenant id : UInt32) (cause : SlotError)
  | foreignRefused (tenant id : UInt32)
  /-- A drained chunk left the chain. -/
  | chunkParked (tenant : UInt32) (chunk : Nat)
  | tenantClosed (tenant : UInt32)
  | tenantCreated (tenant : UInt32) (schema : IdSchema)
  | poolClosed
  | indexCreated (slots : Nat)
  /-- Two keys with codes share a raw slot; `codes` counts the new one too. -/
  | slotCollision (slot : Nat) (codes : UInt32)
  | indexClosed
  | repositoryOpened (summary : String)
  | compositionCreated (hash : UInt64) (types : Nat) (tenant : UInt32)
  deriving DecidableEq, Repr

namespace Event

def level : Event → Level
  | registered .. => .trace
  | detachedRefused .. | freeFailed .. | foreignRefused .. | slotCollision .. => .warn
  | repositoryOpened .. => .info
  | chunkLinked .. | chunkParked .. | tenantClosed .. | tenantCreated .. | poolClosed
  | indexCreated .. | indexClosed | compositionCreated .. => .debug

def message : Event → String
  | registered t id => s!"tenant {t} registered " ++ Hex.tagged id.toNat
  | chunkLinked t chunk chunks => s!"tenant {t} linked chunk {chunk} ({chunks} chunks)"
  | detachedRefused t id => s!"tenant {t} refused to free detached id " ++ Hex.tagged id.toNat
  | freeFailed t id cause =>
    s!"tenant {t} failed to free " ++ Hex.tagged id.toNat ++ ": " ++ cause.name
  | foreignRefused t id => s!"tenant {t} refused to free foreign item " ++ Hex.tagged id.toNat
  | chunkParked t chunk => s!"tenant {t} parked drained chunk {chunk}"
  | tenantClosed t => s!"tenant {t} closed"
  | tenantCreated t schema => s!"created tenant {t} with " ++ schema.summary
  | poolClosed => "pool closed"
  | indexCreated slots => s!"class index raw table with {slots} slots"
  | slotCollision slot codes =>
    s!"class index collision at raw slot {slot} with {codes} codes assigned, " ++
      "using exact map from now on"
  | indexClosed => "class index closed"
  | repositoryOpened summary => summary
  | compositionCreated hash types t =>
    "composition " ++ Hex.tagged hash.toNat ++ s!" with {types} component types on tenant {t}"

end Event

/-- What an operation leads to: the state after it, its answer and the events it reports. -/
structure Outcome (σ ρ : Type) where
  state : σ
  result : ρ
  log : List Event := []

namespace Outcome
variable {σ ρ τ : Type}

def map (f : ρ → τ) (o : Outcome σ ρ) : Outcome σ τ := ⟨o.state, f o.result, o.log⟩

/-- Puts events in front of those of an operation that came later. -/
def after (log : List Event) (o : Outcome σ ρ) : Outcome σ ρ := { o with log := log ++ o.log }

end Outcome
end EntityStore
