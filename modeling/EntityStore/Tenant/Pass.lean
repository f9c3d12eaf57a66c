import EntityStore.Tenant.Basic

/-! Going through a tenant. The whole lists show it at one moment; a pass asks for one entry at a
time while the tenant may change between the questions. Passes enter the chunks by index and not
by their links, so that a chunk which is linked again in another place cuts no pass short. -/

namespace EntityStore

namespace Tenant

/-- All chunks that can be found, by index. -/
def openChunks (t : Tenant) : List Chunk := if t.closed then [] else t.chunks.toList

def items (t : Tenant) : List ItemId := t.openChunks.flatMap (·.items)

def idsIn (t : Tenant) (c : Chunk) : List UInt32 := c.allocated.map (t.schema.encode c.index)

def positions (t : Tenant) : List UInt32 := t.openChunks.flatMap t.idsIn

/-- The chunk that a pass enters next, unless it has been through all. -/
def chunkAfter? (t : Tenant) (following : Nat) : Option Chunk :=
  if following < t.chunkCount then t.chunk? following else none

theorem lt_of_chunkAfter? {t : Tenant} {following : Nat} {c : Chunk}
    (h : t.chunkAfter? following = some c) : following < t.chunkCount := by
  unfold chunkAfter? at h
  split at h
  · assumption
  · cases h

end Tenant

structure ItemPass where
  following : Nat := 0
  standing : Option Nat := none
  within : ChunkPass := ⟨0, 0⟩
  deriving DecidableEq, Repr

namespace ItemPass

/-- Goes on in the chunk that the pass stands on, which it holds even when the tenant is closed. -/
def stay (p : ItemPass) (t : Tenant) : Option ItemId × ItemPass :=
  match p.standing.bind t.heldChunk? with
  | none => (none, p)
  | some c =>
    let (item, within) := p.within.next c
    (item, { p with within })

/-- Enters the next chunk, up to its high-water mark at this moment. -/
def enter? (p : ItemPass) (t : Tenant) : Option ItemPass :=
  (t.chunkAfter? p.following).map fun c =>
    { following := p.following + 1, standing := some p.following, within := .start c }

theorem lt_of_enter? {p q : ItemPass} {t : Tenant} (h : p.enter? t = some q) :
    p.following < t.chunkCount ∧ q.following = p.following + 1 := by
  obtain ⟨c, hc, rfl⟩ := Option.map_eq_some_iff.1 h
  exact ⟨Tenant.lt_of_chunkAfter? hc, rfl⟩

theorem following_stay (p : ItemPass) (t : Tenant) : (p.stay t).2.following = p.following := by
  unfold stay
  split <;> rfl

/-- The next registered item. After the end the pass may be asked again. -/
def next (p : ItemPass) (t : Tenant) : Option ItemId × ItemPass :=
  match _hs : p.stay t with
  | (some item, q) => (some item, q)
  | (none, q) =>
    match _he : q.enter? t with
    | none => (none, q)
    | some r => r.next t
termination_by t.chunkCount - p.following
decreasing_by
  have := lt_of_enter? _he
  have := following_stay p t
  simp only [_hs] at this
  omega

end ItemPass

structure IdPass where
  following : Nat := 0
  /-- The identifiers still to come of the chunk that was entered last, as they were then. -/
  pending : List UInt32 := []
  deriving DecidableEq, Repr

namespace IdPass

def enter? (p : IdPass) (t : Tenant) : Option IdPass :=
  (t.chunkAfter? p.following).map fun c => { following := p.following + 1, pending := t.idsIn c }

theorem lt_of_enter? {p q : IdPass} {t : Tenant} (h : p.enter? t = some q) :
    p.following < t.chunkCount ∧ q.following = p.following + 1 := by
  obtain ⟨c, hc, rfl⟩ := Option.map_eq_some_iff.1 h
  exact ⟨Tenant.lt_of_chunkAfter? hc, rfl⟩

def next (p : IdPass) (t : Tenant) : Option UInt32 × IdPass :=
  match p.pending with
  | id :: pending => (some id, { p with pending })
  | [] =>
    match _h : p.enter? t with
    | none => (none, p)
    | some q => q.next t
termination_by t.chunkCount - p.following
decreasing_by
  have := lt_of_enter? _h
  omega

end IdPass
end EntityStore
