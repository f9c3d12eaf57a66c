import EntityStore.Proofs.Identifier
import Mathlib.Data.Nat.Bitwise
import Mathlib.Data.Set.Function

/-! Identifiers as words of bits. Packing a chunk index and an offset is a bijection onto the words
without the tag that keeps the order, and unpacking is its inverse. Whatever does not fit into a
field is cut off in a build without assertions, and stops one that has them. Masks and shifts pack
and unpack in the same way. -/

namespace EntityStore.IdSchema

/-- The chunk indices and offsets that fit into their fields. -/
def addresses (s : IdSchema) : Set (Nat × Nat) := {p | s.Fits p.1 p.2}

def untagged : Set UInt32 := {id | id.toNat < detachedBit}

/-- The word in which only the detached tag is set. -/
def tag : UInt32 := .ofNat detachedBit

/-- The word in which a number of bits is set, from the lowest one on. -/
def lowBits (width : Nat) : UInt32 := .ofNat (1 <<< width - 1)

def chunkMask (s : IdSchema) : UInt32 := lowBits (addressBits - s.chunkBit)

def offsetMask (s : IdSchema) : UInt32 := lowBits s.chunkBit

def pack (s : IdSchema) (chunk offset : UInt32) : UInt32 :=
  ((chunk &&& s.chunkMask) <<< .ofNat s.chunkBit) ||| (offset &&& s.offsetMask)

def unpack (s : IdSchema) (id : UInt32) : UInt32 × UInt32 :=
  ((id >>> .ofNat s.chunkBit) &&& s.chunkMask, id &&& s.offsetMask)

variable (s : IdSchema) {b : Build} {chunk offset : Nat} {id : UInt32}

/-! ### Addresses and identifiers -/

theorem encode_mem_untagged (chunk offset : Nat) : s.encode chunk offset ∈ untagged :=
  toNat_lt_of_not_isDetached (s.isDetached_encode chunk offset)

theorem decode_mem_addresses (id : UInt32) : s.decode id ∈ s.addresses :=
  ⟨s.decode_fst_lt id, s.decode_snd_lt id⟩

theorem decode_invOn : Set.InvOn s.decode (fun p => s.encode p.1 p.2) s.addresses untagged :=
  ⟨fun _ hp => s.decode_encode hp.1 hp.2,
    fun _ hid => s.encode_decode (not_isDetached_of_toNat_lt hid)⟩

theorem encode_bijOn : Set.BijOn (fun p : Nat × Nat => s.encode p.1 p.2) s.addresses untagged :=
  s.decode_invOn.bijOn (fun p _ => s.encode_mem_untagged p.1 p.2)
    fun id _ => s.decode_mem_addresses id

variable {s} in
theorem encode_lt_of_lex {p q : Nat × Nat} (hp : p ∈ s.addresses) (hq : q ∈ s.addresses)
    (h : Prod.Lex (· < ·) (· < ·) p q) : s.encode p.1 p.2 < s.encode q.1 q.2 := by
  refine s.lt_of_decode (s.isDetached_encode ..) (s.isDetached_encode ..) ?_
  rwa [s.decode_encode hp.1 hp.2, s.decode_encode hq.1 hq.2]

theorem encode_mod (chunk offset : Nat) :
    s.encode chunk offset = s.encode (chunk % s.maxChunks) (offset % s.capacity) := by
  apply UInt32.toNat_inj.1
  rw [toNat_encode, toNat_encode, Nat.mod_mod, Nat.mod_mod]

/-! ### Builds -/

variable {s} in
theorem encodeIn_of_fits (b : Build) (h : s.Fits chunk offset) :
    s.encodeIn b chunk offset = some (s.encode chunk offset) := by
  cases b with
  | debug => exact if_pos h
  | release => rfl

variable {s} in
theorem eq_encode_of_encodeIn (h : s.encodeIn b chunk offset = some id) :
    id = s.encode chunk offset := by
  cases b with
  | debug => exact (Option.some.inj (Option.ite_none_right_eq_some.1 h).2).symm
  | release => exact (Option.some.inj h).symm

theorem isSome_encodeIn_debug (chunk offset : Nat) :
    (s.encodeIn .debug chunk offset).isSome ↔ (chunk, offset) ∈ s.addresses :=
  Option.isSome_ite

theorem fits_mod (chunk offset : Nat) : s.Fits (chunk % s.maxChunks) (offset % s.capacity) :=
  ⟨Nat.mod_lt _ s.maxChunks_pos, Nat.mod_lt _ s.capacity_pos⟩

/-- Without assertions any pair is encoded as its remainders are with them. -/
theorem encodeIn_release_eq_debug (chunk offset : Nat) : s.encodeIn .release chunk offset =
    s.encodeIn .debug (chunk % s.maxChunks) (offset % s.capacity) := by
  rw [encodeIn_of_fits .debug (s.fits_mod chunk offset), ← encode_mod]
  rfl

variable {s} in
theorem not_isDetached_of_encodeIn (h : s.encodeIn b chunk offset = some id) :
    isDetached id = false := by
  rw [eq_encode_of_encodeIn h]
  exact s.isDetached_encode chunk offset

/-! ### The tag -/

theorem address_detach (id : UInt32) : address (detach id) = address id := by
  rw [address, toNat_detach, Nat.add_mod_left, Nat.mod_eq_of_lt (address_lt id)]

theorem decode_detach (id : UInt32) : s.decode (detach id) = s.decode id := by
  unfold decode
  rw [address_detach]

/-! ### Masks and shifts -/

theorem toNat_lowBits {width : Nat} (h : width ≤ addressBits) :
    (lowBits width).toNat = 1 <<< width - 1 := by
  have hle : 1 <<< width ≤ 1 <<< addressBits := by
    rw [Nat.one_shiftLeft, Nat.one_shiftLeft]
    exact Nat.pow_le_pow_right (by decide) h
  exact UInt32.toNat_ofNat_of_lt'
    (Nat.lt_of_le_of_lt (Nat.sub_le ..) (Nat.lt_of_le_of_lt hle (by decide)))

theorem toNat_and_lowBits (a : UInt32) {width : Nat} (h : width ≤ addressBits) :
    (a &&& lowBits width).toNat = a.toNat % (1 <<< width) := by
  rw [UInt32.toNat_and, toNat_lowBits h, Nat.one_shiftLeft, Nat.and_two_pow_sub_one_eq_mod]

theorem chunkBit_le : s.chunkBit ≤ addressBits := Nat.le_trans s.le_sixteen (by decide)

theorem toNat_and_offsetMask (offset : UInt32) :
    (offset &&& s.offsetMask).toNat = offset.toNat % s.capacity :=
  toNat_and_lowBits offset s.chunkBit_le

theorem toNat_and_chunkMask (chunk : UInt32) :
    (chunk &&& s.chunkMask).toNat = chunk.toNat % s.maxChunks :=
  toNat_and_lowBits chunk (Nat.sub_le ..)

theorem toNat_ofNat_chunkBit : (UInt32.ofNat s.chunkBit).toNat % 32 = s.chunkBit := by
  have hlt : s.chunkBit < 32 := Nat.lt_of_le_of_lt s.le_sixteen (by decide)
  rw [UInt32.toNat_ofNat_of_lt' (Nat.lt_trans hlt (by decide)), Nat.mod_eq_of_lt hlt]

theorem toNat_pack (chunk offset : UInt32) : (s.pack chunk offset).toNat =
    chunk.toNat % s.maxChunks * s.capacity + offset.toNat % s.capacity := by
  have hlt := s.packed_lt chunk.toNat offset.toNat
  have hoffset : offset.toNat % s.capacity < 2 ^ s.chunkBit := by
    rw [← Nat.one_shiftLeft]
    exact Nat.mod_lt _ s.capacity_pos
  have hmul : chunk.toNat % s.maxChunks * s.capacity =
      (chunk.toNat % s.maxChunks) <<< s.chunkBit := by
    rw [Nat.shiftLeft_eq, capacity, Nat.one_shiftLeft]
  -- The shifted index keeps all its bits, and the lowest ones are free for the offset.
  have hshift : (chunk.toNat % s.maxChunks) <<< s.chunkBit < UInt32.size := by
    rw [← hmul]
    exact Nat.lt_of_le_of_lt (Nat.le_add_right ..) (Nat.lt_trans hlt (by decide))
  rw [pack, UInt32.toNat_or, UInt32.toNat_shiftLeft, toNat_and_chunkMask, toNat_and_offsetMask,
    toNat_ofNat_chunkBit, Nat.mod_eq_of_lt hshift, ← Nat.shiftLeft_add_eq_or_of_lt hoffset, hmul]

theorem encode_eq_pack (chunk offset : UInt32) :
    s.encode chunk.toNat offset.toNat = s.pack chunk offset := by
  apply UInt32.toNat_inj.1
  rw [toNat_encode, toNat_pack]

theorem le_lowBits_iff (a : UInt32) {width : Nat} (h : width ≤ addressBits) :
    a ≤ lowBits width ↔ a.toNat < 1 <<< width := by
  have hpos : 0 < 1 <<< width := by
    rw [Nat.one_shiftLeft]
    exact Nat.two_pow_pos _
  rw [UInt32.le_iff_toNat_le, toNat_lowBits h]
  exact Nat.le_sub_one_iff_lt hpos

theorem fits_iff_le_masks (chunk offset : UInt32) :
    s.Fits chunk.toNat offset.toNat ↔ chunk ≤ s.chunkMask ∧ offset ≤ s.offsetMask :=
  and_congr (le_lowBits_iff chunk (Nat.sub_le ..)).symm (le_lowBits_iff offset s.chunkBit_le).symm

theorem encodeIn_debug_eq_pack (chunk offset : UInt32) :
    s.encodeIn .debug chunk.toNat offset.toNat =
      if chunk ≤ s.chunkMask ∧ offset ≤ s.offsetMask then some (s.pack chunk offset) else none := by
  unfold encodeIn
  simp only [s.fits_iff_le_masks, s.encode_eq_pack]

theorem encodeIn_release_eq_pack (chunk offset : UInt32) :
    s.encodeIn .release chunk.toNat offset.toNat = some (s.pack chunk offset) :=
  congrArg some (s.encode_eq_pack chunk offset)

theorem decode_eq_unpack (id : UInt32) :
    s.decode id = ((s.unpack id).1.toNat, (s.unpack id).2.toNat) := by
  have hchunk : (s.unpack id).1.toNat = id.toNat / s.capacity % s.maxChunks := by
    show ((id >>> .ofNat s.chunkBit) &&& s.chunkMask).toNat = _
    rw [toNat_and_chunkMask, UInt32.toNat_shiftRight, toNat_ofNat_chunkBit,
      Nat.shiftRight_eq_div_pow, capacity, Nat.one_shiftLeft]
  have hoffset : (s.unpack id).2.toNat = id.toNat % s.capacity := s.toNat_and_offsetMask id
  rw [hchunk, hoffset, decode, address, ← s.maxChunks_mul_capacity, Nat.mul_comm,
    Nat.mod_mul_right_div_self, Nat.mod_mul_right_mod]

theorem isDetached_eq_testBit (id : UInt32) : isDetached id = id.toNat.testBit addressBits := by
  have hlt : id.toNat < detachedBit * 2 := id.toNat_lt
  rw [isDetached, Nat.testBit_eq_decide_div_mod_eq, ← Nat.one_shiftLeft, decide_eq_decide]
  show _ ↔ id.toNat / detachedBit % 2 = 1
  rw [Nat.mod_eq_of_lt (Nat.div_lt_of_lt_mul hlt)]
  constructor
  · intro hle
    exact Nat.div_eq_of_lt_le (by rwa [Nat.one_mul]) (by rwa [Nat.mul_comm])
  · intro hone
    exact Nat.le_of_not_lt fun h => absurd (Nat.div_eq_of_lt h) (hone ▸ Nat.one_ne_zero)

theorem isDetached_iff_and_tag (id : UInt32) : isDetached id = true ↔ id &&& tag ≠ 0 := by
  have hand : (id &&& tag).toNat = (id.toNat.testBit addressBits).toNat * detachedBit := by
    rw [UInt32.toNat_and, show tag.toNat = detachedBit from rfl, detachedBit, Nat.one_shiftLeft,
      Nat.and_two_pow]
  rw [isDetached_eq_testBit, ne_eq, ← UInt32.toNat_inj, hand]
  cases id.toNat.testBit addressBits <;> decide

theorem detach_eq_or_tag (id : UInt32) : detach id = id ||| tag := by
  have hlt : address id < 2 ^ addressBits := by
    rw [← Nat.one_shiftLeft]
    exact address_lt id
  have hdetach : detachedBit + address id = 2 ^ addressBits ||| address id := by
    have h := Nat.two_pow_add_eq_or_of_lt hlt 1
    rw [Nat.mul_one] at h
    rw [detachedBit, Nat.one_shiftLeft, h]
  apply UInt32.toNat_inj.1
  rw [toNat_detach, UInt32.toNat_or, show tag.toNat = detachedBit from rfl, hdetach, address,
    detachedBit, Nat.one_shiftLeft]
  refine Nat.eq_of_testBit_eq fun i => ?_
  rw [Nat.testBit_or, Nat.testBit_or, Nat.testBit_mod_two_pow, Nat.testBit_two_pow]
  rcases Nat.lt_trichotomy i addressBits with hi | rfl | hi
  · simp [hi, Nat.ne_of_gt hi]
  · simp
  · -- No word has a bit above the tag.
    have hword : id.toNat < 2 ^ i :=
      Nat.lt_of_lt_of_le id.toNat_lt (Nat.pow_le_pow_right (by decide) hi)
    simp [Nat.testBit_lt_two_pow hword, Nat.ne_of_lt hi]

theorem encode_decode_eq_and (id : UInt32) :
    s.encode (s.decode id).1 (s.decode id).2 = id &&& ~~~tag := by
  have htag : ~~~tag = lowBits addressBits := by decide
  apply UInt32.toNat_inj.1
  rw [htag, toNat_and_lowBits id (Nat.le_refl _), toNat_encode,
    Nat.mod_eq_of_lt (s.decode_fst_lt id), Nat.mod_eq_of_lt (s.decode_snd_lt id), Nat.mul_comm]
  exact Nat.div_add_mod (address id) s.capacity

/-- A layout packs addresses into identifiers: those in their ranges one to one and in their order,
all others by their remainders in a build without assertions, and not at all in one that has them.
Masks and shifts do the same. -/
structure Packs (s : IdSchema) : Prop where
  capacity : s.capacity = 1 <<< s.chunkBit
  maxChunks : s.maxChunks * s.capacity = detachedBit
  bijOn : Set.BijOn (fun p : Nat × Nat => s.encode p.1 p.2) s.addresses untagged
  invOn : Set.InvOn s.decode (fun p => s.encode p.1 p.2) s.addresses untagged
  lt_of_lex : ∀ p ∈ s.addresses, ∀ q ∈ s.addresses, Prod.Lex (· < ·) (· < ·) p q →
    s.encode p.1 p.2 < s.encode q.1 q.2
  encode_decode : ∀ id, s.encode (s.decode id).1 (s.decode id).2 = id &&& ~~~tag
  decode_detach : ∀ id, s.decode (detach id) = s.decode id
  encode_mod : ∀ chunk offset,
    s.encode chunk offset = s.encode (chunk % s.maxChunks) (offset % s.capacity)
  not_isDetached : ∀ chunk offset, isDetached (s.encode chunk offset) = false
  encode_bits : ∀ chunk offset : UInt32, s.encode chunk.toNat offset.toNat = s.pack chunk offset
  in_range : ∀ p ∈ s.addresses, ∀ b, s.encodeIn b p.1 p.2 = some (s.encode p.1 p.2)
  debug_iff : ∀ chunk offset,
    (s.encodeIn .debug chunk offset).isSome ↔ (chunk, offset) ∈ s.addresses
  debug_bits : ∀ chunk offset : UInt32, s.encodeIn .debug chunk.toNat offset.toNat =
    if chunk ≤ s.chunkMask ∧ offset ≤ s.offsetMask then some (s.pack chunk offset) else none
  release_mod : ∀ chunk offset, s.encodeIn .release chunk offset =
    s.encodeIn .debug (chunk % s.maxChunks) (offset % s.capacity)
  release_bits : ∀ chunk offset : UInt32,
    s.encodeIn .release chunk.toNat offset.toNat = some (s.pack chunk offset)
  untagged : ∀ b chunk offset id, s.encodeIn b chunk offset = some id → isDetached id = false
  decode_bits : ∀ id, s.decode id = ((s.unpack id).1.toNat, (s.unpack id).2.toNat)
  detach_bits : ∀ id, detach id = id ||| tag
  isDetached_bits : ∀ id, isDetached id = true ↔ id &&& tag ≠ 0

/-- Every width that is accepted makes a layout that packs addresses into identifiers. -/
theorem packs_of_ofChunkBit {bits : Nat} {s : IdSchema} (h : ofChunkBit bits = .ok s) :
    s.chunkBit = bits ∧ s.Packs := by
  have hbits : s.chunkBit = bits := by
    unfold ofChunkBit at h
    split at h
    · cases h
      rfl
    · cases h
  exact ⟨hbits,
    { capacity := rfl
      maxChunks := s.maxChunks_mul_capacity
      bijOn := s.encode_bijOn
      invOn := s.decode_invOn
      lt_of_lex := fun _ hp _ hq => encode_lt_of_lex hp hq
      encode_decode := s.encode_decode_eq_and
      decode_detach := s.decode_detach
      encode_mod := s.encode_mod
      not_isDetached := s.isDetached_encode
      encode_bits := s.encode_eq_pack
      in_range := fun _ hp b => encodeIn_of_fits b hp
      debug_iff := s.isSome_encodeIn_debug
      debug_bits := s.encodeIn_debug_eq_pack
      release_mod := s.encodeIn_release_eq_debug
      release_bits := s.encodeIn_release_eq_pack
      untagged := fun _ _ _ _ h => not_isDetached_of_encodeIn h
      decode_bits := s.decode_eq_unpack
      detach_bits := detach_eq_or_tag
      isDetached_bits := isDetached_iff_and_tag }⟩

/-- The least width, at which a chunk has four slots. -/
theorem packs_of_ofChunkBit_two :
    ofChunkBit 2 = .ok ⟨2, by decide, by decide⟩ ∧ Packs ⟨2, by decide, by decide⟩ := by
  have h : ofChunkBit 2 = .ok ⟨2, by decide, by decide⟩ := rfl
  exact ⟨h, (packs_of_ofChunkBit h).2⟩

end EntityStore.IdSchema
