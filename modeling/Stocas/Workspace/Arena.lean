import Mathlib.Data.UInt
import Mathlib.Data.Nat.Bitwise
import Stocas.Library.Run

namespace SymbolTable.Arena

/-!
# The bump-allocator arena

`allocate` hands out offsets into a growing vector of chunks and `reset`
rewinds all chunks at once.  Sizes and offsets are 64-bit `std::size_t`
values, so every sum below may wrap.  A chunk's bytes are not modelled: a
handed-out block is identified by its chunk, its offset and its size.
-/

/-- `kChunkSize`: the capacity of an ordinary chunk. -/
def kChunkSize : UInt64 := 64 * 1024

/-- `align_up`: the next multiple of a power-of-two alignment, in `size_t`. -/
def alignUp (offset alignment : UInt64) : UInt64 :=
  (offset + alignment - 1) &&& ~~~(alignment - 1)

/-- One chunk of the arena; the owned bytes are left out. -/
structure Chunk where
  capacity : UInt64
  used : UInt64
  deriving Repr, DecidableEq

/-- The chunks in creation order and the cursor into them. -/
structure Workspace where
  chunks : List Chunk
  activeChunk : Nat
  deriving Repr, DecidableEq

/-- A workspace before its first allocation. -/
def Workspace.initial : Workspace where
  chunks := []
  activeChunk := 0

/-- `PTRDIFF_MAX`, the largest size of an object. -/
def ptrdiffMax : UInt64 := 0x7fffffffffffffff

/--
`std::make_unique<std::byte[]>(capacity)`.  The array is refused when the heap
does not grant it, and always above the largest object size.
-/
def newChunk? (granted : Bool) (capacity : UInt64) : Option Chunk :=
  if granted ∧ capacity ≤ ptrdiffMax then
    some { capacity := capacity, used := 0 }
  else
    none

/-- `std::max(kChunkSize, size + alignment)`: the capacity of a new chunk. -/
def newCapacity (size alignment : UInt64) : UInt64 :=
  if kChunkSize < size + alignment then size + alignment else kChunkSize

/-- The end of `current_chunk_for`, which grows the arena by one chunk. -/
def appendChunk
    (workspace : Workspace)
    (size alignment : UInt64)
    (granted : Bool) :
    Workspace × Option Nat :=
  match newChunk? granted (newCapacity size alignment) with
  | none => (workspace, none)
  | some chunk =>
      ({ workspace with chunks := workspace.chunks ++ [chunk] },
        some workspace.chunks.length)

/--
`Workspace::current_chunk_for`.  The result is the index of the selected chunk,
or `none` when the array allocation threw; the cursor has moved either way.
-/
def currentChunkFor
    (workspace : Workspace)
    (size alignment : UInt64)
    (granted : Bool) :
    Workspace × Option Nat :=
  match workspace.chunks[workspace.activeChunk]? with
  | none => appendChunk workspace size alignment granted
  | some chunk =>
      if alignUp chunk.used alignment + size ≤ chunk.capacity then
        (workspace, some workspace.activeChunk)
      else
        let advanced :=
          { workspace with activeChunk := workspace.activeChunk + 1 }
        if advanced.activeChunk < advanced.chunks.length then
          -- The next chunk is handed out without looking at its capacity.
          (advanced, some advanced.activeChunk)
        else
          appendChunk advanced size alignment granted

/-- A block of memory handed out by `allocate`. -/
structure Block where
  chunk : Nat
  offset : UInt64
  size : UInt64
  deriving Repr, DecidableEq

/-- `Workspace::allocate`; `none` stands for the propagated `bad_alloc`. -/
def allocate
    (workspace : Workspace)
    (size alignment : UInt64)
    (granted : Bool) :
    Workspace × Option Block :=
  match currentChunkFor workspace size alignment granted with
  | (selected, none) => (selected, none)
  | (selected, some index) =>
      match selected.chunks[index]? with
      | none => (selected, none)
      | some chunk =>
          let aligned := alignUp chunk.used alignment
          ({ selected with
              chunks := selected.chunks.set index
                { chunk with used := aligned + size } },
            some { chunk := index, offset := aligned, size := size })

/-- `Workspace::reset`: every chunk is rewound, none is released. -/
def reset (workspace : Workspace) : Workspace where
  chunks := workspace.chunks.map fun chunk => { chunk with used := 0 }
  activeChunk := 0

/-- One call on the workspace; `granted` is the heap's answer if it is asked. -/
inductive Call where
  | allocate (size alignment : UInt64) (granted : Bool)
  | reset
  deriving Repr, DecidableEq

/-- The workspace with the blocks handed out since the last reset. -/
structure Ledger where
  workspace : Workspace
  live : List Block
  deriving Repr, DecidableEq

/-- No call has been made. -/
def Ledger.initial : Ledger where
  workspace := .initial
  live := []

/-- Perform one call and record the block it hands out. -/
def Ledger.step (ledger : Ledger) : Call → Ledger
  | .allocate size alignment granted =>
      let result := allocate ledger.workspace size alignment granted
      { workspace := result.1
        live := result.2.toList ++ ledger.live }
  | .reset =>
      { workspace := reset ledger.workspace
        live := [] }

/-- What a caller promises: a power-of-two alignment, `size + alignment` exact. -/
def Call.Legal : Call → Prop
  | .allocate size alignment _ =>
      (∃ exponent, alignment.toNat = 2 ^ exponent) ∧
        size.toNat + alignment.toNat < 2 ^ 64
  | .reset => True

/-- The block lies inside its chunk. -/
def Block.InChunk (workspace : Workspace) (block : Block) : Prop :=
  ∃ chunk,
    workspace.chunks[block.chunk]? = some chunk ∧
      block.offset.toNat + block.size.toNat ≤ chunk.capacity.toNat

/-- Two blocks share no byte. -/
def Block.Disjoint (first second : Block) : Prop :=
  first.chunk = second.chunk →
    first.offset.toNat + first.size.toNat ≤ second.offset.toNat ∨
      second.offset.toNat + second.size.toNat ≤ first.offset.toNat

/-- The memory-safety property of the arena. -/
structure Ledger.Safe (ledger : Ledger) : Prop where
  inChunk : ∀ block ∈ ledger.live, block.InChunk ledger.workspace
  disjoint : ledger.live.Pairwise Block.Disjoint
  usedBounded : ∀ chunk ∈ ledger.workspace.chunks, chunk.used ≤ chunk.capacity

section Alignment

/-- Masking out the low bits rounds down to a multiple of the power of two. -/
private theorem and_not_mask
    (value : BitVec 64)
    (exponent : Nat) :
    (value &&& ~~~(BitVec.ofNat 64 (2 ^ exponent - 1))).toNat =
      value.toNat / 2 ^ exponent * 2 ^ exponent := by
  have rounded :
      value &&& ~~~(BitVec.ofNat 64 (2 ^ exponent - 1)) =
        BitVec.ofNat 64 (value.toNat / 2 ^ exponent * 2 ^ exponent) := by
    apply BitVec.eq_of_getLsbD_eq
    intro index inWidth
    rw [← Nat.shiftRight_eq_div_pow, ← Nat.shiftLeft_eq]
    simp only [BitVec.getLsbD_and, BitVec.getLsbD_not,
      BitVec.getLsbD_ofNat, Nat.testBit_two_pow_sub_one,
      Nat.testBit_shiftLeft, Nat.testBit_shiftRight, inWidth,
      decide_true, Bool.true_and]
    by_cases low : index < exponent
    · have notHigh : ¬ exponent ≤ index := by omega
      simp [low, notHigh]
    · have high : exponent ≤ index := by omega
      simp [low, high, Nat.add_sub_cancel' high, BitVec.testBit_toNat]
  rw [rounded, BitVec.toNat_ofNat, Nat.mod_eq_of_lt]
  exact lt_of_le_of_lt (Nat.div_mul_le_self _ _) value.isLt

/-- `align_up` rounds the padded offset, wrapped or not, down to a multiple. -/
private theorem alignUp_masked
    {offset alignment : UInt64}
    {exponent : Nat}
    (power : alignment.toNat = 2 ^ exponent) :
    (alignUp offset alignment).toNat =
      (offset + alignment - 1).toNat / alignment.toNat * alignment.toNat := by
  have bounded : 2 ^ exponent < 2 ^ 64 := by
    simpa [← power] using alignment.toNat_lt
  have mask : (alignment - 1).toBitVec = BitVec.ofNat 64 (2 ^ exponent - 1) := by
    apply BitVec.eq_of_toNat_eq
    have oneLe : (1 : UInt64) ≤ alignment := by
      rw [UInt64.le_iff_toNat_le]
      simpa [power] using Nat.one_le_two_pow
    have difference : (alignment - 1).toNat = 2 ^ exponent - 1 := by
      rw [UInt64.toNat_sub_of_le _ _ oneLe, power]
      rfl
    rw [UInt64.toNat_toBitVec, difference, BitVec.toNat_ofNat,
      Nat.mod_eq_of_lt (by omega)]
  have masked :=
    and_not_mask (offset + alignment - 1).toBitVec exponent
  rw [← mask] at masked
  unfold alignUp
  rw [← UInt64.toNat_toBitVec, UInt64.toBitVec_and, UInt64.toBitVec_not,
    masked, UInt64.toNat_toBitVec, power]

/-- An aligned offset is a multiple of the alignment. -/
theorem dvd_alignUp
    {offset alignment : UInt64}
    {exponent : Nat}
    (power : alignment.toNat = 2 ^ exponent) :
    alignment.toNat ∣ (alignUp offset alignment).toNat := by
  rw [alignUp_masked power]
  exact Nat.dvd_mul_left _ _

/-- `align_up` rounds up exactly as long as the padded offset does not wrap. -/
theorem alignUp_toNat
    {offset alignment : UInt64}
    {exponent : Nat}
    (power : alignment.toNat = 2 ^ exponent)
    (noWrap : offset.toNat + alignment.toNat ≤ 2 ^ 64) :
    (alignUp offset alignment).toNat =
      (offset.toNat + alignment.toNat - 1) / alignment.toNat *
        alignment.toNat := by
  have positive : 0 < 2 ^ exponent := Nat.two_pow_pos exponent
  have padded :
      (offset + alignment - 1).toNat =
        offset.toNat + alignment.toNat - 1 := by
    rw [UInt64.toNat_sub, UInt64.toNat_add]
    have one : (1 : UInt64).toNat = 1 := rfl
    rw [one]
    omega
  rw [alignUp_masked power, padded]

/-- Aligning never moves an offset back. -/
theorem le_alignUp
    {offset alignment : UInt64}
    {exponent : Nat}
    (power : alignment.toNat = 2 ^ exponent)
    (noWrap : offset.toNat + alignment.toNat ≤ 2 ^ 64) :
    offset.toNat ≤ (alignUp offset alignment).toNat := by
  have positive : 0 < alignment.toNat := by
    rw [power]
    exact Nat.two_pow_pos exponent
  rw [alignUp_toNat power noWrap]
  have division :=
    Nat.div_add_mod (offset.toNat + alignment.toNat - 1) alignment.toNat
  have remainder :=
    Nat.mod_lt (offset.toNat + alignment.toNat - 1) positive
  rw [Nat.mul_comm] at division
  omega

/-- An empty chunk hands out its first byte at every alignment. -/
theorem alignUp_zero
    {alignment : UInt64}
    {exponent : Nat}
    (power : alignment.toNat = 2 ^ exponent) :
    alignUp 0 alignment = 0 := by
  have positive : 0 < alignment.toNat := by
    rw [power]
    exact Nat.two_pow_pos exponent
  apply UInt64.toNat_inj.mp
  rw [alignUp_toNat power (by simpa using alignment.toNat_lt.le)]
  simp [Nat.div_eq_of_lt (Nat.sub_lt positive Nat.one_pos)]

end Alignment

end SymbolTable.Arena
