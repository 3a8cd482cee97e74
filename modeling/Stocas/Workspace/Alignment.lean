import Stocas.Workspace.Safety

namespace SymbolTable.Arena

/-!
# Alignment of the returned addresses

`align_up` is applied to the offset inside a chunk, while `allocate` promises an
aligned address.  The address is the sum of the offset and of the chunk's base,
of which `operator new` only promises the default alignment.  A run is therefore
aligned exactly when every request asks for an alignment that the base of the
chunk serving it already has.
-/

/-- `__STDCPP_DEFAULT_NEW_ALIGNMENT__`, the promise of `operator new`. -/
def defaultNewAlignment : Nat := 16

/--
The base address of every chunk's array.  Chunks are never released, so a base
belongs to the chunk's index for the lifetime of the workspace.
-/
structure ChunkBases where
  base : Nat → UInt64
  aligned : ∀ index, defaultNewAlignment ∣ (base index).toNat

/-- A heap that grants nothing beyond the promise. -/
def ChunkBases.leastAligned : ChunkBases where
  base _ := 16
  aligned _ := by decide

/-- `chunk.data.get() + aligned`: the address that `allocate` returns. -/
def ChunkBases.address
    (bases : ChunkBases)
    (block : Block) :
    UInt64 :=
  bases.base block.chunk + block.offset

/-- The requested alignment is a power of two. -/
def Call.PowerOfTwo : Call → Prop
  | .allocate _ alignment _ => ∃ exponent, alignment.toNat = 2 ^ exponent
  | .reset => True

/-- If the call returns an address, the address has the requested alignment. -/
def Call.ReturnsAligned
    (bases : ChunkBases)
    (ledger : Ledger) :
    Call → Prop
  | .allocate size alignment granted =>
      ∀ block,
        (Arena.allocate ledger.workspace size alignment granted).2 = some block →
        alignment.toNat ∣ (bases.address block).toNat
  | .reset => True

/--
The chunk a request is served from: the active one as long as the request ends
in it, and the one behind it otherwise.
-/
def servingChunk
    (workspace : Workspace)
    (size alignment : UInt64) :
    Nat :=
  match workspace.chunks[workspace.activeChunk]? with
  | none => workspace.activeChunk
  | some chunk =>
      if alignUp chunk.used alignment + size ≤ chunk.capacity then
        workspace.activeChunk
      else
        workspace.activeChunk + 1

/-- The serving chunk exists or its array can be allocated. -/
def Served
    (workspace : Workspace)
    (size alignment : UInt64)
    (granted : Bool) :
    Prop :=
  servingChunk workspace size alignment < workspace.chunks.length ∨
    granted ∧ newCapacity size alignment ≤ ptrdiffMax

/-- The base of the serving chunk has the requested alignment. -/
def Call.BaseAligned
    (bases : ChunkBases)
    (ledger : Ledger) :
    Call → Prop
  | .allocate size alignment granted =>
      Served ledger.workspace size alignment granted →
      alignment.toNat ∣
        (bases.base (servingChunk ledger.workspace size alignment)).toNat
  | .reset => True

/-- A served request asks for no more than the default alignment. -/
def Call.NotOverAligned
    (ledger : Ledger) :
    Call → Prop
  | .allocate size alignment granted =>
      Served ledger.workspace size alignment granted →
      alignment.toNat ≤ defaultNewAlignment
  | .reset => True

/-- The cursor is at most one past the last chunk. -/
def CursorInside (workspace : Workspace) : Prop :=
  workspace.activeChunk ≤ workspace.chunks.length

section Serving

variable
  {workspace : Workspace}
  {size alignment : UInt64}
  {granted : Bool}

/-- What chunk selection returns: the serving chunk, if there is one. -/
def SelectsServing
    (index : Nat)
    (served : Prop) :
    Workspace × Option Nat → Prop
  | (selected, none) => CursorInside selected ∧ ¬ served
  | (selected, some chosen) =>
      CursorInside selected ∧ served ∧
        chosen = index ∧ index < selected.chunks.length

/-- At the end of the chunks, the serving chunk is the one that is appended. -/
theorem appendChunk_serving
    (atEnd : workspace.activeChunk = workspace.chunks.length) :
    SelectsServing workspace.activeChunk
      (workspace.activeChunk < workspace.chunks.length ∨
        granted ∧ newCapacity size alignment ≤ ptrdiffMax)
      (appendChunk workspace size alignment granted) := by
  unfold appendChunk newChunk?
  split_ifs with allocated
  · refine ⟨?_, Or.inr allocated, atEnd.symm, ?_⟩
    · simp [CursorInside, atEnd]
    · simp [atEnd]
  · refine ⟨atEnd.le, ?_⟩
    rintro (inside | available)
    · exact absurd atEnd inside.ne
    · exact allocated available

/-- `current_chunk_for` selects the serving chunk. -/
theorem currentChunkFor_serving
    (inside : CursorInside workspace) :
    SelectsServing
      (servingChunk workspace size alignment)
      (Served workspace size alignment granted)
      (currentChunkFor workspace size alignment granted) := by
  unfold currentChunkFor Served servingChunk
  cases active : workspace.chunks[workspace.activeChunk]? with
  | none =>
      exact appendChunk_serving
        (Nat.le_antisymm inside (List.getElem?_eq_none_iff.mp active))
  | some chunk =>
      have activeExists := (List.getElem?_eq_some_iff.mp active).1
      by_cases room : alignUp chunk.used alignment + size ≤ chunk.capacity
      · simp only [room, ↓reduceIte]
        exact ⟨inside, Or.inl activeExists, rfl, activeExists⟩
      · simp only [room, ↓reduceIte]
        by_cases hasNext : workspace.activeChunk + 1 < workspace.chunks.length
        · simp only [hasNext, ↓reduceIte]
          exact ⟨hasNext.le, Or.inl trivial, rfl, hasNext⟩
        · simp only [hasNext, ↓reduceIte]
          have atEnd : workspace.activeChunk + 1 = workspace.chunks.length :=
            Nat.le_antisymm activeExists (Nat.le_of_not_lt hasNext)
          have selected :=
            @appendChunk_serving
              { workspace with activeChunk := workspace.activeChunk + 1 }
              size alignment granted atEnd
          simpa only [hasNext] using selected

/-- A block is returned exactly by a served request, from its serving chunk. -/
theorem allocate_serving
    (inside : CursorInside workspace) :
    CursorInside (allocate workspace size alignment granted).1 ∧
      (Served workspace size alignment granted ↔
        ∃ block,
          (allocate workspace size alignment granted).2 = some block) ∧
      ∀ block,
        (allocate workspace size alignment granted).2 = some block →
        block.chunk = servingChunk workspace size alignment ∧
          ∃ used, block.offset = alignUp used alignment := by
  have selection :=
    @currentChunkFor_serving workspace size alignment granted inside
  unfold allocate
  rcases chosen : currentChunkFor workspace size alignment granted with
    ⟨selected, _ | index⟩
  · rw [chosen] at selection
    obtain ⟨cursor, notServed⟩ := selection
    refine ⟨cursor, ?_, ?_⟩
    · simp [notServed]
    · simp
  · rw [chosen] at selection
    obtain ⟨cursor, served, rfl, available⟩ := selection
    simp only [List.getElem?_eq_getElem available]
    refine ⟨?_, ?_, ?_⟩
    · simpa [CursorInside] using cursor
    · simp [served]
    · rintro block ⟨⟩
      exact ⟨rfl, _, rfl⟩

end Serving

/-- An address is aligned exactly when the base below its aligned offset is. -/
theorem dvd_address_iff
    {base offset : UInt64}
    {alignment : Nat}
    {exponent : Nat}
    (power : alignment = 2 ^ exponent)
    (small : alignment < 2 ^ 64)
    (offsetAligned : alignment ∣ offset.toNat) :
    alignment ∣ (base + offset).toNat ↔ alignment ∣ base.toNat := by
  have wordAligned : alignment ∣ 2 ^ 64 := by
    rw [power] at small ⊢
    exact Nat.pow_dvd_pow 2
      ((Nat.pow_lt_pow_iff_right (by decide)).mp small).le
  rw [UInt64.toNat_add, Nat.dvd_mod_iff wordAligned]
  exact (Nat.dvd_add_iff_left offsetAligned).symm

/-- No call moves the cursor beyond the end of the chunks. -/
theorem Ledger.step_cursorInside
    {ledger : Ledger}
    {call : Call}
    (inside : CursorInside ledger.workspace) :
    CursorInside (ledger.step call).workspace := by
  cases call with
  | allocate size alignment granted =>
      exact (allocate_serving inside).1
  | reset =>
      exact Nat.zero_le _

/-- One call returns an aligned address exactly when the base is aligned. -/
theorem Call.returnsAligned_iff
    (bases : ChunkBases)
    {ledger : Ledger}
    {call : Call}
    (inside : CursorInside ledger.workspace)
    (powerOfTwo : call.PowerOfTwo) :
    call.ReturnsAligned bases ledger ↔ call.BaseAligned bases ledger := by
  cases call with
  | reset =>
      exact Iff.rfl
  | allocate size alignment granted =>
      obtain ⟨exponent, power⟩ := powerOfTwo
      obtain ⟨-, served, placed⟩ :=
        @allocate_serving ledger.workspace size alignment granted inside
      have address_iff :
          ∀ block,
            (Arena.allocate ledger.workspace size alignment granted).2 = some block →
            (alignment.toNat ∣ (bases.address block).toNat ↔
              alignment.toNat ∣
                (bases.base
                  (servingChunk ledger.workspace size alignment)).toNat) := by
        intro block returned
        obtain ⟨chunkIs, used, offsetIs⟩ := placed block returned
        unfold ChunkBases.address
        rw [chunkIs, offsetIs]
        exact dvd_address_iff power alignment.toNat_lt (dvd_alignUp power)
      constructor
      · intro returnsAligned wasServed
        obtain ⟨block, returned⟩ := served.mp wasServed
        exact (address_iff block returned).mp (returnsAligned block returned)
      · intro baseAligned block returned
        exact (address_iff block returned).mpr
          (baseAligned (served.mpr ⟨block, returned⟩))

/-- Every base has an alignment exactly when the default alignment has it. -/
theorem Call.baseAligned_forall_iff
    {ledger : Ledger}
    {call : Call}
    (powerOfTwo : call.PowerOfTwo) :
    (∀ bases, call.BaseAligned bases ledger) ↔ call.NotOverAligned ledger := by
  cases call with
  | reset =>
      exact ⟨fun _ => trivial, fun _ _ => trivial⟩
  | allocate size alignment granted =>
      obtain ⟨exponent, power⟩ := powerOfTwo
      constructor
      · intro aligned served
        exact Nat.le_of_dvd (by decide) (aligned .leastAligned served)
      · intro notOverAligned bases served
        have atMost := notOverAligned served
        have divides : alignment.toNat ∣ defaultNewAlignment := by
          have sixteen : defaultNewAlignment = 2 ^ 4 := rfl
          rw [power, sixteen] at atMost ⊢
          exact Nat.pow_dvd_pow 2
            ((Nat.pow_le_pow_iff_right (by decide)).mp atMost)
        exact divides.trans (bases.aligned _)

/--
Exact alignment of the arena.  In every run of power-of-two requests, whatever
the bases are, all returned addresses are aligned if and only if every request
is served from a chunk whose base has the requested alignment.  The promise of
`operator new` alone gives this if and only if no served request asks for more
than the default alignment.
-/
theorem returnsAligned_everyStep_iff
    (calls : List Call)
    (powersOfTwo : ∀ call ∈ calls, call.PowerOfTwo) :
    (∀ bases : ChunkBases,
      Transition.EveryStep Ledger.step
          (fun ledger call => call.ReturnsAligned bases ledger)
          Ledger.initial calls ↔
        Transition.EveryStep Ledger.step
          (fun ledger call => call.BaseAligned bases ledger)
          Ledger.initial calls) ∧
      ((∀ bases : ChunkBases,
        Transition.EveryStep Ledger.step
          (fun ledger call => call.ReturnsAligned bases ledger)
          Ledger.initial calls) ↔
        Transition.EveryStep Ledger.step
          (fun ledger call => call.NotOverAligned ledger)
          Ledger.initial calls) := by
  have perBases :
      ∀ bases : ChunkBases,
        Transition.EveryStep Ledger.step
            (fun ledger call => call.ReturnsAligned bases ledger)
            Ledger.initial calls ↔
          Transition.EveryStep Ledger.step
            (fun ledger call => call.BaseAligned bases ledger)
            Ledger.initial calls := by
    intro bases
    exact Transition.everyStep_congr
      (fun ledger : Ledger => CursorInside ledger.workspace) Call.PowerOfTwo
      Ledger.step_cursorInside (Call.returnsAligned_iff bases)
      (Nat.le_refl 0) powersOfTwo
  refine ⟨perBases, ?_⟩
  rw [forall_congr' perBases]
  have everyBase :
      Transition.EveryStep Ledger.step
          (fun ledger call => ∀ bases, call.BaseAligned bases ledger)
          Ledger.initial calls ↔
        Transition.EveryStep Ledger.step
          (fun ledger call => call.NotOverAligned ledger)
          Ledger.initial calls :=
    Transition.everyStep_congr
      (fun _ => True) Call.PowerOfTwo
      (fun _ => trivial) (fun _ => Call.baseAligned_forall_iff)
      trivial powersOfTwo
  rw [← everyBase]
  exact ⟨fun aligned earlier call isPrefix bases =>
      aligned bases earlier call isPrefix,
    fun aligned bases earlier call isPrefix =>
      aligned earlier call isPrefix bases⟩

/-- Requests of the built-in alignments, over a reset, are aligned at the least base. -/
theorem returnsAligned_everyStep_builtin :
    Transition.EveryStep Ledger.step
      (fun ledger call => call.ReturnsAligned .leastAligned ledger)
      Ledger.initial
      [.allocate 16 8 true, .allocate 32 16 true, .reset,
        .allocate 1 1 true] := by
  refine (returnsAligned_everyStep_iff _ ?_).2.mpr ?_ .leastAligned
  · simp only [List.forall_mem_cons, Call.PowerOfTwo]
    exact ⟨⟨3, rfl⟩, ⟨4, rfl⟩, trivial, ⟨0, rfl⟩, by simp⟩
  · simp only [Transition.everyStep_cons, Call.NotOverAligned]
    exact ⟨fun _ => by decide, fun _ => by decide, trivial,
      fun _ => by decide, Transition.everyStep_nil⟩

/-- A heap whose arrays start sixteen bytes behind a page boundary. -/
def pageHeaderBases : ChunkBases where
  base _ := 0x7f0000001010
  aligned _ := by decide

/--
A cache-line aligned request of a fresh workspace fits its chunk, and its
address is sixteen bytes off.
-/
theorem overAligned_request :
    (∀ call ∈ [Call.allocate 64 64 true], call.Legal) ∧
      Transition.Throughout Ledger.step Ledger.Safe Ledger.initial
        [.allocate 64 64 true] ∧
      ¬ Transition.EveryStep Ledger.step
        (fun ledger call => call.ReturnsAligned pageHeaderBases ledger)
        Ledger.initial [.allocate 64 64 true] := by
  refine ⟨?_, ?_, ?_⟩
  · simp only [List.forall_mem_cons, Call.Legal]
    exact ⟨⟨⟨6, rfl⟩, by decide⟩, by simp⟩
  · rw [Transition.throughout_cons, Transition.throughout_nil]
    refine ⟨Ledger.Sound.initial.safe, ?_⟩
    have legal : (Call.allocate 64 64 true).Legal := ⟨⟨6, rfl⟩, by decide⟩
    have fits :
        (Call.allocate 64 64 true).Fits Ledger.initial.workspace := by
      intro chunk active
      cases active
    exact (Ledger.Sound.initial.step legal fits).safe
  · intro aligned
    have returned := (Transition.everyStep_cons.mp aligned).1
    exact absurd (returned ⟨0, 0, 64⟩ (by decide)) (by decide)

end SymbolTable.Arena
