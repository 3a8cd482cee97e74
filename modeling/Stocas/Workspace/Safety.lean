import Mathlib.Data.List.GetD
import Stocas.Workspace.Arena

namespace SymbolTable.Arena

/-!
# Memory safety of whole allocation runs

`Ledger.Sound` is the representation invariant of the arena: chunks behind the
cursor are partly used, chunks ahead of it are empty, and every live block ends
below its chunk's `used` mark.  Selecting a chunk keeps the invariant in every
branch of `current_chunk_for` but two, in which the block that is handed out
leaves its chunk.  `Call.Fits` names the calls that avoid these two branches.
-/

/--
The call does not reach a branch that places a block without room for it.
Either the request fits behind the aligned mark of the active chunk, or its
wrapped end is still beyond the capacity and the chunk that the cursor moves
to, if it already exists, is large enough.
-/
def Call.Fits (workspace : Workspace) : Call → Prop
  | .allocate size alignment _ =>
      ∀ chunk,
        workspace.chunks[workspace.activeChunk]? = some chunk →
        (alignUp chunk.used alignment).toNat + size.toNat ≤
            chunk.capacity.toNat ∨
          chunk.capacity < alignUp chunk.used alignment + size ∧
            ∀ next,
              workspace.chunks[workspace.activeChunk + 1]? = some next →
              size ≤ next.capacity
  | .reset => True

/-- The representation invariant of the arena and its live blocks. -/
structure Ledger.Sound (ledger : Ledger) : Prop where
  cursor : ledger.workspace.activeChunk ≤ ledger.workspace.chunks.length
  capacityBounded :
    ∀ chunk ∈ ledger.workspace.chunks, chunk.capacity.toNat < 2 ^ 63
  usedBounded :
    ∀ chunk ∈ ledger.workspace.chunks, chunk.used ≤ chunk.capacity
  emptyAhead :
    ∀ {index chunk},
      ledger.workspace.chunks[index]? = some chunk →
      ledger.workspace.activeChunk < index →
      chunk.used = 0
  belowMark :
    ∀ block ∈ ledger.live,
      ∃ chunk,
        ledger.workspace.chunks[block.chunk]? = some chunk ∧
          block.offset.toNat + block.size.toNat ≤ chunk.used.toNat
  disjoint : ledger.live.Pairwise Block.Disjoint

namespace Ledger.Sound

/-- The invariant gives the memory-safety property. -/
theorem safe
    {ledger : Ledger}
    (sound : ledger.Sound) :
    ledger.Safe where
  inChunk block member := by
    obtain ⟨chunk, found, below⟩ := sound.belowMark block member
    have bounded :=
      UInt64.le_iff_toNat_le.mp
        (sound.usedBounded chunk (List.mem_of_getElem? found))
    exact ⟨chunk, found, below.trans bounded⟩
  disjoint := sound.disjoint
  usedBounded := sound.usedBounded

/-- A workspace without chunks is sound. -/
theorem initial : Ledger.initial.Sound where
  cursor := Nat.le_refl 0
  capacityBounded := by simp [Ledger.initial, Workspace.initial]
  usedBounded := by simp [Ledger.initial, Workspace.initial]
  emptyAhead := by simp [Ledger.initial, Workspace.initial]
  belowMark := by simp [Ledger.initial]
  disjoint := .nil

/-- Rewinding all chunks is sound: no block stays live. -/
theorem reset
    {ledger : Ledger}
    (sound : ledger.Sound) :
    (ledger.step .reset).Sound where
  cursor := Nat.zero_le _
  capacityBounded := by
    simp only [Ledger.step, Arena.reset, List.forall_mem_map]
    exact sound.capacityBounded
  usedBounded := by
    simp [Ledger.step, Arena.reset]
  emptyAhead := by
    simp only [Ledger.step, Arena.reset, List.getElem?_map,
      Option.map_eq_some_iff]
    rintro index chunk ⟨original, -, rfl⟩ -
    rfl
  belowMark := by simp [Ledger.step]
  disjoint := .nil

/-- Moving the cursor over a chunk keeps the invariant. -/
theorem advance
    {workspace : Workspace}
    {live : List Block}
    (sound : Ledger.Sound ⟨workspace, live⟩)
    (inside : workspace.activeChunk < workspace.chunks.length) :
    Ledger.Sound
      ⟨{ workspace with activeChunk := workspace.activeChunk + 1 }, live⟩ where
  cursor := inside
  capacityBounded := sound.capacityBounded
  usedBounded := sound.usedBounded
  emptyAhead found ahead :=
    sound.emptyAhead found (Nat.lt_of_succ_lt ahead)
  belowMark := sound.belowMark
  disjoint := sound.disjoint

/-- Appending an empty chunk under the cursor keeps the invariant. -/
theorem push
    {workspace : Workspace}
    {live : List Block}
    (sound : Ledger.Sound ⟨workspace, live⟩)
    (atEnd : workspace.activeChunk = workspace.chunks.length)
    {capacity : UInt64}
    (bounded : capacity.toNat < 2 ^ 63) :
    Ledger.Sound
      ⟨{ workspace with
          chunks := workspace.chunks ++ [{ capacity := capacity, used := 0 }] },
        live⟩ where
  cursor := by
    simp [atEnd]
  capacityBounded chunk member := by
    rcases List.mem_append.mp member with old | new
    · exact sound.capacityBounded chunk old
    · rw [List.mem_singleton.mp new]
      exact bounded
  usedBounded chunk member := by
    rcases List.mem_append.mp member with old | new
    · exact sound.usedBounded chunk old
    · rw [List.mem_singleton.mp new]
      exact UInt64.zero_le
  emptyAhead {index chunk} found ahead := by
    have inside := (List.getElem?_eq_some_iff.mp found).1
    simp only [List.length_append, List.length_singleton] at inside
    have beyond : workspace.activeChunk < index := ahead
    omega
  belowMark block member := by
    obtain ⟨chunk, found, below⟩ := sound.belowMark block member
    have inside := (List.getElem?_eq_some_iff.mp found).1
    exact ⟨chunk, by rw [List.getElem?_append_left inside, found], below⟩
  disjoint := sound.disjoint

/--
Handing out an aligned block that ends inside the chunk under the cursor keeps
the invariant: older blocks of that chunk end below its old mark, which the
block does not undercut.
-/
theorem place
    {workspace : Workspace}
    {live : List Block}
    (sound : Ledger.Sound ⟨workspace, live⟩)
    {chunk : Chunk}
    (found : workspace.chunks[workspace.activeChunk]? = some chunk)
    {size alignment : UInt64}
    {exponent : Nat}
    (power : alignment.toNat = 2 ^ exponent)
    (room :
      (alignUp chunk.used alignment).toNat + size.toNat ≤
        chunk.capacity.toNat) :
    Ledger.Sound
      ⟨{ workspace with
          chunks := workspace.chunks.set workspace.activeChunk
            { chunk with used := alignUp chunk.used alignment + size } },
        { chunk := workspace.activeChunk
          offset := alignUp chunk.used alignment
          size := size } :: live⟩ := by
  have member := List.mem_of_getElem? found
  have capacityBounded := sound.capacityBounded chunk member
  have usedBounded :=
    UInt64.le_iff_toNat_le.mp (sound.usedBounded chunk member)
  have alignmentBounded : alignment.toNat ≤ 2 ^ 63 := by
    have below := alignment.toNat_lt
    rw [power] at below ⊢
    exact Nat.pow_le_pow_right (by decide)
      (Nat.le_of_lt_succ ((Nat.pow_lt_pow_iff_right (by decide)).mp below))
  have notBefore :
      chunk.used.toNat ≤ (alignUp chunk.used alignment).toNat :=
    le_alignUp power (by omega)
  have newMark :
      (alignUp chunk.used alignment + size).toNat =
        (alignUp chunk.used alignment).toNat + size.toNat := by
    rw [UInt64.toNat_add, Nat.mod_eq_of_lt]
    omega
  have inside := (List.getElem?_eq_some_iff.mp found).1
  refine {
    cursor := by simpa using sound.cursor
    capacityBounded := ?_
    usedBounded := ?_
    emptyAhead := ?_
    belowMark := ?_
    disjoint := ?_
  }
  · intro other otherMember
    rcases List.mem_or_eq_of_mem_set otherMember with old | new
    · exact sound.capacityBounded other old
    · rw [new]
      exact capacityBounded
  · intro other otherMember
    rcases List.mem_or_eq_of_mem_set otherMember with old | new
    · exact sound.usedBounded other old
    · rw [new, UInt64.le_iff_toNat_le, newMark]
      exact room
  · intro index other otherFound ahead
    rw [List.getElem?_set_ne (Nat.ne_of_lt ahead)] at otherFound
    exact sound.emptyAhead otherFound ahead
  · intro block blockMember
    rcases List.mem_cons.mp blockMember with new | old
    · subst block
      exact ⟨_, List.getElem?_set_self inside, newMark.ge⟩
    · obtain ⟨holder, holderFound, below⟩ := sound.belowMark block old
      by_cases sameChunk : block.chunk = workspace.activeChunk
      · have holderIs : holder = chunk := by
          rw [sameChunk, found] at holderFound
          exact (Option.some.inj holderFound).symm
        subst holder
        refine ⟨_, by
          rw [sameChunk]
          exact List.getElem?_set_self inside, ?_⟩
        rw [newMark]
        omega
      · exact ⟨holder, by
          rw [List.getElem?_set_ne (Ne.symm sameChunk), holderFound], below⟩
  · refine List.pairwise_cons.mpr ⟨?_, sound.disjoint⟩
    intro block blockMember sameChunk
    obtain ⟨holder, holderFound, below⟩ := sound.belowMark block blockMember
    have holderIs : holder = chunk := by
      rw [← sameChunk, found] at holderFound
      exact (Option.some.inj holderFound).symm
    subst holder
    exact Or.inr (below.trans notBefore)

end Ledger.Sound

/-- What chunk selection owes `allocate`: a sound arena and room for the block. -/
def Selected
    (live : List Block)
    (size alignment : UInt64) :
    Workspace × Option Nat → Prop
  | (workspace, none) =>
      Ledger.Sound ⟨workspace, live⟩
  | (workspace, some index) =>
      Ledger.Sound ⟨workspace, live⟩ ∧
        index = workspace.activeChunk ∧
        ∃ chunk,
          workspace.chunks[index]? = some chunk ∧
            (alignUp chunk.used alignment).toNat + size.toNat ≤
              chunk.capacity.toNat

section Allocation

variable
  {workspace : Workspace}
  {live : List Block}
  {size alignment : UInt64}
  {granted : Bool}
  {exponent : Nat}

/-- A fresh chunk is sound and always has room for the request. -/
theorem appendChunk_selected
    (sound : Ledger.Sound ⟨workspace, live⟩)
    (atEnd : workspace.activeChunk = workspace.chunks.length)
    (power : alignment.toNat = 2 ^ exponent)
    (exact : size.toNat + alignment.toNat < 2 ^ 64) :
    Selected live size alignment
      (appendChunk workspace size alignment granted) := by
  unfold appendChunk newChunk?
  split_ifs with grantedSmall
  · have bounded :
        (newCapacity size alignment).toNat < 2 ^ 63 :=
      Nat.lt_succ_of_le (UInt64.le_iff_toNat_le.mp grantedSmall.2)
    refine ⟨sound.push atEnd bounded, atEnd.symm, _,
      List.getElem?_concat_length, ?_⟩
    have atLeast : size + alignment ≤ newCapacity size alignment := by
      unfold newCapacity
      split_ifs with larger
      · exact UInt64.le_refl _
      · exact UInt64.not_lt.mp larger
    have enough := UInt64.le_iff_toNat_le.mp atLeast
    rw [UInt64.toNat_add, Nat.mod_eq_of_lt exact] at enough
    rw [alignUp_zero power]
    simp only [UInt64.toNat_zero]
    omega
  · exact sound

/-- A fitting request is given a chunk with room for it. -/
theorem currentChunkFor_selected
    (sound : Ledger.Sound ⟨workspace, live⟩)
    (power : alignment.toNat = 2 ^ exponent)
    (exact : size.toNat + alignment.toNat < 2 ^ 64)
    (fits : (Call.allocate size alignment granted).Fits workspace) :
    Selected live size alignment
      (currentChunkFor workspace size alignment granted) := by
  unfold currentChunkFor
  cases active : workspace.chunks[workspace.activeChunk]? with
  | none =>
      have atEnd : workspace.activeChunk = workspace.chunks.length :=
        Nat.le_antisymm sound.cursor (List.getElem?_eq_none_iff.mp active)
      exact appendChunk_selected sound atEnd power exact
  | some chunk =>
      have inside := (List.getElem?_eq_some_iff.mp active).1
      have advanced := sound.advance inside
      have bounded :=
        sound.capacityBounded chunk (List.mem_of_getElem? active)
      rcases fits chunk active with room | ⟨beyond, nextFits⟩
      · have noWrap :
            alignUp chunk.used alignment + size ≤ chunk.capacity := by
          rw [UInt64.le_iff_toNat_le, UInt64.toNat_add,
            Nat.mod_eq_of_lt (by omega)]
          exact room
        simp only [noWrap, ↓reduceIte]
        exact ⟨sound, rfl, chunk, active, room⟩
      · have noRoom :
            ¬ alignUp chunk.used alignment + size ≤ chunk.capacity :=
          UInt64.not_le.mpr beyond
        simp only [noRoom, ↓reduceIte]
        split_ifs with hasNext
        · obtain ⟨next, nextFound⟩ :
              ∃ next, workspace.chunks[workspace.activeChunk + 1]? = some next :=
            ⟨_, List.getElem?_eq_getElem hasNext⟩
          have empty : next.used = 0 :=
            sound.emptyAhead nextFound (Nat.lt_succ_self _)
          refine ⟨advanced, rfl, next, nextFound, ?_⟩
          rw [empty, alignUp_zero power]
          simpa using UInt64.le_iff_toNat_le.mp (nextFits next nextFound)
        · exact appendChunk_selected advanced
            (Nat.le_antisymm inside (Nat.le_of_not_lt hasNext)) power exact

/-- A request that does not fit is answered with a block outside its chunk. -/
theorem allocate_unsafe
    (sound : Ledger.Sound ⟨workspace, live⟩)
    (power : alignment.toNat = 2 ^ exponent)
    (misfit : ¬ (Call.allocate size alignment granted).Fits workspace) :
    ¬ (Ledger.step ⟨workspace, live⟩
        (.allocate size alignment granted)).Safe := by
  intro safe
  simp only [Call.Fits, not_forall, not_or, not_and] at misfit
  obtain ⟨chunk, active, noRoom, wrongBranch⟩ := misfit
  have inside := (List.getElem?_eq_some_iff.mp active).1
  by_cases accepted :
      alignUp chunk.used alignment + size ≤ chunk.capacity
  · -- The wrapped end passes the capacity test although the block does not fit.
    have stepped :
        (Ledger.step ⟨workspace, live⟩ (.allocate size alignment granted)) =
          ⟨{ workspace with
              chunks := workspace.chunks.set workspace.activeChunk
                { chunk with used := alignUp chunk.used alignment + size } },
            { chunk := workspace.activeChunk
              offset := alignUp chunk.used alignment
              size := size } :: live⟩ := by
      simp [Ledger.step, allocate, currentChunkFor, active, accepted]
    rw [stepped] at safe
    obtain ⟨holder, found, fitsInside⟩ := safe.inChunk _ List.mem_cons_self
    simp only [List.getElem?_set_self inside, Option.some.injEq] at found
    subst holder
    exact noRoom fitsInside
  · -- The cursor moves to an existing empty chunk that is too small.
    obtain ⟨next, nextFound, tooSmall⟩ :=
      wrongBranch (UInt64.not_le.mp accepted)
    have hasNext := (List.getElem?_eq_some_iff.mp nextFound).1
    have nextIs : workspace.chunks[workspace.activeChunk + 1] = next :=
      (List.getElem?_eq_some_iff.mp nextFound).2
    have empty : next.used = 0 :=
      sound.emptyAhead nextFound (Nat.lt_succ_self _)
    have stepped :
        (Ledger.step ⟨workspace, live⟩ (.allocate size alignment granted)) =
          ⟨{ chunks := workspace.chunks.set (workspace.activeChunk + 1)
                { next with used := 0 + size }
             activeChunk := workspace.activeChunk + 1 },
            { chunk := workspace.activeChunk + 1
              offset := 0
              size := size } :: live⟩ := by
      simp [Ledger.step, allocate, currentChunkFor, active, accepted,
        hasNext, nextIs, empty, alignUp_zero power]
    rw [stepped] at safe
    obtain ⟨holder, found, fitsInside⟩ := safe.inChunk _ List.mem_cons_self
    simp only [List.getElem?_set_self hasNext, Option.some.injEq] at found
    subst holder
    apply tooSmall
    simpa [UInt64.le_iff_toNat_le] using fitsInside

end Allocation

/-- A legal call that fits keeps the invariant. -/
theorem Ledger.Sound.step
    {ledger : Ledger}
    {call : Call}
    (sound : ledger.Sound)
    (legal : call.Legal)
    (fits : call.Fits ledger.workspace) :
    (ledger.step call).Sound := by
  cases call with
  | reset =>
      exact sound.reset
  | allocate size alignment granted =>
      obtain ⟨⟨exponent, power⟩, exact⟩ := legal
      have selected := currentChunkFor_selected sound power exact fits
      simp only [Ledger.step, allocate]
      rcases chosen :
          currentChunkFor ledger.workspace size alignment granted with
        ⟨workspace, _ | index⟩
      · rw [chosen] at selected
        exact selected
      · rw [chosen] at selected
        obtain ⟨selectedSound, rfl, chunk, found, room⟩ := selected
        simp only [found, Option.toList_some, List.singleton_append]
        exact selectedSound.place found power room

/--
Exact safety of the arena.  Along every run of legal calls from a new
workspace, every state is memory safe if and only if every call of the run
fits: it never relies on a reused chunk that is too small, nor on an end offset
that wrapped around.
-/
theorem safe_throughout_iff_fits
    (calls : List Call)
    (legal : ∀ call ∈ calls, call.Legal) :
    Transition.Throughout Ledger.step Ledger.Safe Ledger.initial calls ↔
      Transition.EveryStep Ledger.step
        (fun ledger call => call.Fits ledger.workspace)
        Ledger.initial calls := by
  refine Transition.throughout_iff_everyStep
    Ledger.Sound Call.Legal Ledger.Sound.safe (fun sound callLegal => sound.step callLegal)
    ?_ Ledger.Sound.initial legal
  intro ledger call sound callLegal misfit
  cases call with
  | reset =>
      exact (misfit trivial).elim
  | allocate size alignment granted =>
      obtain ⟨⟨exponent, power⟩, -⟩ := callLegal
      exact allocate_unsafe sound power misfit

/-- A run that fills two chunks, resets and reuses the first one is safe. -/
theorem safe_throughout_refill :
    Transition.Throughout Ledger.step Ledger.Safe Ledger.initial
      [.allocate 65536 1 true, .allocate 512 16 true, .reset,
        .allocate 64 8 true] := by
  refine (safe_throughout_iff_fits _ ?_).mpr ?_
  · simp only [List.forall_mem_cons, Call.Legal]
    exact ⟨⟨⟨0, rfl⟩, by decide⟩, ⟨⟨4, rfl⟩, by decide⟩, trivial,
      ⟨⟨3, rfl⟩, by decide⟩, by simp⟩
  · simp only [Transition.everyStep_cons]
    refine ⟨?_, ?_, trivial, ?_, Transition.everyStep_nil⟩
    · intro chunk active
      cases active
    · intro chunk active
      cases active
      exact Or.inr ⟨by decide, by intro next found; cases found⟩
    · intro chunk active
      cases active
      exact Or.inl (by decide)

/--
After a reset, a request that no longer fits the first chunk is served from the
second one although that chunk is smaller than the request.
-/
theorem reused_chunk_overrun :
    (∀ call ∈
        [Call.allocate 65536 1 true, .allocate 65536 1 true, .reset,
          .allocate 1 1 true, .allocate 100000 1 true],
      call.Legal) ∧
      ¬ Transition.Throughout Ledger.step Ledger.Safe Ledger.initial
        [.allocate 65536 1 true, .allocate 65536 1 true, .reset,
          .allocate 1 1 true, .allocate 100000 1 true] := by
  constructor
  · simp only [List.forall_mem_cons, Call.Legal]
    exact ⟨⟨⟨0, rfl⟩, by decide⟩, ⟨⟨0, rfl⟩, by decide⟩, trivial,
      ⟨⟨0, rfl⟩, by decide⟩, ⟨⟨0, rfl⟩, by decide⟩, by simp⟩
  · intro safe
    have reached :
        Transition.run Ledger.step Ledger.initial
            [.allocate 65536 1 true, .allocate 65536 1 true, .reset,
              .allocate 1 1 true, .allocate 100000 1 true] =
          { workspace :=
              { chunks := [⟨65537, 1⟩, ⟨65537, 100000⟩], activeChunk := 1 }
            live := [⟨1, 0, 100000⟩, ⟨0, 0, 1⟩] } := by
      decide
    have atEnd := safe _ (List.prefix_refl _)
    rw [reached] at atEnd
    have marked := atEnd.usedBounded ⟨65537, 100000⟩ (by simp)
    exact absurd marked (by decide)

end SymbolTable.Arena
