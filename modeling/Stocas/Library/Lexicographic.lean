import Mathlib.Order.Compare
import Mathlib.Data.List.Basic

namespace Lexicographic

/-!
# Three-way comparison of lists

`lexCompare` compares two lists element by element and, when one is a prefix
of the other, by length.  The laws of a comparison carry over from the
elements of the lists to the lists.
-/

variable {α β : Type*}

/-- Lexicographic comparison; a proper prefix comes first. -/
def lexCompare (cmp : α → β → Ordering) : List α → List β → Ordering
  | [], [] => .eq
  | [], _ :: _ => .lt
  | _ :: _, [] => .gt
  | first :: rest, second :: others =>
      (cmp first second).then (lexCompare cmp rest others)

/-- Only the comparisons of the two lists' own elements matter. -/
theorem lexCompare_congr
    {γ δ : Type*}
    {cmp : α → β → Ordering}
    {cmp' : γ → δ → Ordering}
    {left : α → γ}
    {right : β → δ}
    {firsts : List α}
    {seconds : List β}
    (same :
      ∀ first ∈ firsts, ∀ second ∈ seconds,
        cmp first second = cmp' (left first) (right second)) :
    lexCompare cmp firsts seconds =
      lexCompare cmp' (firsts.map left) (seconds.map right) := by
  induction firsts generalizing seconds with
  | nil =>
      cases seconds <;> rfl
  | cons first rest inductionHypothesis =>
      cases seconds with
      | nil =>
          rfl
      | cons second others =>
          have headSame := same first (by simp) second (by simp)
          have tailSame :
              lexCompare cmp rest others =
                lexCompare cmp' (rest.map left) (others.map right) :=
            inductionHypothesis
              (fun one oneMember two twoMember =>
                same one (by simp [oneMember]) two (by simp [twoMember]))
          simp only [lexCompare, List.map_cons, headSame, tailSame]

/-- A comparison that identifies elements identifies lists of them. -/
theorem lexCompare_eq_iff
    {cmp : α → α → Ordering}
    {firsts seconds : List α}
    (exact :
      ∀ first ∈ firsts, ∀ second, cmp first second = .eq ↔ first = second) :
    lexCompare cmp firsts seconds = .eq ↔ firsts = seconds := by
  induction firsts generalizing seconds with
  | nil =>
      cases seconds <;> simp [lexCompare]
  | cons first rest inductionHypothesis =>
      cases seconds with
      | nil =>
          simp [lexCompare]
      | cons second others =>
          have restExact :
              lexCompare cmp rest others = .eq ↔ rest = others :=
            inductionHypothesis
              (fun one member => exact one (by simp [member]))
          simp only [lexCompare, Ordering.then_eq_eq,
            exact first (by simp) second, restExact, List.cons.injEq]

/-- Swapping the lists swaps the outcome. -/
theorem lexCompare_swap
    {cmp : α → α → Ordering}
    {firsts seconds : List α}
    (swaps :
      ∀ first ∈ firsts, ∀ second,
        (cmp first second).swap = cmp second first) :
    (lexCompare cmp firsts seconds).swap =
      lexCompare cmp seconds firsts := by
  induction firsts generalizing seconds with
  | nil =>
      cases seconds <;> rfl
  | cons first rest inductionHypothesis =>
      cases seconds with
      | nil =>
          rfl
      | cons second others =>
          have restSwaps :
              (lexCompare cmp rest others).swap =
                lexCompare cmp others rest :=
            inductionHypothesis
              (fun one member => swaps one (by simp [member]))
          simp only [lexCompare, Ordering.swap_then,
            swaps first (by simp) second, restSwaps]

/-- Strict comparison is transitive where the elements' comparison is. -/
theorem lexCompare_trans
    {cmp : α → α → Ordering}
    (exact : ∀ first second, cmp first second = .eq ↔ first = second)
    {firsts seconds thirds : List α}
    (transitive :
      ∀ first ∈ firsts, ∀ second third,
        cmp first second = .lt →
        cmp second third = .lt →
        cmp first third = .lt)
    (below : lexCompare cmp firsts seconds = .lt)
    (above : lexCompare cmp seconds thirds = .lt) :
    lexCompare cmp firsts thirds = .lt := by
  induction firsts generalizing seconds thirds with
  | nil =>
      cases seconds with
      | nil =>
          exact above
      | cons second others =>
          cases thirds with
          | nil =>
              cases above
          | cons third remaining =>
              rfl
  | cons first rest inductionHypothesis =>
      cases seconds with
      | nil =>
          cases below
      | cons second others =>
          cases thirds with
          | nil =>
              cases above
          | cons third remaining =>
              simp only [lexCompare, Ordering.then_eq_lt] at below above ⊢
              rcases below with headBelow | ⟨headSame, restBelow⟩
              · rcases above with headAbove | ⟨headEqual, -⟩
                · exact Or.inl
                    (transitive first (by simp) second third
                      headBelow headAbove)
                · rw [(exact second third).mp headEqual] at headBelow
                  exact Or.inl headBelow
              · rw [(exact first second).mp headSame]
                rcases above with headAbove | ⟨headEqual, restAbove⟩
                · exact Or.inl headAbove
                · exact Or.inr ⟨headEqual,
                    inductionHypothesis
                      (fun one member => transitive one (by simp [member]))
                      restBelow restAbove⟩

end Lexicographic
