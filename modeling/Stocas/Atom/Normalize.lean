import Stocas.Atom.Tree
import Stocas.Library.OrderedMap

namespace AtomCore

namespace AtomTree

/-!
# Normalization of trees

`normalize_add` and `normalize_mul` are one loop with different parameters: they
split every normalized operand into a key and a rational amount, total the
amounts under ordered keys and the numbers apart, and rebuild an operand from
each total.  `Collector` holds the parameters; `sums` and `products` are its two
instances.
-/

/-- The value of a `Num`. -/
def numValue? : AtomTree → Option ℚ
  | .num value => some value
  | _ => none

/-- A number is its value. -/
theorem eq_num_of_numValue?
    {tree : AtomTree}
    {value : ℚ}
    (isNum : tree.numValue? = some value) :
    tree = .num value := by
  cases tree <;> cases isNum
  rfl

/-- `split_coefficient`, as term and coefficient. -/
def splitCoefficient : AtomTree → AtomTree × ℚ
  | .mul [.num coefficient, rest] => (rest, coefficient)
  | tree => (tree, 1)

/-- `split_power`, as base and exponent. -/
def splitPower : AtomTree → AtomTree × ℚ
  | .pow base (.num exponent) => (base, exponent)
  | tree => (tree, 1)

/-- Only a product of a number and one factor is split. -/
theorem splitCoefficient_eq_self
    {tree : AtomTree}
    (other : ∀ coefficient rest, tree ≠ .mul [.num coefficient, rest]) :
    splitCoefficient tree = (tree, 1) := by
  rw [splitCoefficient.eq_def]
  split
  · exact absurd rfl (other _ _)
  · rfl

/-- Only a power with a numeric exponent is split. -/
theorem splitPower_eq_self
    {tree : AtomTree}
    (other : ∀ base exponent, tree ≠ .pow base (.num exponent)) :
    splitPower tree = (tree, 1) := by
  rw [splitPower.eq_def]
  split
  · exact absurd rfl (other _ _)
  · rfl

/-- How numeric operands are totalled. -/
structure Totals where
  /-- How numeric operands combine, and the number of none of them. -/
  combine : ℚ → ℚ → ℚ
  neutral : ℚ
  /-- The number that decides the whole node at once, if there is one. -/
  absorbing : Option ℚ

/-- Numeric terms are added up. -/
def sumTotals : Totals where
  combine := fun constant value => constant + value
  neutral := 0
  absorbing := none

/-- Numeric factors are multiplied, and a zero factor decides. -/
def productTotals : Totals where
  combine := fun constant value => constant * value
  neutral := 1
  absorbing := some 0

/-- What tells `normalize_add` and `normalize_mul` apart. -/
structure Collector extends Totals where
  /-- The tag of the node, whose nested nodes its builder splices. -/
  tag : AtomTag
  /-- The key and the amount of an operand. -/
  split : AtomTree → AtomTree × ℚ
  /-- The operand of a key whose amount is neither 0 nor 1. -/
  rebuild : AtomTree → ℚ → AtomTree
  /-- The builder for two or more operands. -/
  build : List AtomTree → AtomTree

/-- Entries of the map, by key, with their totals. -/
abbrev Entries : Type := List (AtomTree × ℚ)

namespace Collector

/-- The loop over the normalized operands; an error is an absorbing number. -/
def collect (collector : Collector) :
    List AtomTree → Entries → ℚ → Except ℚ (Entries × ℚ)
  | [], entries, constant => .ok (entries, constant)
  | operand :: rest, entries, constant =>
      match operand.numValue? with
      | some value =>
          if collector.absorbing = some value then
            .error value
          else
            collector.collect rest entries (collector.combine constant value)
      | none =>
          let entry := collector.split operand
          collector.collect rest
            (OrderedMap.accumulate Ord.compare entry.1 entry.2 entries) constant

/-- The operands an entry stands for: none, the key itself, or a new node. -/
def rebuilt (collector : Collector) (entry : AtomTree × ℚ) : List AtomTree :=
  if entry.2 = 0 then
    []
  else if entry.2 = 1 then
    [entry.1]
  else
    [collector.rebuild entry.1 entry.2]

/-- The operands after collection, with the number last. -/
def collected
    (collector : Collector)
    (entries : Entries)
    (constant : ℚ) :
    List AtomTree :=
  let operands := entries.flatMap collector.rebuilt
  if constant ≠ collector.neutral ∨ operands = [] then
    operands ++ [.num constant]
  else
    operands

/-- A single operand stands for itself. -/
def assemble (collector : Collector) : List AtomTree → AtomTree
  | [only] => only
  | operands => collector.build operands

/-- The node collected from normalized operands. -/
def finish (collector : Collector) (operands : List AtomTree) : AtomTree :=
  match collector.collect operands [] collector.neutral with
  | .error value => .num value
  | .ok (entries, constant) =>
      collector.assemble (collector.collected entries constant)

end Collector

/-- The parameters of `normalize_add`. -/
def sums : Collector where
  toTotals := sumTotals
  tag := .add
  split := splitCoefficient
  rebuild := fun term coefficient => mkMul [.num coefficient, term]
  build := mkAdd

/-- The parameters of `normalize_mul`. -/
def products : Collector where
  toTotals := productTotals
  tag := .mul
  split := splitPower
  rebuild := fun base exponent => .pow base (.num exponent)
  build := mkMul

/-- `normalize_add`, on the normalized children. -/
def normalizeAdd (children : List AtomTree) : AtomTree :=
  sums.finish children

/-- `normalize_mul`, on the normalized children. -/
def normalizeMul (children : List AtomTree) : AtomTree :=
  products.finish children

/-- `normalize_pow`, on the normalized base and exponent. -/
def normalizePow (base exponent : AtomTree) : AtomTree :=
  match exponent.numValue? with
  | some value =>
      if value = 0 then
        .num 1
      else if value = 1 then
        base
      else
        .pow base exponent
  | none => .pow base exponent

mutual

/-- `normalize`. -/
def normalize : AtomTree → AtomTree
  | .num value => .num value
  | .var symbol => .var symbol
  | .add terms => normalizeAdd (normalizeAll terms)
  | .mul factors => normalizeMul (normalizeAll factors)
  | .pow base exponent => normalizePow (normalize base) (normalize exponent)
  | .func head arguments => .func head (normalizeAll arguments)

/-- `normalize` on each child in order. -/
def normalizeAll : List AtomTree → List AtomTree
  | [] => []
  | tree :: rest => normalize tree :: normalizeAll rest

end

@[simp] theorem normalizeAll_eq_map
    (trees : List AtomTree) :
    normalizeAll trees = trees.map normalize := by
  induction trees with
  | nil =>
      rfl
  | cons tree rest inductionHypothesis =>
      rw [normalizeAll, inductionHypothesis, List.map_cons]

end AtomTree

end AtomCore
