import Stocas.Atom.PrintedLexemes

namespace AtomCore

/-!
# The tree that is parsed back

A fraction is printed as two numbers with a slash between them, and the parser
reads a slash as an operator that binds less tightly than a caret.  `reparse` is
the tree that the parser builds from the printed text; for trees whose numbers are
integers it only sorts sums and products again.
-/

namespace AtomTree

/-- The product with an inverse that the parser builds for a slash. -/
def quotient (numerator denominator : AtomTree) : AtomTree :=
  mkMul [numerator, .pow denominator (.num (-1))]

/-- Numerator and denominator of a fraction. -/
def fraction? : AtomTree → Option (ℤ × ℕ)
  | .num value => if value.den = 1 then none else some (value.num, value.den)
  | _ => none

/-- A first operand divided by others, one after the other. -/
def divided (parts : AtomTree × List AtomTree) : AtomTree :=
  parts.2.foldl quotient parts.1

mutual

/--
What the parser makes of the printed tree: the part before the first slash that
stands outside parentheses, and the parts after each such slash.
-/
def slashParts : AtomTree → AtomTree × List AtomTree
  | .num value =>
      if value.den = 1 then
        (.num value, [])
      else
        (.num value.num, [.num value.den])
  | .var symbol => (.var symbol, [])
  | .add terms => (mkAdd (reparseAll terms), [])
  | .mul factors => (mkMul (reparseAll factors), [])
  | .pow base exponent =>
      let (power, divisors) := slashParts exponent
      match base.fraction? with
      | some (numerator, denominator) =>
          (.num numerator, .pow (.num denominator) power :: divisors)
      | none => (.pow (divided (slashParts base)) power, divisors)
  | .func head arguments => (.func head (reparseAll arguments), [])

/-- What the parser makes of every child. -/
def reparseAll : List AtomTree → List AtomTree
  | [] => []
  | tree :: rest => divided (slashParts tree) :: reparseAll rest

end

/-- What parsing the printed tree gives. -/
def reparse (tree : AtomTree) : AtomTree :=
  divided (slashParts tree)

@[simp] theorem reparseAll_eq_map
    (trees : List AtomTree) :
    reparseAll trees = trees.map reparse := by
  induction trees with
  | nil =>
      rfl
  | cons tree rest inductionHypothesis =>
      simp only [reparseAll, inductionHypothesis, List.map_cons, reparse]

/-- Dividing a product divides its last factor. -/
theorem quotient_mkMul
    (product factor denominator : AtomTree) :
    quotient (mkMul [product, factor]) denominator =
      mkMul [product, quotient factor denominator] := by
  have left :=
    mkMul_splice [] [product, factor] [.pow denominator (.num (-1))]
  have right :=
    mkMul_splice [product] [factor, .pow denominator (.num (-1))] []
  exact left.trans right.symm

/-- The same for several divisors. -/
theorem divided_mkMul
    (product first : AtomTree)
    (divisors : List AtomTree) :
    divided (mkMul [product, first], divisors) =
      mkMul [product, divided (first, divisors)] := by
  simp only [divided]
  induction divisors generalizing first with
  | nil =>
      rfl
  | cons divisor rest inductionHypothesis =>
      simp only [List.foldl_cons, quotient_mkMul, inductionHypothesis]

/-- Terms added one after the other make one sum. -/
theorem foldl_mkAdd
    (terms others : List AtomTree) :
    others.foldl (fun sum term => mkAdd [sum, term]) (mkAdd terms) =
      mkAdd (terms ++ others) := by
  induction others generalizing terms with
  | nil =>
      rw [List.foldl_nil, List.append_nil]
  | cons term rest inductionHypothesis =>
      have spliced := mkAdd_splice [] terms [term]
      rw [List.nil_append, List.nil_append] at spliced
      rw [List.foldl_cons, spliced, inductionHypothesis, List.append_assoc]
      rfl

/-- Factors multiplied one after the other make one product. -/
theorem foldl_mkMul
    (factors others : List AtomTree) :
    others.foldl (fun product factor => mkMul [product, factor])
        (mkMul factors) =
      mkMul (factors ++ others) := by
  induction others generalizing factors with
  | nil =>
      rw [List.foldl_nil, List.append_nil]
  | cons factor rest inductionHypothesis =>
      have spliced := mkMul_splice [] factors [factor]
      rw [List.nil_append, List.nil_append] at spliced
      rw [List.foldl_cons, spliced, inductionHypothesis, List.append_assoc]
      rfl

/-- A number is an integer. -/
def IntegerLeaf : AtomTree → Prop
  | .num value => value.den = 1
  | _ => True

/-- Nothing is divided, and sums and products are found sorted. -/
theorem slashParts_eq_self
    {tree : AtomTree}
    (canonical : tree.Canonical)
    (integers : tree.Everywhere IntegerLeaf) :
    tree.slashParts = (tree, []) := by
  have noFraction :
      ∀ {tree : AtomTree}, tree.IntegerLeaf → tree.fraction? = none := by
    intro tree integer
    cases tree with
    | num value =>
        exact if_pos integer
    | var | add | mul | pow | func =>
        rfl
  have sameChildren :
      ∀ {children : List AtomTree},
        (∀ child ∈ children, child.slashParts = (child, [])) →
        reparseAll children = children := by
    intro children same
    rw [reparseAll_eq_map]
    refine (List.map_congr_left ?_).trans children.map_id
    intro child member
    rw [reparse, same child member]
    rfl
  induction tree with
  | num value =>
      exact if_pos integers.root
  | var symbol =>
      rfl
  | add terms inductionHypothesis =>
      have same :=
        sameChildren fun term member =>
          inductionHypothesis term member (canonical.child member)
            (integers.child member)
      rw [slashParts, same, mkAdd_children canonical]
  | mul factors inductionHypothesis =>
      have same :=
        sameChildren fun factor member =>
          inductionHypothesis factor member (canonical.child member)
            (integers.child member)
      rw [slashParts, same, mkMul_children canonical]
  | pow base exponent baseHypothesis exponentHypothesis =>
      have baseMember : base ∈ (AtomTree.pow base exponent).children := by
        simp [children]
      have exponentMember :
          exponent ∈ (AtomTree.pow base exponent).children := by
        simp [children]
      have sameBase :=
        baseHypothesis (canonical.child baseMember) (integers.child baseMember)
      have sameExponent :=
        exponentHypothesis (canonical.child exponentMember)
          (integers.child exponentMember)
      simp only [slashParts, noFraction (integers.child baseMember).root,
        sameBase, sameExponent, divided, List.foldl_nil]
  | func head arguments inductionHypothesis =>
      have same :=
        sameChildren fun argument member =>
          inductionHypothesis argument member (canonical.child member)
            (integers.child member)
      rw [slashParts, same]

/-- Canonical trees of integers are parsed back as they are. -/
theorem reparse_eq_self
    {tree : AtomTree}
    (canonical : tree.Canonical)
    (integers : tree.Everywhere IntegerLeaf) :
    tree.reparse = tree := by
  rw [reparse, slashParts_eq_self canonical integers]
  rfl

end AtomTree

end AtomCore
