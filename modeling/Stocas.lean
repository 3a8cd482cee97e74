import Stocas.Library.Run
import Stocas.Library.Lexicographic
import Stocas.Library.Outcome
import Stocas.Library.Aggregate
import Stocas.Library.OrderedMap
import Stocas.Library.GreatestCommonDivisor
import Stocas.Library.MonicDivision
import Stocas.Library.PrimeIntegral
import Stocas.Library.WrappedExponents
import Stocas.Library.SmallFraction
import Stocas.Library.WordPrimes
import Stocas.Library.NewtonRoot
import Stocas.Library.WhileLoop
import Stocas.Library.SquarefreeParts
import Stocas.Library.DegreeParts
import Stocas.Library.Recorded
import Stocas.Library.Related
import Stocas.Library.Simulation
import Stocas.Library.WorkerPool
import Stocas.Library.WorkerCrash
import Stocas.Library.Bracketing
import Stocas.Library.Convergence
import Stocas.Library.RowEchelon
import Stocas.Library.TruncatedSeries
import Stocas.Library.CourseOfValues
import Stocas.Library.EchelonUniqueness
import Stocas.Library.Realization
import Stocas.Library.GrowingState
import Stocas.Numerica.Decimal
import Stocas.Numerica.Rational
import Stocas.Numerica.Reconstruction
import Stocas.Numerica.FiniteField
import Stocas.Numerica.HyperDual
import Stocas.Numerica.HyperDualSeries
import Stocas.Numerica.HyperDualRing
import Stocas.Numerica.BigInt
import Stocas.Numerica.BigIntExact
import Stocas.Numerica.FiniteFieldWords
import Stocas.Numerica.RationalNumber
import Stocas.Numerica.IntegerSquareRoot
import Stocas.Numerica.MachineReconstruction
import Stocas.Algebra.Rings
import Stocas.Algebra.Euclid
import Stocas.Algebra.RowReduce
import Stocas.Algebra.RowCanonical
import Stocas.Algebra.MachineRowReduce
import Stocas.Workspace.Arena
import Stocas.Workspace.Safety
import Stocas.Workspace.Alignment
import Stocas.SymbolTable.Table
import Stocas.SymbolTable.Interleaving
import Stocas.SymbolTable.Namespaces
import Stocas.Atom.Tree
import Stocas.Atom.Normalize
import Stocas.Atom.NormalForm
import Stocas.Atom.NormalizeStore
import Stocas.Atom.Gathering
import Stocas.Atom.Tidy
import Stocas.Atom.Idempotence
import Stocas.Atom.Evaluation
import Stocas.Atom.NormalizeValue
import Stocas.Atom.Printer
import Stocas.Atom.Tokenizer
import Stocas.Atom.PrintedLexemes
import Stocas.Atom.Reparse
import Stocas.Atom.PrintedParse
import Stocas.Atom.PrintedOperators
import Stocas.Atom.RoundTrip
import Stocas.Atom.Parsed
import Stocas.Atom.PrintedValue
import Stocas.Atom.Grammar
import Stocas.Atom.GrammarReading
import Stocas.Atom.GrammarValue
import Stocas.Atom.GrammarAcceptance
import Stocas.Atom.TokenVector
import Stocas.Atom.TokenVectorSafety
import Stocas.Atom.SymbolResolution
import Stocas.Atom.TreeParser
import Stocas.Atom.ParseStability
import Stocas.Atom.Parser
import Stocas.Atom.Store
import Stocas.Atom.StoreInvariant
import Stocas.Atom.Interning
import Stocas.Atom.Builders
import Stocas.Atom.Regrouping
import Stocas.Atom.StructuralHash
import Stocas.Pattern.Wildcard
import Stocas.Pattern.Matcher
import Stocas.Pattern.Equality
import Stocas.Pattern.Search
import Stocas.Pattern.Soundness
import Stocas.Pattern.Completeness
import Stocas.Pattern.Rewrite
import Stocas.Pattern.RewriteValue
import Stocas.Pattern.SlotMatcher
import Stocas.Pattern.SlotMatcherTrees
import Stocas.Pattern.SlotRewrite
import Stocas.Pattern.RepeatedRewrite
import Stocas.Pattern.ParallelRewrite
import Stocas.Pattern.ParallelFailure
import Stocas.Pattern.Assignment
import Stocas.Poly.Monomial
import Stocas.Poly.Polynomial
import Stocas.Poly.Variables
import Stocas.Poly.Denotation
import Stocas.Poly.MachinePolynomial
import Stocas.Poly.AtomConversion
import Stocas.Poly.ConversionValue
import Stocas.Poly.VariableValues
import Stocas.Poly.Division
import Stocas.Poly.MultivariateGcd
import Stocas.Poly.Univariate
import Stocas.Poly.EliminationDegree
import Stocas.Poly.GcdCorrectness
import Stocas.Poly.GcdErrors
import Stocas.Poly.RationalGcd
import Stocas.Poly.PrimeReduction
import Stocas.Poly.ModularRoundTrip
import Stocas.Poly.RationalGcdCorrectness
import Stocas.Poly.Factorization
import Stocas.Poly.SquarefreeDecomposition
import Stocas.Poly.FactorProduct
import Stocas.Poly.FactorIrreducible
import Stocas.Poly.WidePowers
import Stocas.Poly.DistinctDegrees
import Stocas.Poly.DistinctDegreeSplit
import Stocas.Poly.ReturnedFactors
import Stocas.Poly.EqualDegrees
import Stocas.Poly.CompleteFactorization
import Stocas.Library.Interpolation
import Stocas.Poly.Interpolation
import Stocas.Poly.MachineDivision
import Stocas.Poly.MachineRemainder
import Stocas.Poly.MachineUnivariate
import Stocas.Poly.RationalPolynomial
import Stocas.Poly.RationalPolynomialValue
import Stocas.Poly.RationalPolynomialField
import Stocas.Poly.MachineGcd
import Stocas.Poly.RationalConversion
import Stocas.Calculus.Derivative
import Stocas.Calculus.HookCalls
import Stocas.Calculus.DerivativeValue
import Stocas.Calculus.Series
import Stocas.Calculus.SeriesValue
import Stocas.Library.TaylorJet
import Stocas.Numerica.HyperDualFunctions
import Stocas.Numerica.Dual
import Stocas.Calculus.RealValue
import Stocas.Calculus.SeriesTaylor
import Stocas.Calculus.TaylorExpansion
import Stocas.Calculus.RealDerivative
import Stocas.Calculus.EnginesAgree
import Stocas.Calculus.SlotDerivative
import Stocas.Calculus.SlotDerivativeTrees
import Stocas.Poly.PolynomialAtom
import Stocas.Poly.PolynomialAtomForm
import Stocas.Poly.RationalAtomForm
import Stocas.Poly.PolynomialAtomValue
import Stocas.Poly.RationalAtomValue
import Stocas.Program.Calls
import Stocas.Program.Refinement
import Stocas.Calculus.ForwardMode
