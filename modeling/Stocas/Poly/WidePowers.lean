import Stocas.Poly.FactorIrreducible

namespace PolyCore

open MultivariatePolynomial
open Outcome (bind_eq_ok ok_bind)
open SymbolTable (Symbol)

/-!
# Powers of the variable modulo a polynomial of high degree

Below degree `2^31` all products of `poly_powmod` keep their exponents.  Above it the
variable is squared up to `x^(2^31)` without a reduction, and its next square wraps to
the constant one.  So the exponent of the whole power counts modulo `2^32` only.
-/

variable {single : Fin 1 → Symbol} {K : Type} [Field K] [DecidableEq K]

/-- The product of two powers of the variable wraps. -/
theorem toPolynomial_wrappedMul_X_pow
    {left right : MultivariatePolynomial single K}
    {first second : ℕ}
    (leftPower : left.toPolynomial = Polynomial.X ^ first)
    (rightPower : right.toPolynomial = Polynomial.X ^ second) :
    (left.wrappedMul right).toPolynomial =
      Polynomial.X ^ ((first + second) % exponentModulus) := by
  have isPower
      {poly : MultivariatePolynomial single K}
      {count : ℕ}
      (power : poly.toPolynomial = Polynomial.X ^ count) :
      poly = fromTerm ⟨fun _ => count⟩ 1 := by
    apply toPolynomial_injective
    rw [power, toPolynomial_fromTerm, ← Polynomial.X_pow_eq_monomial]
  have product :
      left.wrappedMul right =
        ofRaw [(⟨fun _ => (first + second) % exponentModulus⟩, 1)] := by
    rw [isPower leftPower, isPower rightPower]
    simp [wrappedMul, fromTerm, isZero, Monomial.wrappedMul]
  have collected :
      (ofRaw [(⟨fun _ => (first + second) % exponentModulus⟩, 1)] :
          MultivariatePolynomial single K) =
        fromTerm ⟨fun _ => (first + second) % exponentModulus⟩ 1 := by
    apply toMvPolynomial_injective
    rw [toMvPolynomial_ofRaw, toMvPolynomial_fromTerm]
    simp
  rw [product, collected, toPolynomial_fromTerm, ← Polynomial.X_pow_eq_monomial]

variable [FieldErrors K]

/-- A division by a monic polynomial returns the remainder. -/
theorem exists_remainder
    (dividend : MultivariatePolynomial single K)
    {modulus : MultivariatePolynomial single K}
    (monic : modulus.toPolynomial.Monic) :
    ∃ quotient remainder,
      univariateDivRem dividend modulus = .ok (quotient, remainder) ∧
      remainder.toPolynomial = dividend.toPolynomial %ₘ modulus.toPolynomial := by
  obtain ⟨quotient, remainder, returns, _, isRemainder⟩ :=
    univariateDivRem_monic dividend monic
  exact ⟨quotient, remainder, returns, isRemainder⟩

/-- Modulo a monic polynomial the loop of `poly_powmod` returns. -/
theorem polyPowmodLoop_returns
    {modulus : MultivariatePolynomial single K}
    (monic : modulus.toPolynomial.Monic)
    (result reducedBase : MultivariatePolynomial single K)
    (exponent : ℤ) :
    ∃ power, polyPowmodLoop modulus result reducedBase exponent = .ok power := by
  induction size : exponent.toNat using Nat.strong_induction_on
    generalizing exponent result reducedBase with
  | _ count inductionHypothesis =>
      rw [polyPowmodLoop]
      split
      · rename_i positive
        have half : exponent.tdiv 2 = exponent / 2 :=
          Int.tdiv_eq_ediv_of_nonneg (le_of_lt positive)
        have smaller : (exponent.tdiv 2).toNat < count := by omega
        obtain ⟨_, nextBase, squared, _⟩ :=
          exists_remainder (reducedBase.wrappedMul reducedBase) monic
        obtain ⟨_, nextResult, multiplied, _⟩ :=
          exists_remainder (result.wrappedMul reducedBase) monic
        split
        · simp only [ok_bind, squared]
          exact inductionHypothesis _ smaller result nextBase _ rfl
        · simp only [ok_bind, squared, multiplied]
          exact inductionHypothesis _ smaller nextResult nextBase _ rfl
      · exact ⟨result, rfl⟩

theorem polyPowmod_returns
    {modulus : MultivariatePolynomial single K}
    (monic : modulus.toPolynomial.Monic)
    (base : MultivariatePolynomial single K)
    (exponent : ℤ) :
    ∃ power, polyPowmod base exponent modulus = .ok power := by
  obtain ⟨_, reducedBase, reduces, _⟩ := exists_remainder base monic
  rw [polyPowmod, reduces, ok_bind]
  exact polyPowmodLoop_returns monic _ reducedBase exponent

section Wide

variable {modulus : MultivariatePolynomial single K}

omit [DecidableEq K] [FieldErrors K] in
/-- Powers of lower degree than the polynomial are their own remainders. -/
theorem X_pow_modByMonic
    (monic : modulus.toPolynomial.Monic)
    {count : ℕ}
    (bounded : count < modulus.toPolynomial.natDegree) :
    (Polynomial.X ^ count : Polynomial K) %ₘ modulus.toPolynomial = Polynomial.X ^ count := by
  rw [Polynomial.modByMonic_eq_self_iff monic, Polynomial.degree_X_pow,
    Polynomial.degree_eq_natDegree monic.ne_zero]
  exact_mod_cast bounded

/-- The remainder of a product of powers is that of the wrapped power. -/
theorem remainder_X_pow
    (monic : modulus.toPolynomial.Monic)
    {left right quotient remainder : MultivariatePolynomial single K}
    {first second total : ℕ}
    (leftPower : left.toPolynomial = Polynomial.X ^ first)
    (rightPower : right.toPolynomial = Polynomial.X ^ second)
    (wraps : (first + second) % exponentModulus = total)
    (returned :
      univariateDivRem (left.wrappedMul right) modulus = .ok (quotient, remainder)) :
    remainder.toPolynomial = Polynomial.X ^ total %ₘ modulus.toPolynomial := by
  rw [remainder_eq monic returned, toPolynomial_wrappedMul_X_pow leftPower rightPower, wraps]

/-- Once the base is one, the result only stays reduced. -/
theorem PowmodRun.of_base_one
    (monic : modulus.toPolynomial.Monic)
    (fits : modulus.toPolynomial.natDegree < exponentModulus)
    (nonconstant : 0 < modulus.toPolynomial.natDegree)
    {result reducedBase power : MultivariatePolynomial single K}
    {count : ℕ}
    (run : PowmodRun modulus result reducedBase count power)
    (resultReduced : result.toPolynomial.natDegree < modulus.toPolynomial.natDegree)
    (isOne : reducedBase.toPolynomial = 1) :
    power.toPolynomial = result.toPolynomial := by
  have keeps
      {poly one quotient remainder : MultivariatePolynomial single K}
      (reduced : poly.toPolynomial.natDegree < modulus.toPolynomial.natDegree)
      (isOne : one.toPolynomial = 1)
      (divided :
        univariateDivRem (poly.wrappedMul one) modulus = .ok (quotient, remainder)) :
      remainder.toPolynomial = poly.toPolynomial := by
    rw [remainder_eq monic divided,
      toPolynomial_wrappedMul (by rw [isOne, Polynomial.natDegree_one]; omega), isOne,
      mul_one, Polynomial.modByMonic_eq_self_iff monic]
    exact Polynomial.degree_lt_degree reduced
  have oneReduced
      {one : MultivariatePolynomial single K}
      (isOne : one.toPolynomial = 1) :
      one.toPolynomial.natDegree < modulus.toPolynomial.natDegree := by
    rw [isOne, Polynomial.natDegree_one]
    exact nonconstant
  induction run with
  | done =>
      rfl
  | even squared _ inductionHypothesis =>
      exact inductionHypothesis resultReduced
        ((keeps (oneReduced isOne) isOne squared).trans isOne)
  | odd multiplied squared _ inductionHypothesis =>
      have unchanged := keeps resultReduced isOne multiplied
      rw [← unchanged]
      exact inductionHypothesis (unchanged ▸ resultReduced)
        ((keeps (oneReduced isOne) isOne squared).trans isOne)

/-- The square of the base, below the last bit and at it. -/
theorem square_X_pow
    (monic : modulus.toPolynomial.Monic)
    (wide : 2 ^ 31 < modulus.toPolynomial.natDegree)
    {reducedBase nextBase quotient : MultivariatePolynomial single K}
    {bit : ℕ}
    (bitBound : bit ≤ 31)
    (basePower : reducedBase.toPolynomial = Polynomial.X ^ 2 ^ bit)
    (squared :
      univariateDivRem (reducedBase.wrappedMul reducedBase) modulus =
        .ok (quotient, nextBase)) :
    (bit = 31 ∧ nextBase.toPolynomial = 1) ∨
      (bit + 1 ≤ 31 ∧ nextBase.toPolynomial = Polynomial.X ^ 2 ^ (bit + 1)) := by
  by_cases last : bit = 31
  · subst last
    have wraps : (2 ^ 31 + 2 ^ 31) % exponentModulus = 0 := rfl
    refine Or.inl ⟨rfl, ?_⟩
    rw [remainder_X_pow monic basePower basePower wraps squared,
      X_pow_modByMonic monic (by omega), pow_zero]
  · have nextBit : bit + 1 ≤ 31 := by omega
    have nextBitPower : 2 ^ (bit + 1) ≤ 2 ^ 31 :=
      Nat.pow_le_pow_right (by decide) nextBit
    have doubled : (2 ^ bit + 2 ^ bit) % exponentModulus = 2 ^ (bit + 1) := by
      rw [pow_succ, mul_two, Nat.mod_eq_of_lt]
      unfold exponentModulus
      rw [pow_succ] at nextBitPower
      omega
    refine Or.inr ⟨nextBit, ?_⟩
    rw [remainder_X_pow monic basePower basePower doubled squared,
      X_pow_modByMonic monic (by omega)]

/-- After the result of a round the rest of the run keeps the total exponent. -/
theorem PowmodRun.continue_wide
    (monic : modulus.toPolynomial.Monic)
    (fits : modulus.toPolynomial.natDegree < exponentModulus)
    (wide : 2 ^ 31 < modulus.toPolynomial.natDegree)
    {reducedBase nextResult nextBase quotient power : MultivariatePolynomial single K}
    {bit count half : ℕ}
    (bitBound : bit ≤ 31)
    (basePower : reducedBase.toPolynomial = Polynomial.X ^ 2 ^ bit)
    (squared :
      univariateDivRem (reducedBase.wrappedMul reducedBase) modulus =
        .ok (quotient, nextBase))
    (countBound : count < 2 ^ (bit + 1))
    (resultPower :
      nextResult.toPolynomial = Polynomial.X ^ count %ₘ modulus.toPolynomial)
    (run : PowmodRun modulus nextResult nextBase half power)
    (later :
      bit + 1 ≤ 31 →
      nextResult.toPolynomial = Polynomial.X ^ count →
      nextBase.toPolynomial = Polynomial.X ^ 2 ^ (bit + 1) →
      power.toPolynomial =
        Polynomial.X ^ ((count + 2 ^ (bit + 1) * half) % exponentModulus) %ₘ
          modulus.toPolynomial) :
    power.toPolynomial =
      Polynomial.X ^ ((count + 2 ^ (bit + 1) * half) % exponentModulus) %ₘ
        modulus.toPolynomial := by
  rcases square_X_pow monic wide bitBound basePower squared with
    ⟨last, isOne⟩ | ⟨nextBit, nextPower⟩
  · subst last
    have reduced :
        nextResult.toPolynomial.natDegree < modulus.toPolynomial.natDegree := by
      rw [resultPower]
      refine Polynomial.natDegree_modByMonic_lt _ monic ?_
      intro isUnit
      rw [isUnit, Polynomial.natDegree_one] at wide
      omega
    have sameCount : (count + 2 ^ (31 + 1) * half) % exponentModulus = count := by
      rw [show exponentModulus = 2 ^ (31 + 1) from rfl, Nat.add_mul_mod_self_left,
        Nat.mod_eq_of_lt countBound]
    rw [run.of_base_one monic fits (by omega) reduced isOne, resultPower, sameCount]
  · have bitPower : 2 ^ (bit + 1) ≤ 2 ^ 31 := Nat.pow_le_pow_right (by decide) nextBit
    rw [X_pow_modByMonic monic (by omega)] at resultPower
    exact later nextBit resultPower nextPower

/--
From `x^count` and the base `x^(2^bit)` with `count < 2^bit`, a run computes the power
of `x` whose exponent is taken modulo `2^32`.
-/
theorem PowmodRun.wide
    (monic : modulus.toPolynomial.Monic)
    (fits : modulus.toPolynomial.natDegree < exponentModulus)
    (wide : 2 ^ 31 < modulus.toPolynomial.natDegree)
    {result reducedBase power : MultivariatePolynomial single K}
    {rest count bit : ℕ}
    (run : PowmodRun modulus result reducedBase rest power)
    (bitBound : bit ≤ 31)
    (countBound : count < 2 ^ bit)
    (resultPower : result.toPolynomial = Polynomial.X ^ count)
    (basePower : reducedBase.toPolynomial = Polynomial.X ^ 2 ^ bit) :
    power.toPolynomial =
      Polynomial.X ^ ((count + 2 ^ bit * rest) % exponentModulus) %ₘ
        modulus.toPolynomial := by
  induction run generalizing count bit with
  | done =>
      have bitPower : 2 ^ bit ≤ 2 ^ 31 := Nat.pow_le_pow_right (by decide) bitBound
      have unwrapped : count % exponentModulus = count := by
        refine Nat.mod_eq_of_lt ?_
        unfold exponentModulus
        omega
      rw [mul_zero, add_zero, unwrapped, X_pow_modByMonic monic (by omega), resultPower]
  | @even _ _ _ _ _ half squared run inductionHypothesis =>
      have bitPower : 2 ^ bit ≤ 2 ^ 31 := Nat.pow_le_pow_right (by decide) bitBound
      have total : count + 2 ^ bit * (2 * half) = count + 2 ^ (bit + 1) * half := by
        ring
      have bounded : count < 2 ^ (bit + 1) := by
        rw [pow_succ]
        omega
      have kept :
          (Polynomial.X ^ count : Polynomial K) %ₘ modulus.toPolynomial =
            Polynomial.X ^ count :=
        X_pow_modByMonic monic (by omega)
      rw [total]
      exact run.continue_wide monic fits wide bitBound basePower squared bounded
        (resultPower.trans kept.symm)
        (fun nextBit => inductionHypothesis nextBit bounded)
  | @odd _ _ _ _ _ _ _ half multiplied squared run inductionHypothesis =>
      have bitPower : 2 ^ bit ≤ 2 ^ 31 := Nat.pow_le_pow_right (by decide) bitBound
      have unwrapped : (count + 2 ^ bit) % exponentModulus = count + 2 ^ bit := by
        refine Nat.mod_eq_of_lt ?_
        unfold exponentModulus
        omega
      have total :
          count + 2 ^ bit * (2 * half + 1) = count + 2 ^ bit + 2 ^ (bit + 1) * half := by
        ring
      have bounded : count + 2 ^ bit < 2 ^ (bit + 1) := by
        rw [pow_succ]
        omega
      rw [total]
      exact run.continue_wide monic fits wide bitBound basePower squared bounded
        (remainder_X_pow monic resultPower basePower unwrapped multiplied)
        (fun nextBit => inductionHypothesis nextBit bounded)

/--
Modulo a polynomial of degree above `2^31`, `poly_powmod` computes the power of the
variable whose exponent is taken modulo `2^32`.
-/
theorem polyPowmod_wide
    (monic : modulus.toPolynomial.Monic)
    (fits : modulus.toPolynomial.natDegree < exponentModulus)
    (wide : 2 ^ 31 < modulus.toPolynomial.natDegree)
    {base power : MultivariatePolynomial single K}
    {exponent : ℤ}
    (isX : base.toPolynomial = Polynomial.X)
    (returned : polyPowmod base exponent modulus = .ok power) :
    modulus.toPolynomial ∣
      power.toPolynomial - Polynomial.X ^ (exponent.toNat % exponentModulus) := by
  obtain ⟨⟨_, reducedBase⟩, reduces, continues⟩ := bind_eq_ok.mp returned
  have basePower : reducedBase.toPolynomial = Polynomial.X ^ 2 ^ 0 := by
    rw [remainder_eq monic reduces, isX, pow_zero, pow_one,
      Polynomial.modByMonic_eq_self_iff monic, Polynomial.degree_X,
      Polynomial.degree_eq_natDegree monic.ne_zero]
    exact_mod_cast (show 1 < modulus.toPolynomial.natDegree by omega)
  have isPower :=
    (powmodRun continues).wide monic fits wide (Nat.zero_le 31) Nat.one_pos
      (show (constant 1 : MultivariatePolynomial single K).toPolynomial =
        Polynomial.X ^ 0 by simp)
      basePower
  rw [pow_zero, one_mul, zero_add] at isPower
  rw [isPower]
  exact Polynomial.dvd_modByMonic_sub _ _

end Wide

end PolyCore
