import Mathlib.Data.List.Prime
import Mathlib.Data.ZMod.Basic
import Mathlib.NumberTheory.LucasPrimality
import Mathlib.Tactic.NormNum.Prime
import Mathlib.Tactic.ReduceModChar

namespace WordPrimes

/-!
# Large primes of machine words

A number is prime when some residue has the order of the number minus one.  The
factors of that order are found from the prime factors of the number minus one.
-/

/-- A prime that divides a product of prime powers is one of the primes. -/
theorem mem_of_dvd_primePowers
    {divisor : ℕ}
    (isPrime : divisor.Prime)
    {factors : List (ℕ × ℕ)}
    (primes : ∀ factor ∈ factors, factor.1.Prime)
    (divides : divisor ∣ (factors.map fun factor => factor.1 ^ factor.2).prod) :
    divisor ∈ factors.map Prod.fst := by
  obtain ⟨power, powerMember, dividesPower⟩ := (isPrime.prime.dvd_prod_iff).mp divides
  obtain ⟨factor, member, rfl⟩ := List.mem_map.mp powerMember
  have same : divisor = factor.1 :=
    (Nat.prime_dvd_prime_iff_eq isPrime (primes factor member)).mp
      (isPrime.dvd_of_dvd_pow dividesPower)
  exact same ▸ List.mem_map_of_mem member

/-- Lucas's test over the prime powers whose product is the number minus one. -/
theorem prime_of_primePowers
    {modulus : ℕ}
    (base : ZMod modulus)
    (factors : List (ℕ × ℕ))
    (primes : ∀ factor ∈ factors, factor.1.Prime)
    (product : (factors.map fun factor => factor.1 ^ factor.2).prod = modulus - 1)
    (whole : base ^ (modulus - 1) = 1)
    (parts : ∀ divisor ∈ factors.map Prod.fst, base ^ ((modulus - 1) / divisor) ≠ 1) :
    modulus.Prime :=
  lucas_primality modulus base whole fun divisor isPrime divides =>
    parts divisor (mem_of_dvd_primePowers isPrime primes (product ▸ divides))

/-- A residue other than one is not one. -/
theorem ne_one_of_residue
    {modulus residue : ℕ}
    (large : 1 < modulus)
    {value : ZMod modulus}
    (isResidue : value = (residue : ℕ))
    (differs : residue % modulus ≠ 1) :
    value ≠ 1 := by
  intro isOne
  have same : ((residue : ℕ) : ZMod modulus) = (1 : ℕ) := by
    rw [← isResidue, isOne, Nat.cast_one]
  have congruent := (ZMod.natCast_eq_natCast_iff' residue 1 modulus).mp same
  rw [Nat.mod_eq_of_lt large] at congruent
  exact differs congruent

/-- `2^64 - 2^32 + 1` is prime: seven has the order `2^64 - 2^32`. -/
theorem prime_goldilocks : Nat.Prime 18446744069414584321 := by
  have large : 1 < 18446744069414584321 := by norm_num
  refine prime_of_primePowers 7 [(2, 32), (3, 1), (5, 1), (17, 1), (257, 1), (65537, 1)]
    (by norm_num) (by norm_num) (by reduce_mod_char) ?_
  intro divisor member
  simp only [List.map_cons, List.map_nil, List.mem_cons, List.not_mem_nil, or_false] at member
  rcases member with rfl | rfl | rfl | rfl | rfl | rfl
  all_goals
    norm_num
    reduce_mod_char
    exact ne_one_of_residue large Nat.cast_ofNat.symm (by norm_num)

/-- `18 * 2^32 + 1` is prime: seven has the order `18 * 2^32`. -/
theorem prime_wrapping : Nat.Prime 77309411329 := by
  have large : 1 < 77309411329 := by norm_num
  refine prime_of_primePowers 7 [(2, 33), (3, 2)]
    (by norm_num) (by norm_num) (by reduce_mod_char) ?_
  intro divisor member
  simp only [List.map_cons, List.map_nil, List.mem_cons, List.not_mem_nil, or_false] at member
  rcases member with rfl | rfl
  all_goals
    norm_num
    reduce_mod_char
    exact ne_one_of_residue large Nat.cast_ofNat.symm (by norm_num)

end WordPrimes
