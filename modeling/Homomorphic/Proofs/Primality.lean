import Homomorphic.Modulus
import Homomorphic.Number.Laws
import Homomorphic.Proofs.Sieve

namespace Homomorphic

/-- The test is right about every odd number above two. -/
def ExactTest (test : ℕ → Bool) : Prop := ∀ n, n % 2 = 1 → 2 < n → (test n = true ↔ n.Prime)

def ExactBeyondSieve (test : ℕ → Bool) : Prop :=
  ∀ n, n % 2 = 1 → 2 < n → passesSieve n smallPrimes = true → (test n = true ↔ n.Prime)

variable {test : ℕ → Bool} {n : ℕ}

theorem isProbablePrime_iff_prime (exact : ExactBeyondSieve test) :
    isProbablePrime test n = true ↔ n.Prime := by
  rw [isProbablePrime]
  by_cases hsmall : n < 2
  · rw [if_pos hsmall]
    exact iff_of_false (by simp) fun hn => absurd hn.two_le (by omega)
  rw [if_neg hsmall]
  by_cases heven : n % 2 = 0
  · rw [if_pos heven, decide_eq_true_iff]
    constructor
    · rintro rfl
      exact Nat.prime_two
    · intro hn
      exact (hn.even_iff.mp (Nat.even_iff.mpr heven))
  · have htest := exact n (by omega) (by omega)
    rw [if_neg heven, Bool.and_eq_true]
    constructor
    · rintro ⟨hpasses, htrue⟩
      exact (htest hpasses).mp htrue
    · intro hn
      have hpasses := passesSieve_smallPrimes hn
      exact ⟨hpasses, (htest hpasses).mpr hn⟩

theorem isProbablePrime_iff (exact : ExactTest test) : isProbablePrime test n = true ↔ n.Prime :=
  isProbablePrime_iff_prime fun n hodd hlt _ => exact n hodd hlt

theorem value_of_ofPrime? {m : Modulus} (h : Modulus.ofPrime? test n = some m) : m.value = n := by
  rw [Modulus.ofPrime?] at h
  split at h
  · cases h
    rfl
  · cases h

theorem ofPrime?_eq_some (exact : ExactTest test) (hn : n.Prime) :
    Modulus.ofPrime? test n = some ⟨n, hn.one_lt⟩ := by
  rw [Modulus.ofPrime?, dif_pos ((isProbablePrime_iff exact).mpr hn)]

theorem ofPrime?_eq_none (exact : ExactTest test) (hn : ¬ n.Prime) :
    Modulus.ofPrime? test n = none := by
  rw [Modulus.ofPrime?, dif_neg (fun h => hn ((isProbablePrime_iff exact).mp h))]

theorem prime_of_powMod (a : ℕ) (hn : 1 < n) (hone : powMod a (n - 1) n = 1)
    (hfactor : ∀ r, r.Prime → r ∣ n - 1 → powMod a ((n - 1) / r) n ≠ 1) : n.Prime := by
  have hcast (k : ℕ) : (a : ZMod n) ^ k = 1 ↔ powMod a k n = 1 := by
    rw [← Nat.cast_pow, ← Nat.cast_one, ZMod.natCast_eq_natCast_iff', powMod_eq, Nat.mod_eq_of_lt hn]
  apply lucas_primality n (a : ZMod n) ((hcast _).mpr hone)
  exact fun r hr hdvd hpow => hfactor r hr hdvd ((hcast _).mp hpow)

theorem prime_of_factors (a : ℕ) (rs : List ℕ) (hn : 1 < n) (hone : powMod a (n - 1) n = 1)
    (hrs : ∀ r ∈ rs, r.Prime ∧ powMod a ((n - 1) / r) n ≠ 1) (hall : ∃ k, n - 1 ∣ rs.prod ^ k) :
    n.Prime := by
  apply prime_of_powMod a hn hone
  intro r hr hdvd
  obtain ⟨k, hk⟩ := hall
  obtain ⟨r', hmem, hdvd'⟩ :=
    hr.prime.dvd_prod_iff.mp (hr.dvd_of_dvd_pow (hdvd.trans hk))
  rw [(Nat.prime_dvd_prime_iff_eq hr (hrs r' hmem).1).mp hdvd']
  exact (hrs r' hmem).2

theorem prime_mersenne_521 : (mersenne 521).Prime :=
  lucas_lehmer_sufficiency _ (by simp) (by norm_num)

theorem exactTest_decide : ExactTest fun n => decide n.Prime := fun _ _ _ => decide_eq_true_iff

theorem sieve_keeps_verdict (exact : ExactBeyondSieve test) (n : ℕ) :
    (isProbablePrime test n = true ↔ n.Prime) ∧
    (n.Prime → passesSieve n smallPrimes = true) ∧
    ∀ p, p.Prime → p % 2 = 1 → p < 2000 → p ∣ n → p ≠ n → passesSieve n smallPrimes = false := by
  refine ⟨isProbablePrime_iff_prime exact, passesSieve_smallPrimes, ?_⟩
  intro p hp hodd hlt hdvd hne
  rw [← Bool.not_eq_true, passesSieve_smallPrimes_iff]
  exact fun h => hne (h p hp hodd hlt hdvd)

theorem sieve_keeps_verdict_three :
    ∃ test : ℕ → Bool, ExactBeyondSieve test ∧ test 9 = true ∧ isProbablePrime test 9 = false ∧
      isProbablePrime test 3 = true ∧ isProbablePrime test 1999 = true ∧
      passesSieve (mersenne 521) smallPrimes = true ∧ passesSieve (1999 * 2003) smallPrimes = false := by
  let test (n : ℕ) : Bool := decide (3 ∣ n) || decide n.Prime
  have exact : ExactBeyondSieve test := by
    intro n _ _ hpasses
    have hthree := passesSieve_smallPrimes_iff.mp hpasses 3 Nat.prime_three rfl (by decide)
    simp only [test, Bool.or_eq_true, decide_eq_true_iff]
    refine or_iff_right_of_imp fun h => ?_
    rw [← hthree h]
    exact Nat.prime_three
  refine ⟨test, exact, rfl, ?_, (sieve_keeps_verdict exact 3).1.mpr Nat.prime_three,
    (sieve_keeps_verdict exact 1999).1.mpr (by norm_num),
    (sieve_keeps_verdict exact (mersenne 521)).2.1 prime_mersenne_521,
    (sieve_keeps_verdict exact (1999 * 2003)).2.2 1999 (by norm_num) rfl (by norm_num)
      (Nat.dvd_mul_right _ _) (by norm_num)⟩
  rw [← Bool.not_eq_true, (sieve_keeps_verdict exact 9).1]
  norm_num

end Homomorphic
