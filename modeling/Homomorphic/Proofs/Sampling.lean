import Homomorphic.Bytes.Laws
import Homomorphic.Entropy.Sampling
import Homomorphic.Proofs.BytesTaken
import Homomorphic.Proofs.Primality
import Homomorphic.Number.Laws

namespace Homomorphic.Entropy

open Draw

theorem outcome_bits (width : ℕ) (e : Entropy) :
    (bits width).outcome e =
      (.ok (ofWidth width (e.next (ceilDiv width 8))), { e with used := e.used + ceilDiv width 8 }) := by
  rw [bits, outcome_bind_of_ok _ (outcome_take _ e)]
  rfl

theorem toNat_mask (b : UInt8) {excess : ℕ} (h : excess < 8) :
    (b &&& 0xFF >>> UInt8.ofNat excess).toNat = b.toNat % 2 ^ (8 - excess) := by
  have hmask : (0xFF >>> UInt8.ofNat excess).toNat = 2 ^ (8 - excess) - 1 := by
    interval_cases excess <;> rfl
  rw [UInt8.toNat_and, hmask, Nat.and_two_pow_sub_one_eq_mod]

theorem value_maskLast {excess : ℕ} (h : excess < 8) (bytes : Bytes) :
    (maskLast excess bytes).value = bytes.value % 2 ^ (8 * bytes.length - excess) := by
  fun_induction maskLast excess bytes with
  | case1 => simp [Bytes.value]
  | case2 last => simpa [Bytes.value] using toNat_mask last h
  | case3 b bytes hne ih =>
    have hpos : 0 < bytes.length := List.length_pos_iff.mpr hne
    have hpow : 2 ^ (8 * (b :: bytes).length - excess) = 256 * 2 ^ (8 * bytes.length - excess) := by
      rw [show 256 = 2 ^ 8 from rfl, ← pow_add, List.length_cons]
      congr 1
      omega
    have hb := b.toNat_lt
    have hlow : (b.toNat + 256 * Bytes.value bytes) % 256 = b.toNat := by omega
    have hhigh : (b.toNat + 256 * Bytes.value bytes) / 256 = Bytes.value bytes := by omega
    rw [Bytes.value_cons, Bytes.value_cons, ih, hpow, Nat.mod_mul, hlow, hhigh]

theorem ofWidth_eq {width : ℕ} {bytes : Bytes} (h : bytes.length = ceilDiv width 8) :
    ofWidth width bytes = bytes.toNat % 2 ^ width := by
  rw [ceilDiv] at h
  rw [ofWidth, Bytes.toNat_eq_value, Bytes.toNat_eq_value, value_maskLast (by omega),
    show 8 * bytes.length - (bytes.length * 8 - width) = width by omega]

theorem ofWidth_lt {width : ℕ} {bytes : Bytes} (h : bytes.length = ceilDiv width 8) :
    ofWidth width bytes < 2 ^ width := by
  rw [ofWidth_eq h]
  exact Nat.mod_lt _ (Nat.two_pow_pos width)

inductive DrawError : Error → Prop
  | keyGeneration (fault : SearchFault) : DrawError (.keyGeneration fault)
  | randomnessExhausted (fault : DrawFault) : DrawError (.randomnessExhausted fault)

section Below

variable {bound : ℕ}

theorem outcome_belowCandidate (bound : ℕ) (e : Entropy) :
    ∃ candidate e', (belowCandidate bound).outcome e =
      (.ok (if candidate < bound then some candidate else none), e') := by
  rw [belowCandidate, outcome_bind_of_ok _ (outcome_bits _ e)]
  exact ⟨_, _, rfl⟩

theorem outcome_below (hbound : 0 < bound) (e : Entropy) :
    (∃ a e', (below bound).outcome e = (.ok a, e') ∧ a < bound) ∨
    ∃ e', Fruitless (belowCandidate bound) Limits.maxRandomAttempts e e' ∧
      (below bound).outcome e = (.error (.randomnessExhausted (.below (bitLength bound))), e') := by
  rw [below, if_neg hbound.ne']
  have htotal (e : Entropy) : ∃ x e', (belowCandidate bound).outcome e = (.ok x, e') := by
    obtain ⟨candidate, e', h⟩ := outcome_belowCandidate bound e
    exact ⟨_, e', h⟩
  refine (outcome_retry_of_total htotal _ e).imp_left ?_
  rintro ⟨k, -, e', e'', a, -, hattempt, hretry⟩
  refine ⟨a, e'', hretry, ?_⟩
  obtain ⟨candidate, e₁, h⟩ := outcome_belowCandidate bound e'
  rw [hattempt] at h
  split at h
  · next hlt =>
    cases h
    exact hlt
  · cases h

end Below

section Unit

variable {n : ℕ}

inductive UnitRunsOut (n : ℕ) (e : Entropy) : DrawFault → Prop
  | unit {e' : Entropy} (hrun : Fruitless (unitCandidate n) Limits.maxRandomAttempts e e') :
    UnitRunsOut n e .unit
  | below {k : ℕ} {e' e'' : Entropy} (hk : k < Limits.maxRandomAttempts)
    (hbefore : Fruitless (unitCandidate n) k e e')
    (hrun : Fruitless (belowCandidate n) Limits.maxRandomAttempts e' e'') :
    UnitRunsOut n e (.below (bitLength n))

theorem outcome_unitCandidate (hn : 0 < n) (e : Entropy) :
    (∃ a e', a < n ∧ (unitCandidate n).outcome e =
      (.ok (if a ≠ 0 ∧ Nat.gcd a n = 1 then some a else none), e')) ∨
    ∃ e', Fruitless (belowCandidate n) Limits.maxRandomAttempts e e' ∧
      (unitCandidate n).outcome e = (.error (.randomnessExhausted (.below (bitLength n))), e') := by
  rcases outcome_below hn e with ⟨a, e', ha, hlt⟩ | ⟨e', hrun, herror⟩
  · left
    refine ⟨a, e', hlt, ?_⟩
    rw [unitCandidate, outcome_bind_of_ok _ ha]
    rfl
  · right
    refine ⟨e', hrun, ?_⟩
    rw [unitCandidate, outcome_bind_of_error _ herror]

theorem outcome_unit (hn : 0 < n) (e : Entropy) :
    (∃ a e', (unit n).outcome e = (.ok a, e') ∧ 0 < a ∧ a < n ∧ Nat.Coprime a n) ∨
    ∃ fault e', UnitRunsOut n e fault ∧
      (unit n).outcome e = (.error (.randomnessExhausted fault), e') := by
  rw [unit]
  rcases outcome_retry_cases (unitCandidate n) (.randomnessExhausted .unit) Limits.maxRandomAttempts e
    with ⟨k, hk, e', e'', a, hf, hattempt, hretry⟩ | ⟨k, hk, e', e'', error, hf, hattempt, hretry⟩ |
      ⟨e', hf, hretry⟩
  · left
    refine ⟨a, e'', hretry, ?_⟩
    rcases outcome_unitCandidate hn e' with ⟨a', e₁, hlt, h⟩ | ⟨e₁, -, h⟩
    · rw [hattempt] at h
      split at h
      · next hunit =>
        cases h
        exact ⟨Nat.pos_of_ne_zero hunit.1, hlt, hunit.2⟩
      · cases h
    · rw [hattempt] at h
      cases h
  · right
    rcases outcome_unitCandidate hn e' with ⟨a', e₁, -, h⟩ | ⟨e₁, hrun, h⟩
    · rw [hattempt] at h
      cases h
    · rw [hattempt] at h
      cases h
      exact ⟨_, e'', .below hk hf hrun, hretry⟩
  · exact .inr ⟨_, e', .unit hf, hretry⟩

theorem ensures_unit (hn : 0 < n) :
    Ensures (unit n) (fun a => 0 < a ∧ a < n ∧ Nat.Coprime a n) DrawError := by
  intro e
  rcases outcome_unit hn e with ⟨a, e', ha, hunit⟩ | ⟨fault, e', -, hfail⟩
  · rw [ha]
    exact hunit
  · rw [hfail]
    exact .randomnessExhausted fault

theorem unit_of_outcome (hn : 0 < n) {e e' : Entropy} {a : ℕ}
    (h : (unit n).outcome e = (.ok a, e')) : 0 < a ∧ a < n ∧ Nat.Coprime a n :=
  (ensures_unit hn).of_ok h

theorem outcome_unit_of_first {e : Entropy} {a : ℕ} (hpos : 0 < a) (hlt : a < n)
    (hcoprime : Nat.Coprime a n)
    (h : ofWidth (bitLength n) (e.next (ceilDiv (bitLength n) 8)) = a) :
    (unit n).outcome e = (.ok a, { e with used := e.used + ceilDiv (bitLength n) 8 }) := by
  have hcandidate : (belowCandidate n).outcome e =
      (.ok (some a), { e with used := e.used + ceilDiv (bitLength n) 8 }) := by
    rw [belowCandidate, outcome_bind_of_ok _ (outcome_bits _ e), h, if_pos hlt]
    rfl
  have hbelow : (below n).outcome e =
      (.ok a, { e with used := e.used + ceilDiv (bitLength n) 8 }) := by
    rw [below, if_neg (Nat.ne_zero_of_lt hlt)]
    exact outcome_retry_of_some (by decide) (.none e) hcandidate
  apply outcome_retry_of_some (by decide) (.none e)
  rw [unitCandidate, outcome_bind_of_ok _ hbelow, if_pos ⟨hpos.ne', hcoprime⟩]
  rfl

end Unit

section Prime

variable {test : ℕ → Bool} {width n p : ℕ}

theorem forceBits_eq (width n : ℕ) :
    forceBits width n = n ||| 2 ^ (width - 1) ||| 2 ^ (width - 2) ||| 1 := by
  rw [forceBits, Nat.one_shiftLeft, Nat.one_shiftLeft]

theorem forceBits_lt (hwidth : 2 ≤ width) (hn : n < 2 ^ width) : forceBits width n < 2 ^ width := by
  have hpow (k : ℕ) (hk : k < width) : 2 ^ k < 2 ^ width := Nat.pow_lt_pow_right (by omega) hk
  rw [forceBits_eq]
  apply Nat.or_lt_two_pow _ (hpow 0 (by omega))
  apply Nat.or_lt_two_pow _ (hpow _ (by omega))
  exact Nat.or_lt_two_pow hn (hpow _ (by omega))

theorem le_forceBits (hwidth : 2 ≤ width) (n : ℕ) : 3 * 2 ^ (width - 2) ≤ forceBits width n := by
  have htop : 2 ^ (width - 1) ||| 2 ^ (width - 2) = 3 * 2 ^ (width - 2) := by
    have hlt : 2 ^ (width - 2) < 2 ^ (width - 1) := Nat.pow_lt_pow_right (by omega) (by omega)
    have hadd := Nat.two_pow_add_eq_or_of_lt hlt 1
    have hdouble : 2 ^ (width - 1) = 2 * 2 ^ (width - 2) := by
      rw [← pow_succ']
      congr 1
      omega
    rw [mul_one] at hadd
    omega
  rw [forceBits_eq, Nat.or_assoc n, htop]
  exact Nat.right_le_or.trans Nat.left_le_or

structure TopPrime (width p : ℕ) : Prop where
  prime : p.Prime
  low : 3 * 2 ^ (width - 2) ≤ p
  lt : p < 2 ^ width

theorem TopPrime.two_pow_le {k : ℕ} (h : TopPrime width p) (hk : k < width) : 2 ^ k ≤ p := by
  calc 2 ^ k
    _ ≤ 2 ^ (width - 2 + 1) := Nat.pow_le_pow_right (by decide) (by omega)
    _ ≤ 3 * 2 ^ (width - 2) := by
      rw [pow_succ]
      omega
    _ ≤ p := h.low

theorem TopPrime.odd (h : TopPrime width p) : p % 2 = 1 := by
  have hlow := h.low
  have hpos := Nat.two_pow_pos (width - 2)
  exact h.prime.eq_two_or_odd.resolve_left (by omega)

theorem TopPrime.bitLength_eq (h : TopPrime width p) (hwidth : 0 < width) : bitLength p = width := by
  have hlower := lt_bitLength.mpr (h.two_pow_le (Nat.sub_lt hwidth one_pos))
  have hupper := bitLength_le.mpr h.lt
  omega

theorem TopPrime.bitLength_mul {a b q : ℕ} (ha : 2 ≤ a) (hb : 2 ≤ b) (hp : TopPrime a p)
    (hq : TopPrime b q) : bitLength (p * q) = a + b := by
  have hlt : p * q < 2 ^ (a + b) := by
    rw [pow_add]
    exact Nat.mul_lt_mul_of_lt_of_lt hp.lt hq.lt
  have hle : 2 ^ (a + b - 1) ≤ p * q := by
    have hpow : 2 ^ (a + b - 1) = 8 * (2 ^ (a - 2) * 2 ^ (b - 2)) := by
      rw [← pow_add, show 8 = 2 ^ 3 from rfl, ← pow_add]
      congr 1
      omega
    have hmul := Nat.mul_le_mul hp.low hq.low
    rw [show 3 * 2 ^ (a - 2) * (3 * 2 ^ (b - 2)) = 9 * (2 ^ (a - 2) * 2 ^ (b - 2)) by ring] at hmul
    omega
  have hlower := lt_bitLength.mpr hle
  have hupper := bitLength_le.mpr hlt
  omega

theorem outcome_primeCandidate (exact : ExactTest test) (hwidth : 2 ≤ width) (e : Entropy) :
    ∃ x e', (primeCandidate test width).outcome e = (.ok x, e') ∧ ∀ p ∈ x, TopPrime width p := by
  rw [primeCandidate, outcome_bind_of_ok _ (outcome_bits _ e)]
  refine ⟨_, _, rfl, fun p hp => ?_⟩
  split at hp
  · next hprime =>
    cases hp
    exact ⟨(isProbablePrime_iff exact).mp hprime, le_forceBits hwidth _,
      forceBits_lt hwidth (ofWidth_lt (length_next _ _))⟩
  · cases hp

theorem outcome_prime (exact : ExactTest test) (hwidth : Limits.minPrimeBits ≤ width) (e : Entropy) :
    (∃ p e', (prime test width).outcome e = (.ok p, e') ∧ TopPrime width p) ∨
    ∃ e', Fruitless (primeCandidate test width) Limits.maxPrimeCandidates e e' ∧
      (prime test width).outcome e = (.error (.keyGeneration (.prime width)), e') := by
  have htwo : 2 ≤ width := le_trans (by decide) hwidth
  rw [prime, if_neg (Nat.not_lt.mpr hwidth)]
  have htotal (e : Entropy) : ∃ x e', (primeCandidate test width).outcome e = (.ok x, e') := by
    obtain ⟨x, e', h, -⟩ := outcome_primeCandidate exact htwo e
    exact ⟨x, e', h⟩
  refine (outcome_retry_of_total htotal _ e).imp_left ?_
  rintro ⟨k, -, e', e'', p, -, hattempt, hretry⟩
  obtain ⟨x, e₁, h, htop⟩ := outcome_primeCandidate exact htwo e'
  rw [hattempt] at h
  cases h
  exact ⟨p, e'', hretry, htop p rfl⟩

theorem outcome_prime_of_first (exact : ExactTest test) (hwidth : Limits.minPrimeBits ≤ width)
    {e : Entropy} (hp : p.Prime)
    (h : forceBits width (ofWidth width (e.next (ceilDiv width 8))) = p) :
    (prime test width).outcome e = (.ok p, { e with used := e.used + ceilDiv width 8 }) := by
  rw [prime, if_neg (Nat.not_lt.mpr hwidth)]
  apply outcome_retry_of_some (by decide) (.none e)
  rw [primeCandidate, outcome_bind_of_ok _ (outcome_bits _ e), h]
  simp only [(isProbablePrime_iff exact).mpr hp, ↓reduceIte]
  rfl

theorem ensures_prime (exact : ExactTest test) (hwidth : Limits.minPrimeBits ≤ width) :
    Ensures (prime test width) (TopPrime width) DrawError := by
  intro e
  rcases outcome_prime exact hwidth e with ⟨p, e', hp, htop⟩ | ⟨e', -, hfail⟩
  · rw [hp]
    exact htop
  · rw [hfail]
    exact .keyGeneration _

theorem topPrime_of_outcome (exact : ExactTest test) (hwidth : Limits.minPrimeBits ≤ width)
    {e e' : Entropy} (h : (prime test width).outcome e = (.ok p, e')) : TopPrime width p :=
  (ensures_prime exact hwidth).of_ok h

end Prime

end Homomorphic.Entropy
