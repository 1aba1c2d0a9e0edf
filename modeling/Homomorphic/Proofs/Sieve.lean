import Homomorphic.Number.Primality
import Mathlib.Data.Nat.Prime.Basic

namespace Homomorphic

variable {composite : Array Bool} {count i j n p : ℕ} {ps : List ℕ}

theorem size_foldl_mark (js : List ℕ) (composite : Array Bool) :
    (js.foldl (fun composite j => composite.setIfInBounds j true) composite).size = composite.size := by
  induction js generalizing composite with
  | nil => rfl
  | cons k js ih => rw [List.foldl_cons, ih, Array.size_setIfInBounds]

theorem getD_foldl_mark (js : List ℕ) (hj : j < composite.size) :
    (js.foldl (fun composite j => composite.setIfInBounds j true) composite).getD j false = true ↔
      composite.getD j false = true ∨ j ∈ js := by
  induction js generalizing composite with
  | nil => simp
  | cons k js ih =>
    have hset : (composite.setIfInBounds k true).getD j false = true ↔
        composite.getD j false = true ∨ j = k := by
      rw [Array.getD_eq_getD_getElem?, Array.getElem?_setIfInBounds]
      by_cases h : k = j
      · simp [h, hj]
      · simp [h, Ne.symm h]
    rw [List.foldl_cons, ih (by simpa using hj), hset, List.mem_cons, or_assoc]

theorem mem_multiples (hi : 0 < i) (hj : j < count) :
    j ∈ List.range' (i * i) (ceilDiv (count - i * i) i) i ↔ i ∣ j ∧ i * i ≤ j := by
  rw [List.mem_range']
  constructor
  · rintro ⟨k, -, rfl⟩
    exact ⟨⟨i + k, (Nat.mul_add i i k).symm⟩, Nat.le_add_right _ _⟩
  · rintro ⟨⟨k, rfl⟩, hle⟩
    have hik : i ≤ k := Nat.le_of_mul_le_mul_left hle hi
    have hsum : i * k = i * i + i * (k - i) := by rw [← Nat.mul_add, Nat.add_sub_cancel' hik]
    refine ⟨k - i, ?_, hsum⟩
    rw [ceilDiv, Nat.lt_div_iff_mul_lt hi, mul_comm]
    omega

theorem size_markMultiples (i : ℕ) (composite : Array Bool) :
    (markMultiples i composite).size = composite.size :=
  size_foldl_mark _ composite

theorem getD_markMultiples (hi : 0 < i) (hj : j < composite.size) :
    (markMultiples i composite).getD j false = true ↔
      composite.getD j false = true ∨ i ∣ j ∧ i * i ≤ j := by
  rw [markMultiples, getD_foldl_mark _ hj, mem_multiples hi hj]

/-- A prime below `i` divides the number, and its square is no greater than the number. -/
def HasFactorBelow (i j : ℕ) : Prop := ∃ p, p.Prime ∧ p < i ∧ p ∣ j ∧ p * p ≤ j

theorem not_hasFactorBelow_two (j : ℕ) : ¬ HasFactorBelow 2 j := by
  rintro ⟨p, hp, hlt, -⟩
  have := hp.two_le
  omega

theorem hasFactorBelow_succ :
    HasFactorBelow (i + 1) j ↔ HasFactorBelow i j ∨ i.Prime ∧ i ∣ j ∧ i * i ≤ j := by
  constructor
  · rintro ⟨p, hp, hlt, hdvd, hsquare⟩
    rcases Nat.lt_succ_iff_lt_or_eq.mp hlt with hlt | rfl
    · exact .inl ⟨p, hp, hlt, hdvd, hsquare⟩
    · exact .inr ⟨hp, hdvd, hsquare⟩
  · rintro (⟨p, hp, hlt, hdvd, hsquare⟩ | ⟨hp, hdvd, hsquare⟩)
    · exact ⟨p, hp, by omega, hdvd, hsquare⟩
    · exact ⟨i, hp, by omega, hdvd, hsquare⟩

theorem hasFactorBelow_self (hi : 2 ≤ i) : HasFactorBelow i i ↔ ¬ i.Prime := by
  constructor
  · rintro ⟨p, hp, hlt, hdvd, -⟩ hprime
    exact hlt.ne ((Nat.prime_dvd_prime_iff_eq hp hprime).mp hdvd)
  · intro hprime
    have hsquare := Nat.minFac_sq_le_self (by omega) hprime
    rw [pow_two] at hsquare
    have hfactor := Nat.minFac_prime (show i ≠ 1 by omega)
    refine ⟨i.minFac, hfactor, ?_, i.minFac_dvd, hsquare⟩
    calc i.minFac
      _ < i.minFac * i.minFac := Nat.lt_mul_self_iff.mpr hfactor.one_lt
      _ ≤ i := hsquare

def MarkedBelow (i : ℕ) (composite : Array Bool) : Prop :=
  ∀ j < composite.size, (composite.getD j false = true ↔ HasFactorBelow i j)

theorem markedBelow_two (count : ℕ) : MarkedBelow 2 (Array.replicate count false) := by
  intro j hj
  rw [Array.size_replicate] at hj
  exact iff_of_false (by simp [hj]) (not_hasFactorBelow_two j)

theorem MarkedBelow.getD_iff (h : MarkedBelow i composite) (hi : 2 ≤ i) (hsize : i < composite.size) :
    composite.getD i false = true ↔ ¬ i.Prime :=
  (h i hsize).trans (hasFactorBelow_self hi)

theorem MarkedBelow.step (h : MarkedBelow i composite) (hi : 2 ≤ i) (hsize : i < composite.size) :
    MarkedBelow (i + 1)
      (if composite.getD i false then composite else markMultiples i composite) := by
  have hturn := h.getD_iff hi hsize
  by_cases hmarked : composite.getD i false = true
  · -- A marked number is no prime, and adds nothing to what the primes before it mark.
    rw [if_pos hmarked]
    intro j hj
    rw [h j hj, hasFactorBelow_succ, or_iff_left]
    exact fun hprime => hturn.mp hmarked hprime.1
  · have hprime : i.Prime := not_not.mp (mt hturn.mpr hmarked)
    rw [if_neg hmarked]
    intro j hj
    rw [size_markMultiples] at hj
    rw [getD_markMultiples (by omega) hj, h j hj, hasFactorBelow_succ, and_iff_right hprime]

theorem MarkedBelow.sieveFrom_eq (h : MarkedBelow i composite) (hi : 2 ≤ i)
    (hsize : composite.size = i + count) :
    sieveFrom count i composite = (List.range' i count).filter fun p => p.Prime ∧ p ≠ 2 := by
  induction count generalizing i composite with
  | zero => rfl
  | succ count ih =>
    have hturn := h.getD_iff hi (by omega)
    have hstep := h.step hi (by omega)
    rw [sieveFrom, List.range'_succ, List.filter_cons]
    by_cases hmarked : composite.getD i false = true
    · rw [if_pos hmarked] at hstep
      rw [if_pos hmarked, ih hstep (by omega) (by omega), if_neg (by simp [hturn.mp hmarked])]
    · have hprime : i.Prime := not_not.mp (mt hturn.mpr hmarked)
      rw [if_neg hmarked] at hstep
      rw [if_neg hmarked, ih hstep (by omega) (by rw [size_markMultiples]; omega)]
      by_cases htwo : i = 2
      · simp [htwo]
      · simp [htwo, hprime]

theorem smallPrimes_eq :
    smallPrimes = (List.range' 2 (Limits.sieveLimit - 2)).filter fun p => p.Prime ∧ p ≠ 2 :=
  (markedBelow_two _).sieveFrom_eq le_rfl (Array.size_replicate ..)

theorem mem_smallPrimes : p ∈ smallPrimes ↔ p.Prime ∧ p % 2 = 1 ∧ p < Limits.sieveLimit := by
  rw [smallPrimes_eq, List.mem_filter, List.mem_range'_1, decide_eq_true_iff, Limits.sieveLimit]
  constructor
  · rintro ⟨⟨-, hlt⟩, hp, htwo⟩
    exact ⟨hp, hp.eq_two_or_odd.resolve_left htwo, hlt⟩
  · rintro ⟨hp, hodd, hlt⟩
    have := hp.two_le
    exact ⟨⟨hp.two_le, hlt⟩, hp, by omega⟩

theorem passesSieve_iff (hps : ∀ p ∈ ps, p.Prime) :
    passesSieve n ps = true ↔ ∀ p ∈ ps, p ∣ n → p = n := by
  induction ps with
  | nil => simp [passesSieve]
  | cons p ps ih =>
    obtain ⟨hp, htail⟩ := List.forall_mem_cons.mp hps
    rw [passesSieve, List.forall_mem_cons]
    by_cases hn : n = p
    · subst hn
      rw [if_pos rfl]
      exact iff_of_true rfl
        ⟨fun _ => rfl, fun q hq hqn => (Nat.prime_dvd_prime_iff_eq (htail q hq) hp).mp hqn⟩
    rw [if_neg hn]
    by_cases hdvd : p ∣ n
    · rw [if_pos (Nat.mod_eq_zero_of_dvd hdvd)]
      exact iff_of_false (by simp) fun h => hn (h.1 hdvd).symm
    · rw [if_neg (fun hzero => hdvd (Nat.dvd_of_mod_eq_zero hzero)), ih htail]
      exact (and_iff_right fun h => absurd h hdvd).symm

theorem passesSieve_smallPrimes_iff : passesSieve n smallPrimes = true ↔
    ∀ p, p.Prime → p % 2 = 1 → p < Limits.sieveLimit → p ∣ n → p = n := by
  rw [passesSieve_iff fun p hp => (mem_smallPrimes.mp hp).1]
  simp only [mem_smallPrimes, and_imp]

theorem passesSieve_smallPrimes (hn : n.Prime) : passesSieve n smallPrimes = true :=
  passesSieve_smallPrimes_iff.mpr fun _ hp _ _ hdvd => (Nat.prime_dvd_prime_iff_eq hp hn).mp hdvd

end Homomorphic
