import Homomorphic.Proofs.Residue

namespace Homomorphic.Modulus

variable (m : Modulus)

theorem normalize_of_congr {x : ℤ} {v : ℕ} (h : x ≡ v [ZMOD m.value]) :
    m.normalize x = v % m.value := by
  apply Int.natCast_inj.mp
  rw [natCast_normalize, Int.natCast_mod]
  exact h

theorem normalize_center (v : ℕ) : m.normalize (m.center v) = v % m.value :=
  m.normalize_of_congr (m.center_congr v)

theorem isOnlyIn_center_normalize (x : ℤ) :
    IsOnlyIn (symmetricRange m.value) m.value x (m.center (m.normalize x)) :=
  (m.isOnlyIn_center _).congr (m.normalize_congr x)

theorem center_normalize_eq_iff {x : ℤ} :
    m.center (m.normalize x) = x ↔ x ∈ symmetricRange m.value := by
  have honly := m.isOnlyIn_center_normalize x x
  constructor
  · intro heq
    exact (honly.mpr heq.symm).1
  · intro hx
    exact (honly.mp ⟨hx, Int.ModEq.refl x⟩).symm

theorem half_mem : (m.half : ℤ) ∈ symmetricRange m.value := by
  have hpos := m.value_pos
  rw [mem_symmetricRange, half]
  omega

theorem neg_half_mem_iff : -(m.half : ℤ) ∈ symmetricRange m.value ↔ m.value % 2 = 1 := by
  rw [mem_symmetricRange, half]
  omega

theorem center_normalize_neg_half :
    m.center (m.normalize (-(m.half : ℤ))) = if m.value % 2 = 1 then -(m.half : ℤ) else m.half := by
  split
  · next hodd => exact m.center_normalize_eq_iff.mpr (m.neg_half_mem_iff.mpr hodd)
  · next heven =>
    have hcongr : (m.half : ℤ) ≡ -(m.half : ℤ) [ZMOD m.value] := by
      refine Int.modEq_iff_dvd.mpr ⟨-1, ?_⟩
      rw [half]
      omega
    exact ((m.isOnlyIn_center_normalize _ _).mp ⟨m.half_mem, hcongr⟩).symm

theorem center_inverts_normalize :
    (∀ x : ℤ, IsOnlyIn (symmetricRange m.value) m.value x (m.center (m.normalize x))) ∧
      (∀ v : ℕ, m.normalize (m.center v) = v % m.value) ∧
      (∀ x : ℤ, m.center (m.normalize x) = x ↔ -(m.value : ℤ) < 2 * x ∧ 2 * x ≤ m.value) ∧
      m.center (m.normalize m.half) = m.half ∧
      m.center (m.normalize (-(m.half : ℤ))) =
        (if m.value % 2 = 1 then -(m.half : ℤ) else m.half) ∧
      Set.InvOn m.center m.normalize (symmetricRange m.value) (Set.Iio m.value) ∧
      Set.BijOn m.normalize (symmetricRange m.value) (Set.Iio m.value) := by
  have hinverse : Set.InvOn m.center m.normalize (symmetricRange m.value) (Set.Iio m.value) := by
    refine ⟨fun x hx => m.center_normalize_eq_iff.mpr hx, fun v hv => ?_⟩
    rw [m.normalize_center, Nat.mod_eq_of_lt hv]
  refine ⟨m.isOnlyIn_center_normalize, m.normalize_center, fun x => m.center_normalize_eq_iff,
    m.center_normalize_eq_iff.mpr m.half_mem, m.center_normalize_neg_half, hinverse, ?_⟩
  exact hinverse.bijOn (fun x _ => m.normalize_lt x) (fun v _ => m.center_mem v)

end Homomorphic.Modulus
