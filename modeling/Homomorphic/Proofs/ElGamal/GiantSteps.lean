import Homomorphic.Proofs.ElGamal.Logarithm

namespace Homomorphic.ElGamal.BabySteps

open PointGroup

variable {E : PointGroup} {t : BabySteps E} {bound span : UInt64} {tableBits : UInt32}

theorem giantSteps_searchFrom_le (left : ℕ) (i : UInt64) (point : E.Point) (taken : ℕ) :
    (t.searchFrom bound span left i point taken).giantSteps ≤ taken + left := by
  induction left generalizing i point taken with
  | zero => exact le_rfl
  | succ left ih =>
    rw [searchFrom]
    split
    · dsimp only
      split <;> exact Nat.le_add_right _ _
    · exact (ih _ _ _).trans (by omega)

theorem giantSteps_search_le (hbound : bound.toNat ≤ Limits.maxMaxPlaintext) (point : E.Point) :
    (t.search point bound).giantSteps ≤ 2 * bound.toNat / t.size.toNat + 1 := by
  rw [search_eq_searchFrom hbound]
  exact (giantSteps_searchFrom_le _ _ _ _).trans_eq (zero_add _)

theorem double_div_mem {k : ℕ} (hk : 0 < k) (b : ℕ) :
    2 * b / k ∈ Set.Icc (2 * (b / k)) (2 * (b / k) + 1) := by
  refine ⟨Nat.mul_div_le_mul_div_assoc 2 b k, ?_⟩
  have hlt := Nat.lt_mul_div_succ b hk
  have hdouble : (2 * (b / k) + 1 + 1) * k = 2 * (k * (b / k + 1)) := by ring
  rw [← Nat.lt_add_one_iff, Nat.div_lt_iff_lt_mul hk]
  omega

section Laws

variable {G : Type} [AddCommGroup G] {element : E.Point → G}

theorem giantSteps_build (laws : E.Represents element) (horder : E.order = Ristretto.order)
    (hbound : bound.toNat ≤ Limits.maxMaxPlaintext) (hbits : tableBits.toNat ≤ Limits.maxTableBits)
    {point : E.Point} (hpoint : E.Made point) {v : ℤ} (helement : element point = v • element E.base) :
    ((build E tableBits).search point bound).giantSteps =
      min (E.scalar (v + bound.toNat) / 2 ^ tableBits.toNat)
        (2 * bound.toNat / 2 ^ tableBits.toNat + 1) := by
  have hlarge : 2 ^ Limits.maxTableBits ≤ E.order := by
    rw [horder]
    decide
  rw [search_of_zsmul laws (correct_build laws hbits hlarge) hbound hpoint helement,
    toNat_size_build hbits]

theorem giantSteps_below_bound (laws : E.Represents element) (horder : E.order = Ristretto.order)
    (hbound : bound.toNat ≤ Limits.maxMaxPlaintext) (hbits : tableBits.toNat ≤ Limits.maxTableBits) :
    ((build E tableBits).search (E.mulBase (E.scalar (-(bound.toNat : ℤ) - 1))) bound).giantSteps =
      2 * bound.toNat / 2 ^ tableBits.toNat + 1 := by
  have hsmall : bound.toNat ≤ 2 ^ 44 := hbound
  have hpow : 2 ^ tableBits.toNat ≤ 2 ^ 20 := Nat.pow_le_pow_right (by omega) hbits
  have hlarge : 2 ^ 46 < E.order := by
    rw [horder]
    decide
  -- The bound shifts it to the last of all the multiples of the base point.
  have hlast : E.scalar (-(bound.toNat : ℤ) - 1 + bound.toNat) = E.order - 1 := by
    have hcongr := scalar_congr (E := E) (-(bound.toNat : ℤ) - 1 + bound.toNat)
    have hlt := scalar_lt (E := E) (-(bound.toNat : ℤ) - 1 + bound.toNat)
    have hlast : (E.order : ℤ) - 1 ≡ -(bound.toNat : ℤ) - 1 + bound.toNat [ZMOD E.order] :=
      Int.modEq_iff_dvd.mpr ⟨-1, by ring⟩
    have heq := eq_of_modEq_of_lt (hcongr.trans hlast.symm) (by omega) (by omega)
    omega
  rw [giantSteps_build laws horder hbound hbits (.mulBase _) (laws.mulBase_scalar _), hlast]
  apply Nat.min_eq_right
  rw [Nat.le_div_iff_mul_le (Nat.two_pow_pos _), Nat.add_mul, one_mul]
  have hdiv := Nat.div_mul_le_self (2 * bound.toNat) (2 ^ tableBits.toNat)
  omega

/-- What the cap refuses takes more giant steps than it allows, for some point. What it accepts takes at
most twice as many and two more, and keeps to it just if the quotient of the doubled bound is below it. -/
theorem giantSteps_capped_iff (laws : E.Represents element) (horder : E.order = Ristretto.order) :
    let steps (point : E.Point) := ((build E tableBits).search point bound).giantSteps
    let last := 2 * bound.toNat / 2 ^ tableBits.toNat
    (checkTable bound tableBits = .ok () →
      (∀ point (v : ℤ), E.Made point → element point = v • element E.base →
        steps point = min (E.scalar (v + bound.toNat) / 2 ^ tableBits.toNat) (last + 1)) ∧
      (∀ point, steps point ≤ 2 * Limits.maxGiantSteps + 2) ∧
      ((∀ point, E.Made point → steps point ≤ Limits.maxGiantSteps) ↔
        last < Limits.maxGiantSteps)) ∧
    (checkTable bound tableBits =
        .error (.invalidParameters (.giantSteps bound.toNat tableBits.toNat)) →
      ∃ point, E.Made point ∧ Limits.maxGiantSteps < steps point) := by
  intro steps last
  obtain ⟨hlow, hhigh⟩ := double_div_mem (Nat.two_pow_pos tableBits.toNat) bound.toNat
  have hshift := Nat.shiftRight_eq_div_pow bound.toNat tableBits.toNat
  constructor
  · intro hvalid
    obtain ⟨hmax, -, hbits, hcap⟩ := checkTable_eq_ok.mp hvalid
    have hbound := (checkMaxPlaintext_eq_ok.mp hmax).2
    have hle (point : E.Point) : steps point ≤ last + 1 := by
      have hsearch := giantSteps_search_le (t := build E tableBits) hbound point
      rwa [toNat_size_build hbits] at hsearch
    refine ⟨fun point v hpoint => giantSteps_build laws horder hbound hbits hpoint,
      fun point => (hle point).trans (by omega), fun hall => ?_, fun hlast point _ => ?_⟩
    · have hbelow : steps _ = last + 1 := giantSteps_below_bound laws horder hbound hbits
      have hcapped := hall _ (.mulBase (E.scalar (-(bound.toNat : ℤ) - 1)))
      omega
    · exact (hle point).trans hlast
  · intro hrefused
    obtain ⟨hmax, -, hbits, hcap⟩ := checkTable_eq_giantSteps.mp hrefused
    have hbound := (checkMaxPlaintext_eq_ok.mp hmax).2
    have hbelow : steps _ = last + 1 := giantSteps_below_bound laws horder hbound hbits
    exact ⟨_, .mulBase (E.scalar (-(bound.toNat : ℤ) - 1)), by omega⟩

end Laws

theorem giantSteps_capped_default :
    ∃ h : 1 < Ristretto.order,
      let E := residues Ristretto.order h
      let steps (bound : UInt64) (tableBits : UInt32) (point : E.Point) :=
        ((build E tableBits).search point bound).giantSteps
      E.Represents (G := ZMod Ristretto.order) id ∧ checkTable 16777216 12 = .ok () ∧
        (∀ point, E.Made point → steps 16777216 12 point ≤ Limits.maxGiantSteps) ∧
        checkTable 33554434 1 = .error (.invalidParameters (.giantSteps 33554434 1)) ∧
        ∃ point, E.Made point ∧ Limits.maxGiantSteps < steps 33554434 1 point := by
  have h : 1 < Ristretto.order := Ristretto.group.one_lt_order
  have laws := represents_residues h (by decide +kernel)
  have hvalid : checkTable 16777216 12 = .ok () := by decide
  have hrefused : checkTable 33554434 1 = .error (.invalidParameters (.giantSteps 33554434 1)) := by
    decide
  obtain ⟨-, -, hcapped⟩ := (giantSteps_capped_iff laws rfl).1 hvalid
  have hexceeded := (giantSteps_capped_iff laws rfl).2 hrefused
  exact ⟨h, laws, hvalid, hcapped.mpr (by decide), hrefused, hexceeded⟩

theorem giantSteps_beyond_cap :
    ∃ h : 1 < Ristretto.order,
      let E := residues Ristretto.order h
      let search (x : ℤ) := (build E 1).search (E.mulBase (E.scalar x)) 33554432
      E.Represents (G := ZMod Ristretto.order) id ∧ checkTable 33554432 1 = .ok () ∧
        (search 33554432).answer.map Int64.toInt = some 33554432 ∧
        (search 33554432).giantSteps = 33554432 ∧ (search (-33554433)).giantSteps = 33554433 ∧
        Limits.maxGiantSteps < 33554432 := by
  have h : 1 < Ristretto.order := Ristretto.group.one_lt_order
  have laws := represents_residues h (by decide +kernel)
  have hvalid : checkTable 33554432 1 = .ok () := by decide
  have hbound : (33554432 : UInt64).toNat ≤ Limits.maxMaxPlaintext := by decide
  have hbits : (1 : UInt32).toNat ≤ Limits.maxTableBits := by decide
  have hsteps (x : ℤ) :=
    giantSteps_build laws rfl hbound hbits (.mulBase _) (laws.mulBase_scalar x)
  refine ⟨h, laws, hvalid, ?_, (hsteps _).trans ?_, (hsteps _).trans ?_, by decide⟩
  · exact solve_build_of_mem laws rfl hvalid (.mulBase _) (laws.mulBase_scalar _) (by decide)
  · exact (by decide +kernel : min ((67108864 % (Ristretto.order : ℤ)).toNat / 2) 33554433 = 33554432)
  · exact (by decide +kernel : min ((-1 % (Ristretto.order : ℤ)).toNat / 2) 33554433 = 33554433)

end Homomorphic.ElGamal.BabySteps
