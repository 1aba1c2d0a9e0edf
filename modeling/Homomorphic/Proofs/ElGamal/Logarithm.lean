import Homomorphic.Curve.Ristretto
import Homomorphic.Proofs.ElGamal.BabySteps
import Homomorphic.Proofs.ElGamal.Key

namespace Homomorphic.ElGamal.BabySteps

open PointGroup

variable {E : PointGroup} {G : Type} [AddCommGroup G] {element : E.Point → G} {bound : UInt64}
  {tableBits : UInt32} {point : E.Point}

theorem solve_build_of_zsmul (laws : E.Represents element) (horder : E.order = Ristretto.order)
    (hvalid : checkTable bound tableBits = .ok ()) (hpoint : E.Made point) {v : ℤ}
    (helement : element point = v • element E.base) :
    (∃ m, (build E tableBits).solve point bound = some m ∧
        IsOnlyIn (Set.Icc (-(bound.toNat : ℤ)) bound.toNat) E.order v m.toInt) ∨
      ((build E tableBits).solve point bound = none ∧
        ∀ x ∈ Set.Icc (-(bound.toNat : ℤ)) bound.toNat, ¬ x ≡ v [ZMOD E.order]) := by
  obtain ⟨hmax, -, hbits, -⟩ := checkTable_eq_ok.mp hvalid
  have hbound := (checkMaxPlaintext_eq_ok.mp hmax).2
  have hlarge : 2 * Limits.maxMaxPlaintext < E.order ∧ 2 ^ Limits.maxTableBits ≤ E.order := by
    rw [horder]
    decide
  exact solve_of_zsmul laws (correct_build laws hbits hlarge.2) hbound (by omega) hpoint helement

theorem solve_build_of_mem (laws : E.Represents element) (horder : E.order = Ristretto.order)
    (hvalid : checkTable bound tableBits = .ok ()) (hpoint : E.Made point) {v : ℤ}
    (helement : element point = v • element E.base)
    (hv : v ∈ Set.Icc (-(bound.toNat : ℤ)) bound.toNat) :
    ((build E tableBits).solve point bound).map Int64.toInt = some v := by
  rcases solve_build_of_zsmul laws horder hvalid hpoint helement with ⟨m, hm, honly⟩ | ⟨-, hfar⟩
  · rw [hm, Option.map_some, (honly v).mp ⟨hv, Int.ModEq.refl v⟩]
  · exact absurd (Int.ModEq.refl v) (hfar v hv)

theorem solve_build_eq_some_iff (laws : E.Represents element) (horder : E.order = Ristretto.order)
    (hvalid : checkTable bound tableBits = .ok ()) (hpoint : E.Made point) :
    let answer := (build E tableBits).solve point bound
    let logarithms : Set ℤ :=
      {m | m ∈ Set.Icc (-(bound.toNat : ℤ)) bound.toNat ∧ element point = m • element E.base}
    logarithms.Subsingleton ∧
      (∀ m, answer.map Int64.toInt = some m ↔ m ∈ logarithms) ∧
      (answer = none ↔ logarithms = ∅) := by
  intro answer logarithms
  obtain ⟨v, hv⟩ := laws.exists_nsmul_base (element point)
  rw [← natCast_zsmul] at hv
  have hmem (m : ℤ) : m ∈ logarithms ↔
      m ∈ Set.Icc (-(bound.toNat : ℤ)) bound.toNat ∧ m ≡ v [ZMOD E.order] := by
    apply and_congr_right
    intro _
    rw [hv, eq_comm, laws.zsmul_base_eq_iff]
  rcases solve_build_of_zsmul laws horder hvalid hpoint hv with ⟨s, hs, honly⟩ | ⟨hnone, hfar⟩
  · have hanswer : answer = some s := hs
    have hlogarithms : logarithms = {s.toInt} := Set.ext fun m => (hmem m).trans (honly m)
    rw [hanswer, hlogarithms]
    refine ⟨Set.subsingleton_singleton, fun m => ?_, ?_⟩
    · rw [Option.map_some, Option.some.injEq, Set.mem_singleton_iff, eq_comm]
    · exact iff_of_false (Option.some_ne_none s) (Set.singleton_ne_empty _)
  · have hanswer : answer = none := hnone
    have hlogarithms : logarithms = ∅ := by
      apply Set.eq_empty_of_forall_notMem
      intro m hm
      obtain ⟨hrange, hcongr⟩ := (hmem m).mp hm
      exact hfar m hrange hcongr
    rw [hanswer, hlogarithms]
    refine ⟨Set.subsingleton_empty, fun m => ?_, iff_of_true rfl rfl⟩
    exact iff_of_false (by simp) (Set.notMem_empty m)

theorem solve_build_residues :
    ∃ h : 1 < Ristretto.order,
      let E := residues Ristretto.order h
      let answer (x : ℤ) := (build E 4).solve (E.mulBase (E.scalar x)) 1000
      E.Represents (G := ZMod Ristretto.order) id ∧ checkTable 1000 4 = .ok () ∧
        (∀ x, E.Made (E.mulBase (E.scalar x))) ∧
        (answer (-1000)).map Int64.toInt = some (-1000) ∧ answer 1001 = none := by
  have h : 1 < Ristretto.order := Ristretto.group.one_lt_order
  have laws := represents_residues h (by decide +kernel)
  have hvalid : checkTable 1000 4 = .ok () := by decide
  obtain ⟨-, hsome, -⟩ :=
    solve_build_eq_some_iff laws rfl hvalid (.mulBase ((residues _ h).scalar (-1000)))
  obtain ⟨-, -, hnone⟩ :=
    solve_build_eq_some_iff laws rfl hvalid (.mulBase ((residues _ h).scalar 1001))
  refine ⟨h, laws, hvalid, fun x => .mulBase _, (hsome (-1000)).mpr ⟨?_, ?_⟩, hnone.mpr ?_⟩
  · exact ⟨by decide, by decide⟩
  · exact laws.mulBase_scalar (-1000)
  · apply Set.eq_empty_of_forall_notMem
    rintro m ⟨⟨hlow, hhigh⟩, hm⟩
    have hcongr := laws.zsmul_base_eq_iff.mp ((laws.mulBase_scalar 1001).symm.trans hm)
    have horder : (4000 : ℤ) < (residues Ristretto.order h).order :=
      (by decide +kernel : (4000 : ℤ) < Ristretto.order)
    have hbound : ((1000 : UInt64).toNat : ℤ) = 1000 := rfl
    have heq := eq_of_modEq_of_lt hcongr (by omega) (by omega)
    omega

end Homomorphic.ElGamal.BabySteps
