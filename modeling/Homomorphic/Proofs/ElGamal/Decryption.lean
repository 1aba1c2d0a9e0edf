import Homomorphic.Proofs.ElGamal.Group
import Homomorphic.Proofs.ElGamal.Logarithm

namespace Homomorphic.ElGamal

open PointGroup

variable {E : PointGroup} {G : Type} [AddCommGroup G] {element : E.Point → G}

/-- The ciphertext is on the curve, and its points differ by the multiple of the base point by `v`. -/
structure Ciphertext.Carries (curve : NamedCurve) (element : E.Point → G) (x : ℕ) (c : Ciphertext E)
    (v : ℤ) : Prop where
  curve_eq : c.curve = curve
  made₁ : E.Made c.c1
  made₂ : E.Made c.c2
  elements : element c.c2 = x • element c.c1 + v • element E.base

def carried (base : G) (x : ℕ) : AddSubgroup ((G × G) × ℤ) where
  carrier := {y | y.1.2 = x • y.1.1 + y.2 • base}
  zero_mem' := by simp
  add_mem' {y z} hy hz := by
    change y.1.2 + z.1.2 = x • (y.1.1 + z.1.1) + (y.2 + z.2) • base
    rw [hy, hz]
    module
  neg_mem' {y} hy := by
    change -y.1.2 = x • -y.1.1 + -y.2 • base
    rw [hy]
    module

theorem Ciphertext.carries_iff {curve : NamedCurve} {x : ℕ} {c : Ciphertext E} {v : ℤ} :
    (∃ u, c.StandsFor curve element u ∧ (u, v) ∈ carried (element E.base) x) ↔
      c.Carries curve element x v := by
  constructor
  · rintro ⟨u, h, hu⟩
    refine ⟨h.curve_eq, h.made₁, h.made₂, ?_⟩
    rw [h.element₁, h.element₂]
    exact hu
  · intro h
    exact ⟨(element c.c1, element c.c2), ⟨h.curve_eq, h.made₁, h.made₂, rfl, rfl⟩, h.elements⟩

theorem PublicKey.realizes_carries {pk : PublicKey E} {x : ℕ} (laws : E.Represents element)
    (hmade : E.Made pk.y) (hy : element pk.y = x • element E.base) :
    pk.operations.Realizes pk.maxPlaintext.toNat (Ciphertext.Carries pk.curve element x) 1 0 := by
  have hplain : ((0, element E.base), 1) ∈ carried (element E.base) x := by
    change element E.base = x • 0 + (1 : ℤ) • element E.base
    rw [smul_zero, one_zsmul, zero_add]
  have hblinding : ((element E.base, element pk.y), 0) ∈ carried (element E.base) x := by
    change element pk.y = x • element E.base + (0 : ℤ) • element E.base
    rw [zero_zsmul, add_zero, hy]
  exact ((realizes laws hmade).transfer _ hplain hblinding).congr fun c v => Ciphertext.carries_iff

variable {x : ℕ} {bound : UInt64} {tableBits : UInt32} {curve : NamedCurve} {sk : SecretKey E}

theorem decrypt_of_carries (laws : E.Represents element) (horder : E.order = Ristretto.order)
    {c : Ciphertext E} {v : ℤ} (hc : c.Carries sk.curve element sk.x v) :
    (∃ m, sk.decrypt c = .ok m ∧
        IsOnlyIn (Set.Icc (-(sk.maxPlaintext.toNat : ℤ)) sk.maxPlaintext.toNat) E.order v m) ∨
      (∃ fault, sk.decrypt c = .error (.domain fault)) ∧
        ∀ m ∈ Set.Icc (-(sk.maxPlaintext.toNat : ℤ)) sk.maxPlaintext.toNat, ¬ m ≡ v [ZMOD E.order] := by
  have hmul := hc.made₁.mul sk.x
  have hpoint : element (E.sub c.c2 (E.mul sk.x c.c1)) = v • element E.base := by
    rw [laws.sub hc.made₂ hmul, laws.mul hc.made₁, hc.elements, add_sub_cancel_left]
  have hsolve := BabySteps.solve_build_of_zsmul laws horder sk.valid (hc.made₂.sub hmul) hpoint
  rw [← sk.steps_eq] at hsolve
  rw [SecretKey.decrypt, if_pos hc.curve_eq]
  rcases hsolve with ⟨m, hm, honly⟩ | ⟨hnone, hfar⟩
  · left
    exact ⟨m.toInt, by rw [hm], honly⟩
  · right
    exact ⟨⟨_, by rw [hnone]⟩, hfar⟩

theorem computes (laws : E.Represents element) (horder : E.order = Ristretto.order)
    {pk : PublicKey E} (hpk : sk.publicKey = .ok pk) :
    let range : Set ℤ := Set.Icc (-(sk.maxPlaintext.toNat : ℤ)) sk.maxPlaintext.toNat
    pk.operations.Computes pk.maxPlaintext.toNat fun c v =>
      (∃ m, sk.decrypt c = .ok m ∧ IsOnlyIn range E.order v m) ∨
        (∃ fault, sk.decrypt c = .error (.domain fault)) ∧ ∀ m ∈ range, ¬ m ≡ v [ZMOD E.order] := by
  intro range
  obtain ⟨pk', hpk', hcurve, hy, -⟩ := sk.exists_publicKey laws
  obtain rfl : pk' = pk := Except.ok.inj (hpk'.symm.trans hpk)
  have hmade : E.Made pk'.y := hy ▸ .mulBase sk.x
  have helement : element pk'.y = sk.x • element E.base := by rw [hy, laws.mulBase]
  refine ⟨_, PublicKey.realizes_carries laws hmade helement, fun c v hc => ?_⟩
  rw [hcurve] at hc
  exact decrypt_of_carries laws horder hc

theorem decrypt_run_mod_order (laws : E.Represents element) (horder : E.order = Ristretto.order)
    (hsk : SecretKey.ofParts curve x bound tableBits = .ok sk) (steps : List Step) (e : Entropy) :
    let range : Set ℤ := Set.Icc (-(bound.toNat : ℤ)) bound.toNat
    ∃ pk, sk.publicKey = .ok pk ∧
      let s := Store.after pk.operations Store.empty steps e
      Store.Tracks
          (fun c v => (∃ m, sk.decrypt c = .ok m ∧ IsOnlyIn range E.order v m) ∨
            (∃ fault, sk.decrypt c = .error (.domain fault)) ∧
              ∀ m ∈ range, ¬ m ≡ v [ZMOD E.order])
          s (Store.plainRun bound.toNat steps) ∧
        ∀ (next : Step) (e' : Entropy),
          Store.Ends bound.toNat s next (s.step pk.operations next e').1 := by
  obtain ⟨-, -, rfl, -⟩ := SecretKey.ofParts_eq_ok hsk
  obtain ⟨pk, hpk, -, -, hmax⟩ := sk.exists_publicKey laws
  obtain ⟨R, hR, hdecrypt⟩ := computes laws horder hpk
  rw [hmax] at hR
  obtain ⟨htracks, hends⟩ := hR.simulates.run_empty steps e
  exact ⟨pk, hpk, htracks.mono hdecrypt, hends⟩

theorem decrypt_run_residues :
    ∃ (h : 1 < Ristretto.order) (sk : SecretKey (residues Ristretto.order h)) (pk : _) (b c : _),
      (residues Ristretto.order h).Represents (G := ZMod Ristretto.order) id ∧
      SecretKey.ofParts .ristretto255 5 1000 4 = .ok sk ∧ sk.publicKey = .ok pk ∧
      let s := Store.after pk.operations Store.empty
        [⟨"a", .encryptWith (-600) 7⟩, ⟨"b", .add "a" "a"⟩, ⟨"c", .sub "b" "a"⟩]
        (Entropy.ofBytes [])
      s.find? "b" = some b ∧ s.find? "c" = some c ∧
        (∃ fault, sk.decrypt b = .error (.domain fault)) ∧ sk.decrypt c = .ok (-600) := by
  have h : 1 < Ristretto.order := Ristretto.group.one_lt_order
  have laws := represents_residues h (by decide +kernel)
  obtain ⟨sk, hsk⟩ : ∃ sk : SecretKey (residues Ristretto.order h),
      SecretKey.ofParts .ristretto255 5 1000 4 = .ok sk :=
    SecretKey.exists_ofParts (by change 0 < 5 % Ristretto.order; decide +kernel) (by decide)
  obtain ⟨pk, hpk, htracks, -⟩ := decrypt_run_mod_order laws rfl hsk
    [⟨"a", .encryptWith (-600) 7⟩, ⟨"b", .add "a" "a"⟩, ⟨"c", .sub "b" "a"⟩] (Entropy.ofBytes [])
  have hdouble : (Store.plainRun (1000 : UInt64).toNat
      [⟨"a", .encryptWith (-600) 7⟩, ⟨"b", .add "a" "a"⟩, ⟨"c", .sub "b" "a"⟩]).find? "b" =
        some (-1200) := by decide
  have hback : (Store.plainRun (1000 : UInt64).toNat
      [⟨"a", .encryptWith (-600) 7⟩, ⟨"b", .add "a" "a"⟩, ⟨"c", .sub "b" "a"⟩]).find? "c" =
        some (-600) := by decide
  obtain ⟨b, hb, hdecrypt⟩ := htracks.exists_of_find? hdouble
  obtain ⟨c, hc, hdecrypt'⟩ := htracks.exists_of_find? hback
  have horder : (4000 : ℤ) < (residues Ristretto.order h).order :=
    (by decide +kernel : (4000 : ℤ) < Ristretto.order)
  have hbound : ((1000 : UInt64).toNat : ℤ) = 1000 := rfl
  rw [hbound] at hdecrypt hdecrypt'
  refine ⟨h, sk, pk, b, c, laws, hsk, hpk, hb, hc, ?_, ?_⟩
  · rcases hdecrypt with ⟨m, -, honly⟩ | ⟨hfault, -⟩
    · obtain ⟨⟨hlow, hhigh⟩, hm⟩ := (honly m).mpr rfl
      have heq := eq_of_modEq_of_lt hm (by omega) (by omega)
      omega
    · exact hfault
  · rcases hdecrypt' with ⟨m, hm, honly⟩ | ⟨-, hfar⟩
    · have hvalue : -600 = m := (honly (-600)).mp ⟨⟨by omega, by omega⟩, Int.ModEq.refl _⟩
      rw [hm, hvalue]
    · exact absurd (Int.ModEq.refl _) (hfar (-600) ⟨by omega, by omega⟩)

end Homomorphic.ElGamal
