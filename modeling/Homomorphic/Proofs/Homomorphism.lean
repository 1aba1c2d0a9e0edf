import Homomorphic.Curve.Ristretto
import Homomorphic.Proofs.ElGamal.Group
import Homomorphic.Proofs.OkamotoUchiyama.Group
import Homomorphic.Proofs.Paillier.Group

namespace Homomorphic

open PointGroup

def SameResult {κ : Type} (same : κ → κ → Prop) (x y : Except Error κ) : Prop :=
  ∃ a b, x = .ok a ∧ y = .ok b ∧ same a b

/-- The operations on encryptions add and multiply plaintexts, up to the bound, and randomness, which
`reduce` takes back to what the scheme draws. -/
structure Operations.EncryptsHomomorphically {κ : Type} (ops : Operations κ) (bound : ℕ)
    (reduce : ℕ → ℕ) (same : κ → κ → Prop) : Prop where
  add {m₁ m₂ : ℤ} (h₁ : m₁.natAbs ≤ bound) (h₂ : m₂.natAbs ≤ bound)
    (hsum : (m₁ + m₂).natAbs ≤ bound) (r₁ r₂ : ℕ) :
    SameResult same (do ops.add (← ops.encryptWith m₁ r₁) (← ops.encryptWith m₂ r₂))
      (ops.encryptWith (m₁ + m₂) (reduce (r₁ + r₂)))
  addPlain {m₁ m₂ : ℤ} (h₁ : m₁.natAbs ≤ bound) (h₂ : m₂.natAbs ≤ bound)
    (hsum : (m₁ + m₂).natAbs ≤ bound) (r : ℕ) :
    SameResult same (do ops.addPlain (← ops.encryptWith m₁ r) m₂) (ops.encryptWith (m₁ + m₂) r)
  mul {m k : ℤ} (hm : m.natAbs ≤ bound) (hk : k.natAbs ≤ bound) (hproduct : (k * m).natAbs ≤ bound)
    (hnonneg : 0 ≤ k) (r : ℕ) :
    SameResult same (do ops.mul (← ops.encryptWith m r) k)
      (ops.encryptWith (k * m) (reduce (k.toNat * r)))
  randomize {m : ℤ} (hm : m.natAbs ≤ bound) (r : ℕ) (e : Entropy) :
    ∃ r' e' a c, ops.draw.outcome e = (.ok r', e') ∧ ops.encryptWith m r = .ok a ∧
      (ops.randomize a).outcome e = (.ok c, e') ∧
      SameResult same (.ok c) (ops.encryptWith m (reduce (r + r')))

theorem Operations.Realizes.encryptsHomomorphically {κ M : Type} [AddCommGroup M] {ops : Operations κ}
    {bound : ℕ} {R : κ → M → Prop} {plain blinding : M} {reduce : ℕ → ℕ} {same : κ → κ → Prop}
    (h : ops.Realizes bound R plain blinding) (hreduce : ∀ r, reduce r • blinding = r • blinding)
    (hsame : ∀ a b u, R a u → R b u → same a b) :
    ops.EncryptsHomomorphically bound reduce same where
  add {m₁ m₂} h₁ h₂ hsum r₁ r₂ := by
    obtain ⟨a, ha, hRa⟩ := h.encryptWith h₁ r₁
    obtain ⟨b, hb, hRb⟩ := h.encryptWith h₂ r₂
    obtain ⟨c, hc, hRc⟩ := h.add hRa hRb
    obtain ⟨d, hd, hRd⟩ := h.encryptWith hsum (reduce (r₁ + r₂))
    refine ⟨c, d, ?_, hd, hsame c d _ hRc ?_⟩
    · rw [ha, hb]
      exact hc
    · rw [hreduce] at hRd
      convert hRd using 1
      module
  addPlain {m₁ m₂} h₁ h₂ hsum r := by
    obtain ⟨a, ha, hRa⟩ := h.encryptWith h₁ r
    obtain ⟨c, hc, hRc⟩ := h.addPlain hRa h₂
    obtain ⟨d, hd, hRd⟩ := h.encryptWith hsum r
    refine ⟨c, d, ?_, hd, hsame c d _ hRc ?_⟩
    · rw [ha]
      exact hc
    · convert hRd using 1
      module
  mul {m k} hm hk hproduct hnonneg r := by
    obtain ⟨a, ha, hRa⟩ := h.encryptWith hm r
    obtain ⟨c, hc, hRc⟩ := h.mul hRa hk
    obtain ⟨d, hd, hRd⟩ := h.encryptWith hproduct (reduce (k.toNat * r))
    refine ⟨c, d, ?_, hd, hsame c d _ hRc ?_⟩
    · rw [ha]
      exact hc
    · rw [hreduce] at hRd
      convert hRd using 1
      lift k to ℕ using hnonneg
      rw [Int.toNat_natCast]
      module
  randomize {m} hm r e := by
    obtain ⟨a, ha, hRa⟩ := h.encryptWith hm r
    obtain ⟨r', e', hr'⟩ := h.draw e
    obtain ⟨c, hc, hRc⟩ := h.blind hRa r'
    obtain ⟨d, hd, hRd⟩ := h.encryptWith hm (reduce (r + r'))
    refine ⟨r', e', a, c, hr', ha, ?_, c, d, rfl, hd, hsame c d _ hRc ?_⟩
    · rw [Operations.randomize, h.check hRa]
      change (ops.draw >>= fun r => liftM (ops.blind a r)).outcome e = _
      rw [Draw.outcome_bind_of_ok _ hr', Draw.outcome_lift, hc]
    · rw [hreduce] at hRd
      convert hRd using 1
      module

theorem Paillier.PublicKey.encryptsHomomorphically (pk : PublicKey) :
    pk.operations.EncryptsHomomorphically pk.bound id Eq := by
  apply pk.realizes.encryptsHomomorphically fun _ => rfl
  intro a b u ha hb
  exact Ciphertext.ext (ha.eq hb)

theorem OkamotoUchiyama.PublicKey.encryptsHomomorphically (pk : PublicKey) :
    pk.operations.EncryptsHomomorphically pk.bound id Eq := by
  apply pk.realizes.encryptsHomomorphically fun _ => rfl
  intro a b u ha hb
  exact Ciphertext.ext (ha.eq hb)

variable {E : PointGroup} {G : Type} [AddCommGroup G] {element : E.Point → G}

theorem ElGamal.PublicKey.encryptsHomomorphically (laws : E.Represents element) {pk : PublicKey E}
    (hmade : E.Made pk.y) :
    pk.operations.EncryptsHomomorphically pk.maxPlaintext.toNat (· % E.order) (· == ·) := by
  apply (realizes laws hmade).encryptsHomomorphically
  · intro r
    rw [← laws.card]
    exact Prod.ext (mod_natCard_nsmul _ r) (mod_natCard_nsmul _ r)
  · intro a b u ha hb
    exact ha.beq laws hb

theorem encryption_is_homomorphic (laws : E.Represents element) :
    (∀ pk : Paillier.PublicKey, pk.operations.EncryptsHomomorphically pk.bound id Eq) ∧
    (∀ pk : OkamotoUchiyama.PublicKey, pk.operations.EncryptsHomomorphically pk.bound id Eq) ∧
    ∀ pk : ElGamal.PublicKey E, E.Made pk.y →
      pk.operations.EncryptsHomomorphically pk.maxPlaintext.toNat (· % E.order) (· == ·) :=
  ⟨fun pk => pk.encryptsHomomorphically, fun pk => pk.encryptsHomomorphically,
    fun _ hmade => ElGamal.PublicKey.encryptsHomomorphically laws hmade⟩

theorem encryption_is_homomorphic_residues :
    ∃ (h : 1 < Ristretto.order) (pk : ElGamal.PublicKey (residues Ristretto.order h))
      (pk' : Paillier.PublicKey),
      (residues Ristretto.order h).Represents (G := ZMod Ristretto.order) id ∧
      ElGamal.PublicKey.ofParts .ristretto255 (residues Ristretto.order h).base 1000 = .ok pk ∧
      Paillier.PublicKey.ofParts (7 * mersenne 521) 2 = .ok pk' ∧
      SameResult (· == ·) (do pk.operations.mul (← pk.operations.encryptWith (-500) 3) 2)
        (pk.operations.encryptWith (-1000) (6 % Ristretto.order)) ∧
      SameResult Eq
        (do pk'.operations.addPlain (← pk'.operations.encryptWith (pk'.bound : ℤ) 3) (-pk'.bound))
        (pk'.operations.encryptWith 0 3) := by
  have h : 1 < Ristretto.order := Ristretto.group.one_lt_order
  have laws := represents_residues h (by decide +kernel)
  obtain ⟨hpaillier, -, helgamal⟩ := encryption_is_homomorphic laws
  have hne : (residues Ristretto.order h).same (residues Ristretto.order h).base
      (residues Ristretto.order h).zero = false := by
    have : Fact (1 < Ristretto.order) := ⟨h⟩
    exact decide_eq_false (one_ne_zero (α := ZMod Ristretto.order))
  obtain ⟨pk, hpk, -, hy, hmax⟩ : ∃ pk : ElGamal.PublicKey (residues Ristretto.order h),
      ElGamal.PublicKey.ofParts .ristretto255 (residues Ristretto.order h).base 1000 = .ok pk ∧
      pk.curve = .ristretto255 ∧ pk.y = (residues Ristretto.order h).base ∧ pk.maxPlaintext = 1000 :=
    ElGamal.PublicKey.exists_ofParts hne (by decide)
  have hodd : 7 * mersenne 521 % 2 = 1 := by decide +kernel
  have hsize : Limits.minKeySize ≤ bitLength (7 * mersenne 521) :=
    lt_bitLength.mpr (by decide +kernel)
  have hunit : Nat.Coprime 2 (7 * mersenne 521) := Nat.coprime_two_left.mpr (Nat.odd_iff.mpr hodd)
  obtain ⟨pk', hpk', -⟩ := Paillier.PublicKey.exists_ofParts hodd hsize (by decide +kernel) hunit
  have hmade : (residues Ristretto.order h).Made pk.y := hy ▸ .base
  have hmul := (helgamal pk hmade).mul (m := -500) (k := 2) (by rw [hmax]; decide)
    (by rw [hmax]; decide) (by rw [hmax]; decide) (by decide) 3
  have hlargest : (pk'.bound : ℤ).natAbs ≤ pk'.bound := (Int.natAbs_natCast _).le
  have hsmallest : (-pk'.bound : ℤ).natAbs ≤ pk'.bound := (Int.natAbs_neg _).trans_le hlargest
  have hplain := (hpaillier pk').addPlain hlargest hsmallest (by simp) 3
  rw [add_neg_cancel] at hplain
  exact ⟨h, pk, pk', laws, hpk, hpk', hmul, hplain⟩

end Homomorphic
