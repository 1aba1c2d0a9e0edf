import Homomorphic.Proofs.Homomorphism
import Homomorphic.Proofs.Units

namespace Homomorphic

open PointGroup

section

variable {κ M : Type}

def Yields (R : κ → M → Prop) (x : Except Error κ) (u : M) : Prop := ∃ c, x = .ok c ∧ R c u

variable {R : κ → M → Prop} {x y : Except Error κ} {u w : M}

theorem Yields.of_ok {c : κ} (h : R c u) : Yields R (.ok c) u := ⟨c, rfl, h⟩

theorem Yields.bind {f : κ → Except Error κ} (hx : Yields R x u)
    (hf : ∀ c, R c u → Yields R (f c) w) : Yields R (x >>= f) w := by
  obtain ⟨c, rfl, hc⟩ := hx
  exact hf c hc

theorem Yields.sameResult {same : κ → κ → Prop} (hsame : ∀ a b u, R a u → R b u → same a b)
    (hx : Yields R x u) (hy : Yields R y w) (h : u = w) : SameResult same x y := by
  obtain ⟨a, ha, hRa⟩ := hx
  obtain ⟨b, hb, hRb⟩ := hy
  exact ⟨a, b, ha, hb, hsame a b u hRa (h ▸ hRb)⟩

end

/-- The laws of a module over the integers, for ciphertexts with the property `P` and integers up to the
bound. All sides of the laws give ciphertexts. -/
structure Operations.ModuleLaws {κ : Type} (ops : Operations κ) (bound : ℕ) (P : κ → Prop)
    (same : κ → κ → Prop) : Prop where
  add_comm {a b} (ha : P a) (hb : P b) : SameResult same (ops.add a b) (ops.add b a)
  add_assoc {a b c} (ha : P a) (hb : P b) (hc : P c) :
    SameResult same (do ops.add (← ops.add a b) c) (do ops.add a (← ops.add b c))
  sub_eq_add_negate {a b} (ha : P a) (hb : P b) :
    SameResult same (ops.sub a b) (do ops.add a (← ops.negate b))
  negate_eq_mul {a} (ha : P a) : SameResult same (ops.negate a) (ops.mul a (-1))
  negate_negate {a} (ha : P a) : SameResult same (do ops.negate (← ops.negate a)) (.ok a)
  mul_scalar_add {a} {k₁ k₂ : ℤ} (ha : P a) (h₁ : k₁.natAbs ≤ bound) (h₂ : k₂.natAbs ≤ bound)
    (hsum : (k₁ + k₂).natAbs ≤ bound) :
    SameResult same (ops.mul a (k₁ + k₂)) (do ops.add (← ops.mul a k₁) (← ops.mul a k₂))
  mul_mul {a} {k₁ k₂ : ℤ} (ha : P a) (h₁ : k₁.natAbs ≤ bound) (h₂ : k₂.natAbs ≤ bound)
    (hproduct : (k₁ * k₂).natAbs ≤ bound) :
    SameResult same (do ops.mul (← ops.mul a k₁) k₂) (ops.mul a (k₁ * k₂))
  mul_add {a b} {k : ℤ} (ha : P a) (hb : P b) (hk : k.natAbs ≤ bound) :
    SameResult same (do ops.mul (← ops.add a b) k) (do ops.add (← ops.mul a k) (← ops.mul b k))
  add_mul_zero {a b} (ha : P a) (hb : P b) : SameResult same (do ops.add a (← ops.mul b 0)) (.ok a)
  subPlain_addPlain {a} {m : ℤ} (ha : P a) (hm : m.natAbs ≤ bound) :
    SameResult same (do ops.subPlain (← ops.addPlain a m) m) (.ok a)

theorem Operations.Realizes.moduleLaws {κ M : Type} [AddCommGroup M] {ops : Operations κ} {bound : ℕ}
    {R : κ → M → Prop} {plain blinding : M} {P : κ → Prop} {same : κ → κ → Prop}
    (h : ops.Realizes bound R plain blinding) (hbound : 0 < bound) (hP : ∀ a, P a → ∃ u, R a u)
    (hsame : ∀ a b u, R a u → R b u → same a b) : ops.ModuleLaws bound P same where
  add_comm ha hb := by
    obtain ⟨u, hu⟩ := hP _ ha
    obtain ⟨w, hw⟩ := hP _ hb
    have hleft : Yields R _ (u + w) := h.add hu hw
    exact hleft.sameResult hsame (h.add hw hu) (add_comm u w)
  add_assoc ha hb hc := by
    obtain ⟨u, hu⟩ := hP _ ha
    obtain ⟨v, hv⟩ := hP _ hb
    obtain ⟨w, hw⟩ := hP _ hc
    have hleft : Yields R _ (u + v + w) := Yields.bind (h.add hu hv) fun _ huv => h.add huv hw
    have hright : Yields R _ (u + (v + w)) := Yields.bind (h.add hv hw) fun _ hvw => h.add hu hvw
    exact hleft.sameResult hsame hright (add_assoc u v w)
  sub_eq_add_negate ha hb := by
    obtain ⟨u, hu⟩ := hP _ ha
    obtain ⟨w, hw⟩ := hP _ hb
    have hleft : Yields R _ (u - w) := h.sub hu hw
    have hright : Yields R _ (u + -w) := Yields.bind (h.negate hw) fun _ hneg => h.add hu hneg
    exact hleft.sameResult hsame hright (sub_eq_add_neg u w)
  negate_eq_mul ha := by
    obtain ⟨u, hu⟩ := hP _ ha
    have hleft : Yields R _ (-u) := h.negate hu
    have hright : Yields R _ ((-1 : ℤ) • u) := h.mul hu (show (-1 : ℤ).natAbs ≤ bound from hbound)
    exact hleft.sameResult hsame hright (neg_one_zsmul u).symm
  negate_negate ha := by
    obtain ⟨u, hu⟩ := hP _ ha
    have hleft : Yields R _ (- -u) := Yields.bind (h.negate hu) fun _ hneg => h.negate hneg
    exact hleft.sameResult hsame (.of_ok hu) (neg_neg u)
  mul_scalar_add {_ k₁ k₂} ha h₁ h₂ hsum := by
    obtain ⟨u, hu⟩ := hP _ ha
    have hleft : Yields R _ ((k₁ + k₂) • u) := h.mul hu hsum
    have hright : Yields R _ (k₁ • u + k₂ • u) :=
      Yields.bind (h.mul hu h₁) fun _ hfirst => Yields.bind (h.mul hu h₂) fun _ => h.add hfirst
    exact hleft.sameResult hsame hright (add_zsmul u k₁ k₂)
  mul_mul {_ k₁ k₂} ha h₁ h₂ hproduct := by
    obtain ⟨u, hu⟩ := hP _ ha
    have hleft : Yields R _ (k₂ • k₁ • u) := Yields.bind (h.mul hu h₁) fun _ hfirst => h.mul hfirst h₂
    have hright : Yields R _ ((k₁ * k₂) • u) := h.mul hu hproduct
    exact hleft.sameResult hsame hright (mul_zsmul' u k₁ k₂).symm
  mul_add {_ _ k} ha hb hk := by
    obtain ⟨u, hu⟩ := hP _ ha
    obtain ⟨w, hw⟩ := hP _ hb
    have hleft : Yields R _ (k • (u + w)) := Yields.bind (h.add hu hw) fun _ hsum => h.mul hsum hk
    have hright : Yields R _ (k • u + k • w) :=
      Yields.bind (h.mul hu hk) fun _ hfirst => Yields.bind (h.mul hw hk) fun _ => h.add hfirst
    exact hleft.sameResult hsame hright (zsmul_add u w k)
  add_mul_zero ha hb := by
    obtain ⟨u, hu⟩ := hP _ ha
    obtain ⟨w, hw⟩ := hP _ hb
    have hzero : (0 : ℤ).natAbs ≤ bound := Nat.zero_le bound
    have hleft : Yields R _ (u + (0 : ℤ) • w) := Yields.bind (h.mul hw hzero) fun _ => h.add hu
    refine hleft.sameResult hsame (.of_ok hu) ?_
    rw [zero_zsmul, add_zero]
  subPlain_addPlain {_ m} ha hm := by
    obtain ⟨u, hu⟩ := hP _ ha
    have hneg : (-m).natAbs ≤ bound := by rwa [Int.natAbs_neg]
    have hleft : Yields R _ (u + m • plain + (-m) • plain) :=
      Yields.bind (h.addPlain hu hm) fun _ hplain => h.addPlain hplain hneg
    refine hleft.sameResult hsame (.of_ok hu) ?_
    rw [neg_zsmul, add_neg_cancel_right]

theorem Paillier.PublicKey.moduleLaws (pk : PublicKey) :
    pk.operations.ModuleLaws pk.bound
      (fun c => IsUnitBelow (pk.n.value ^ 2) pk.n.value c.value) Eq := by
  apply pk.realizes.moduleLaws
  · have hone := pk.n.one_lt
    change 0 < pk.n.value / 2
    omega
  · rintro c ⟨-, hlt, hcoprime⟩
    rw [sq] at hlt
    exact Modulus.exists_standsFor hlt (SecretKey.isUnit_cast_square hcoprime)
  · intro a b u ha hb
    exact Ciphertext.ext (ha.eq hb)

theorem OkamotoUchiyama.PublicKey.moduleLaws (pk : PublicKey) :
    pk.operations.ModuleLaws pk.bound (fun c => IsUnitBelow pk.n.value pk.n.value c.value) Eq := by
  apply pk.realizes.moduleLaws
  · change 0 < 1 <<< _
    rw [Nat.one_shiftLeft]
    exact Nat.two_pow_pos _
  · rintro c ⟨-, hlt, hcoprime⟩
    exact Modulus.exists_standsFor hlt ((ZMod.isUnit_iff_coprime _ _).mpr hcoprime)
  · intro a b u ha hb
    exact Ciphertext.ext (ha.eq hb)

variable {E : PointGroup} {G : Type} [AddCommGroup G] {element : E.Point → G}

theorem ElGamal.PublicKey.moduleLaws (laws : E.Represents element) {pk : PublicKey E}
    (hmade : E.Made pk.y) :
    pk.operations.ModuleLaws pk.maxPlaintext.toNat Ciphertext.Made (· == ·) := by
  apply (realizes laws hmade).moduleLaws (checkMaxPlaintext_eq_ok.mp pk.valid).1
  · intro c hc
    exact ⟨(element c.c1, element c.c2), Subsingleton.elim _ _, hc.c1, hc.c2, rfl, rfl⟩
  · intro a b u ha hb
    exact ha.beq laws hb

theorem evaluator_obeys_module_laws (laws : E.Represents element) :
    (∀ pk : Paillier.PublicKey, pk.operations.ModuleLaws pk.bound
      (fun c => IsUnitBelow (pk.n.value ^ 2) pk.n.value c.value) Eq) ∧
    (∀ pk : OkamotoUchiyama.PublicKey, pk.operations.ModuleLaws pk.bound
      (fun c => IsUnitBelow pk.n.value pk.n.value c.value) Eq) ∧
    ∀ pk : ElGamal.PublicKey E, E.Made pk.y →
      pk.operations.ModuleLaws pk.maxPlaintext.toNat ElGamal.Ciphertext.Made (· == ·) :=
  ⟨fun pk => pk.moduleLaws, fun pk => pk.moduleLaws,
    fun _ hmade => ElGamal.PublicKey.moduleLaws laws hmade⟩

theorem evaluator_obeys_module_laws_residues :
    ∃ (h : 1 < Ristretto.order) (pk : ElGamal.PublicKey (residues Ristretto.order h))
      (c : ElGamal.Ciphertext (residues Ristretto.order h)) (pk' : Paillier.PublicKey),
      (residues Ristretto.order h).Represents (G := ZMod Ristretto.order) id ∧
      ElGamal.PublicKey.ofParts .ristretto255 (residues Ristretto.order h).base 1000 = .ok pk ∧
      c.c1 = (residues Ristretto.order h).base ∧ c.c2 = (residues Ristretto.order h).zero ∧
      Paillier.PublicKey.ofParts (7 * mersenne 521) 2 = .ok pk' ∧
      SameResult (· == ·) (do pk.operations.mul (← pk.operations.mul c (-10)) 100)
        (pk.operations.mul c (-1000)) ∧
      SameResult Eq (pk'.operations.sub ⟨3⟩ ⟨2⟩)
        (do pk'.operations.add ⟨3⟩ (← pk'.operations.negate ⟨2⟩)) := by
  have h : 1 < Ristretto.order := Ristretto.group.one_lt_order
  have laws := represents_residues h (by decide +kernel)
  obtain ⟨hpaillier, -, helgamal⟩ := evaluator_obeys_module_laws laws
  have hne : (residues Ristretto.order h).same (residues Ristretto.order h).base
      (residues Ristretto.order h).zero = false := by
    have : Fact (1 < Ristretto.order) := ⟨h⟩
    exact decide_eq_false (one_ne_zero (α := ZMod Ristretto.order))
  obtain ⟨pk, hpk, -, hy, hmax⟩ : ∃ pk : ElGamal.PublicKey (residues Ristretto.order h),
      ElGamal.PublicKey.ofParts .ristretto255 (residues Ristretto.order h).base 1000 = .ok pk ∧
      pk.curve = .ristretto255 ∧ pk.y = (residues Ristretto.order h).base ∧ pk.maxPlaintext = 1000 :=
    ElGamal.PublicKey.exists_ofParts hne (by decide)
  have hmade : (residues Ristretto.order h).Made pk.y := hy ▸ .base
  obtain ⟨c, hc⟩ : ∃ c : ElGamal.Ciphertext (residues Ristretto.order h),
      c = ⟨.ristretto255, (residues Ristretto.order h).base, (residues Ristretto.order h).zero⟩ :=
    ⟨_, rfl⟩
  have hcmade : c.Made := hc ▸ ⟨.base, .zero⟩
  have hmul : SameResult (· == ·) (do pk.operations.mul (← pk.operations.mul c (-10)) 100)
      (pk.operations.mul c (-10 * 100)) :=
    (helgamal pk hmade).mul_mul hcmade (by rw [hmax]; decide) (by rw [hmax]; decide)
      (by rw [hmax]; decide)
  obtain ⟨n, pk', hn, hpk', hvalue, hlarge, htwo, hthree⟩ :=
    Paillier.PublicKey.exists_ofParts_seven_mersenne
  have hsquare : 3 < n ^ 2 := hlarge.trans_le (Nat.le_self_pow two_ne_zero n)
  have htwoLt : 2 < n ^ 2 := (Nat.lt_succ_self 2).trans hsquare
  have hsub := (hpaillier pk').sub_eq_add_negate (a := ⟨3⟩) (b := ⟨2⟩)
    (by rw [hvalue]; exact ⟨by decide, hsquare, hthree⟩)
    (by rw [hvalue]; exact ⟨by decide, htwoLt, htwo⟩)
  rw [hn] at hpk'
  exact ⟨h, pk, c, pk', laws, hpk, by rw [hc], by rw [hc], hpk', hmul, hsub⟩

end Homomorphic
