import Homomorphic.ElGamal.Cipher
import Homomorphic.Proofs.ElGamal.Encoding
import Homomorphic.Proofs.Realization

namespace Homomorphic.ElGamal

open PointGroup

variable {E : PointGroup} {G : Type} [AddCommGroup G] {element : E.Point → G}

structure Ciphertext.StandsFor (curve : NamedCurve) (element : E.Point → G) (c : Ciphertext E)
    (u : G × G) : Prop where
  curve_eq : c.curve = curve
  made₁ : E.Made c.c1
  made₂ : E.Made c.c2
  element₁ : element c.c1 = u.1
  element₂ : element c.c2 = u.2

theorem Ciphertext.StandsFor.beq (laws : E.Represents element) {curve : NamedCurve} {a b : Ciphertext E}
    {u : G × G} (ha : a.StandsFor curve element u) (hb : b.StandsFor curve element u) :
    (a == b) = true := by
  refine beq_iff.mpr ⟨ha.curve_eq.trans hb.curve_eq.symm, ?_, ?_⟩
  · exact (laws.same ha.made₁ hb.made₁).mpr (ha.element₁.trans hb.element₁.symm)
  · exact (laws.same ha.made₂ hb.made₂).mpr (ha.element₂.trans hb.element₂.symm)

theorem outcome_drawScalar (e : Entropy) :
    ∃ r e', (drawScalar E).outcome e = (.ok r, e') := by
  rw [drawScalar, Draw.outcome_bind_of_ok _ (Draw.outcome_take 64 e)]
  exact ⟨_, _, rfl⟩

namespace PublicKey

variable {pk : PublicKey E}

theorem scalar_of_le {m : ℤ} (hm : m.natAbs ≤ pk.maxPlaintext.toNat) :
    pk.scalar m = .ok (E.scalar m) := by
  rw [scalar, if_pos hm]

theorem scalar_of_lt {m : ℤ} (hm : pk.maxPlaintext.toNat < m.natAbs) :
    ∃ fault, pk.scalar m = .error (.domain fault) := by
  rw [scalar, if_neg (Nat.not_le_of_lt hm)]
  exact ⟨_, rfl⟩

theorem check_of_curve {c : Ciphertext E} (hc : c.curve = pk.curve) : pk.check c = .ok () := by
  rw [check, if_pos hc]

theorem realizes (laws : E.Represents element) (hmade : E.Made pk.y) :
    pk.operations.Realizes pk.maxPlaintext.toNat (Ciphertext.StandsFor pk.curve element)
      (0, element E.base) (element E.base, element pk.y) where
  draw e := outcome_drawScalar e
  check ha := check_of_curve ha.curve_eq
  encryptWith {m} hm r := by
    refine ⟨⟨pk.curve, E.mulBase r, E.add (E.mulBase (E.scalar m)) (E.mul r pk.y)⟩, ?_,
      rfl, .mulBase r, (Made.mulBase _).add (hmade.mul r), ?_, ?_⟩
    · change pk.encryptWith m r = _
      rw [PublicKey.encryptWith, scalar_of_le hm]
      rfl
    · simp [laws.mulBase]
    · simp [laws.add (.mulBase _) (hmade.mul r), laws.mulBase_scalar, laws.mul hmade]
  encryptWith_beyond {m} hm r := by
    obtain ⟨fault, hfault⟩ := scalar_of_lt hm
    refine ⟨fault, ?_⟩
    change pk.encryptWith m r = _
    rw [PublicKey.encryptWith, hfault]
    rfl
  add {a b u w} ha hb := by
    refine ⟨⟨a.curve, E.add a.c1 b.c1, E.add a.c2 b.c2⟩, ?_, ha.curve_eq, ha.made₁.add hb.made₁,
      ha.made₂.add hb.made₂, ?_, ?_⟩
    · change pk.add a b = _
      rw [PublicKey.add, check_of_curve ha.curve_eq, check_of_curve hb.curve_eq]
      rfl
    · rw [laws.add ha.made₁ hb.made₁, ha.element₁, hb.element₁, Prod.fst_add]
    · rw [laws.add ha.made₂ hb.made₂, ha.element₂, hb.element₂, Prod.snd_add]
  sub {a b u w} ha hb := by
    refine ⟨⟨a.curve, E.sub a.c1 b.c1, E.sub a.c2 b.c2⟩, ?_, ha.curve_eq, ha.made₁.sub hb.made₁,
      ha.made₂.sub hb.made₂, ?_, ?_⟩
    · change pk.sub a b = _
      rw [PublicKey.sub, check_of_curve ha.curve_eq, check_of_curve hb.curve_eq]
      rfl
    · rw [laws.sub ha.made₁ hb.made₁, ha.element₁, hb.element₁, Prod.fst_sub]
    · rw [laws.sub ha.made₂ hb.made₂, ha.element₂, hb.element₂, Prod.snd_sub]
  negate {a u} ha := by
    refine ⟨⟨a.curve, E.neg a.c1, E.neg a.c2⟩, ?_, ha.curve_eq, ha.made₁.neg, ha.made₂.neg, ?_, ?_⟩
    · change pk.negate a = _
      rw [PublicKey.negate, check_of_curve ha.curve_eq]
      rfl
    · rw [laws.neg ha.made₁, ha.element₁, Prod.fst_neg]
    · rw [laws.neg ha.made₂, ha.element₂, Prod.snd_neg]
  addPlain {a u m} ha hm := by
    refine ⟨⟨a.curve, a.c1, E.add a.c2 (E.mulBase (E.scalar m))⟩, ?_, ha.curve_eq, ha.made₁,
      ha.made₂.add (.mulBase _), ?_, ?_⟩
    · change pk.addPlain a m = _
      rw [PublicKey.addPlain, check_of_curve ha.curve_eq, scalar_of_le hm]
      rfl
    · simp [ha.element₁]
    · simp [laws.add ha.made₂ (.mulBase _), ha.element₂, laws.mulBase_scalar]
  addPlain_beyond {a u m} ha hm := by
    obtain ⟨fault, hfault⟩ := scalar_of_lt hm
    refine ⟨fault, ?_⟩
    change pk.addPlain a m = _
    rw [PublicKey.addPlain, check_of_curve ha.curve_eq, hfault]
    rfl
  mul {a u k} ha hk := by
    refine ⟨⟨a.curve, E.mul (E.scalar k) a.c1, E.mul (E.scalar k) a.c2⟩, ?_, ha.curve_eq,
      ha.made₁.mul _, ha.made₂.mul _, ?_, ?_⟩
    · change pk.mul a k = _
      rw [PublicKey.mul, check_of_curve ha.curve_eq, scalar_of_le hk]
      rfl
    · rw [laws.mul_scalar ha.made₁, ha.element₁, Prod.smul_fst]
    · rw [laws.mul_scalar ha.made₂, ha.element₂, Prod.smul_snd]
  mul_beyond {a u k} ha hk := by
    obtain ⟨fault, hfault⟩ := scalar_of_lt hk
    refine ⟨fault, ?_⟩
    change pk.mul a k = _
    rw [PublicKey.mul, check_of_curve ha.curve_eq, hfault]
    rfl
  blind {a u} ha r := by
    refine ⟨⟨a.curve, E.add a.c1 (E.mulBase r), E.add a.c2 (E.mul r pk.y)⟩, ?_, ha.curve_eq,
      ha.made₁.add (.mulBase r), ha.made₂.add (hmade.mul r), ?_, ?_⟩
    · change pk.blind a r = _
      rw [PublicKey.blind, check_of_curve ha.curve_eq]
      rfl
    · simp [laws.add ha.made₁ (.mulBase r), ha.element₁, laws.mulBase]
    · simp [laws.add ha.made₂ (hmade.mul r), ha.element₂, laws.mul hmade]

end PublicKey

end Homomorphic.ElGamal
