import Homomorphic.Proofs.OkamotoUchiyama.Group
import Homomorphic.Proofs.Paillier.Group

namespace Homomorphic

variable {α β κ : Type}

structure EndsBy (x : Except Error α) (succeeds uninvertible : Prop) : Prop where
  ok_iff : (∃ a, x = .ok a) ↔ succeeds
  noInverse_iff : (∃ value modulus, x = .error (.noInverse value modulus)) ↔ uninvertible
  domain_iff : (∃ fault, x = .error (.domain fault)) ↔ ¬ succeeds ∧ ¬ uninvertible

namespace EndsBy

variable {x : Except Error α} {S S' U U' : Prop}

theorem congr (h : EndsBy x S U) (hS : S ↔ S') (hU : U ↔ U') : EndsBy x S' U' := by
  rwa [← propext hS, ← propext hU]

theorem pure (a : α) : EndsBy (pure a) True False where
  ok_iff := iff_of_true ⟨a, rfl⟩ trivial
  noInverse_iff := iff_of_false (by rintro ⟨_, _, h⟩; cases h) id
  domain_iff := iff_of_false (by rintro ⟨_, h⟩; cases h) fun h => h.1 trivial

theorem of_noInverse (value modulus : ℕ) :
    EndsBy (.error (.noInverse value modulus) : Except Error α) False True where
  ok_iff := iff_of_false (by rintro ⟨_, h⟩; cases h) id
  noInverse_iff := iff_of_true ⟨value, modulus, rfl⟩ trivial
  domain_iff := iff_of_false (by rintro ⟨_, h⟩; cases h) fun h => h.2 trivial

theorem of_domain (fault : DomainFault) :
    EndsBy (.error (.domain fault) : Except Error α) False False where
  ok_iff := iff_of_false (by rintro ⟨_, h⟩; cases h) id
  noInverse_iff := iff_of_false (by rintro ⟨_, _, h⟩; cases h) id
  domain_iff := iff_of_true ⟨fault, rfl⟩ ⟨id, id⟩

theorem bind {f : α → Except Error β} (h : EndsBy x S U) (hf : ∀ a, EndsBy (f a) S' U') :
    EndsBy (x >>= f) (S ∧ S') (U ∨ S ∧ U') := by
  cases x with
  | error error =>
    have hS : ¬ S := by
      intro hS
      obtain ⟨a, ha⟩ := h.ok_iff.mpr hS
      cases ha
    constructor
    · exact iff_of_false (by rintro ⟨_, h⟩; cases h) fun h => hS h.1
    · simpa [hS, bind, Except.bind] using h.noInverse_iff
    · simpa [hS, bind, Except.bind] using h.domain_iff
  | ok a =>
    have hS : S := h.ok_iff.mp ⟨a, rfl⟩
    have hU : ¬ U := by
      intro hU
      obtain ⟨_, _, ha⟩ := h.noInverse_iff.mpr hU
      cases ha
    exact (hf a).congr (by simp [hS]) (by simp [hS, hU])

theorem guard {y : Except Error β} {check : Except Error Unit} (hcheck : EndsBy check S False)
    (h : EndsBy y S' U') : EndsBy (check >>= fun _ => y) (S ∧ S') (S ∧ U') :=
  (hcheck.bind fun _ => h).congr Iff.rfl (by simp)

theorem map (h : EndsBy x S U) (f : α → β) : EndsBy (x >>= fun a => Pure.pure (f a)) S U :=
  (h.bind fun a => pure (f a)).congr (by simp) (by simp)

theorem ite {c : Prop} [Decidable c] (fault : DomainFault) :
    EndsBy (if c then .ok () else .error (.domain fault)) c False := by
  split
  · next hc => exact (pure ()).congr (by simp [hc]) Iff.rfl
  · next hc => exact (of_domain fault).congr (by simp [hc]) Iff.rfl

theorem outcome_lift_bind {f : α → Draw β} {e : Entropy} (h : EndsBy x S U)
    (hf : ∀ a, EndsBy ((f a).outcome e).1 S' U') :
    EndsBy (((liftM x : Draw α) >>= f).outcome e).1 (S ∧ S') (U ∨ S ∧ U') := by
  have houtcome : (((liftM x : Draw α) >>= f).outcome e).1 = x >>= fun a => ((f a).outcome e).1 := by
    cases x <;> rfl
  rw [houtcome]
  exact h.bind hf

end EndsBy

namespace Modulus

variable (m : Modulus)

theorem endsBy_inv (a : ℕ) : EndsBy (m.inv a) (Nat.Coprime a m.value) (¬ Nat.Coprime a m.value) := by
  by_cases h : Nat.Coprime a m.value
  · obtain ⟨x, hx, -⟩ := m.inv_of_coprime h
    rw [hx]
    exact (EndsBy.pure x).congr (iff_of_true trivial h) (iff_of_false id (not_not_intro h))
  · rw [m.inv_of_not_coprime h]
    exact (EndsBy.of_noInverse _ _).congr (iff_of_false id h) (iff_of_true trivial h)

theorem endsBy_pow (a : ℕ) (k : ℤ) :
    EndsBy (m.pow a k) (0 ≤ k ∨ Nat.Coprime a m.value) (k < 0 ∧ ¬ Nat.Coprime a m.value) := by
  rw [pow]
  split
  · next hk => exact ((m.endsBy_inv a).map _).congr (by simp [hk]) (by simp [hk])
  · next hk => exact (EndsBy.pure _).congr (by simp [not_lt.mp hk]) (by simp [hk])

end Modulus

namespace Operations

structure IsArithmetic (ops : Operations κ) (ciphertext : ℕ → κ) (m : Modulus)
    (checkPlaintext : ℤ → Except Error Unit) (encode : ℤ → Except Error ℕ) (power : ℕ → ℕ) : Prop where
  add (a b : ℕ) : ops.add (ciphertext a) (ciphertext b) = do
    ops.check (ciphertext a)
    ops.check (ciphertext b)
    return ciphertext (m.mul a b)
  sub (a b : ℕ) : ops.sub (ciphertext a) (ciphertext b) = do
    ops.check (ciphertext b)
    let inverse ← m.inv b
    ops.check (ciphertext a)
    return ciphertext (m.mul a inverse)
  negate (a : ℕ) : ops.negate (ciphertext a) = do
    ops.check (ciphertext a)
    let inverse ← m.inv a
    return ciphertext inverse
  addPlain (a : ℕ) (k : ℤ) : ops.addPlain (ciphertext a) k = do
    ops.check (ciphertext a)
    checkPlaintext k
    let x ← encode k
    return ciphertext (m.mul a x)
  mul (a : ℕ) (k : ℤ) : ops.mul (ciphertext a) k = do
    ops.check (ciphertext a)
    checkPlaintext k
    let x ← m.pow a k
    return ciphertext x
  blind (a r : ℕ) : ops.blind (ciphertext a) r = do
    ops.check (ciphertext a)
    return ciphertext (m.mul a (power r))

/-- How the operations end on any numbers taken as ciphertexts, with any plaintexts and scalars. -/
structure RefusesJust (ops : Operations κ) (ciphertext : ℕ → κ) (modulus n bound : ℕ) : Prop where
  add (a b : ℕ) : EndsBy (ops.add (ciphertext a) (ciphertext b))
    ((0 < a ∧ a < modulus) ∧ 0 < b ∧ b < modulus) False
  randomize (a : ℕ) (e : Entropy) : EndsBy ((ops.randomize (ciphertext a)).outcome e).1
    (0 < a ∧ a < modulus) False
  addPlain (a : ℕ) (k : ℤ) : EndsBy (ops.addPlain (ciphertext a) k)
    ((0 < a ∧ a < modulus) ∧ k.natAbs ≤ bound) False
  subPlain (a : ℕ) (k : ℤ) : EndsBy (ops.subPlain (ciphertext a) k)
    ((0 < a ∧ a < modulus) ∧ k.natAbs ≤ bound) False
  negate (a : ℕ) : EndsBy (ops.negate (ciphertext a))
    ((0 < a ∧ a < modulus) ∧ Nat.gcd a n = 1) ((0 < a ∧ a < modulus) ∧ Nat.gcd a n ≠ 1)
  sub (a b : ℕ) : EndsBy (ops.sub (ciphertext a) (ciphertext b))
    ((0 < a ∧ a < modulus) ∧ (0 < b ∧ b < modulus) ∧ Nat.gcd b n = 1)
    ((0 < b ∧ b < modulus) ∧ Nat.gcd b n ≠ 1)
  mul (a : ℕ) (k : ℤ) : EndsBy (ops.mul (ciphertext a) k)
    ((0 < a ∧ a < modulus) ∧ k.natAbs ≤ bound ∧ (0 ≤ k ∨ Nat.gcd a n = 1))
    ((0 < a ∧ a < modulus) ∧ k.natAbs ≤ bound ∧ k < 0 ∧ Nat.gcd a n ≠ 1)

theorem IsArithmetic.refusesJust {ops : Operations κ} {ciphertext : ℕ → κ} {m : Modulus}
    {checkPlaintext : ℤ → Except Error Unit} {encode : ℤ → Except Error ℕ} {power : ℕ → ℕ} {n bound : ℕ}
    (h : ops.IsArithmetic ciphertext m checkPlaintext encode power)
    (hcoprime : ∀ a, Nat.Coprime a m.value ↔ Nat.Coprime a n)
    (hdraw : ∀ e, ∃ r e', ops.draw.outcome e = (.ok r, e'))
    (hcheck : ∀ a, EndsBy (ops.check (ciphertext a)) (0 < a ∧ a < m.value) False)
    (hplain : ∀ k, EndsBy (checkPlaintext k) (k.natAbs ≤ bound) False)
    (hencode : ∀ k, ∃ x, encode k = .ok x) :
    ops.RefusesJust ciphertext m.value n bound := by
  have hunit (a : ℕ) : EndsBy (m.inv a) (Nat.gcd a n = 1) (Nat.gcd a n ≠ 1) :=
    (m.endsBy_inv a).congr (hcoprime a) (hcoprime a).not
  have hpow (a : ℕ) (k : ℤ) : EndsBy (m.pow a k) (0 ≤ k ∨ Nat.gcd a n = 1) (k < 0 ∧ Nat.gcd a n ≠ 1) :=
    (m.endsBy_pow a k).congr (or_congr_right (hcoprime a)) (and_congr_right fun _ => (hcoprime a).not)
  have haddPlain (a : ℕ) (k : ℤ) : EndsBy (ops.addPlain (ciphertext a) k)
      ((0 < a ∧ a < m.value) ∧ k.natAbs ≤ bound) False := by
    obtain ⟨x, hx⟩ := hencode k
    rw [h.addPlain, hx]
    exact ((hcheck a).guard ((hplain k).guard (.pure _))).congr (by simp) (by simp)
  constructor
  case add =>
    intro a b
    rw [h.add]
    exact ((hcheck a).guard ((hcheck b).guard (.pure _))).congr (by simp) (by simp)
  case randomize =>
    intro a e
    have hblind : EndsBy ((ops.draw >>= fun r => liftM (ops.blind (ciphertext a) r)).outcome e).1
        (0 < a ∧ a < m.value) False := by
      obtain ⟨r, e', hr⟩ := hdraw e
      rw [Draw.outcome_bind_of_ok _ hr, Draw.outcome_lift, h.blind]
      exact (hcheck a).map _
    exact ((hcheck a).outcome_lift_bind fun _ => hblind).congr (and_self_iff) (by simp)
  case addPlain => exact haddPlain
  case subPlain =>
    intro a k
    rw [subPlain, ← Int.natAbs_neg]
    exact haddPlain a (-k)
  case negate =>
    intro a
    rw [h.negate]
    exact (hcheck a).guard ((hunit a).map _)
  case sub =>
    intro a b
    rw [h.sub]
    have hthen := (hunit b).bind fun x => (hcheck a).guard (EndsBy.pure (ciphertext (m.mul a x)))
    exact ((hcheck b).guard hthen).congr (by tauto) (by tauto)
  case mul =>
    intro a k
    rw [h.mul]
    exact (hcheck a).guard ((hplain k).guard ((hpow a k).map _))

end Operations

namespace Paillier.PublicKey

variable (pk : PublicKey)

theorem isArithmetic : pk.operations.IsArithmetic Ciphertext.mk pk.n.square pk.checkPlaintext
    (fun k => .ok (pk.encode k)) pk.powers.pow := by
  constructor <;> intros <;> rfl

theorem refusesJust :
    pk.operations.RefusesJust Ciphertext.mk pk.n.square.value pk.n.value pk.bound := by
  apply pk.isArithmetic.refusesJust
  · intro a
    rw [Modulus.square_value, ← sq]
    exact Nat.coprime_pow_right_iff two_pos a pk.n.value
  · intro e
    exact ⟨_, _, Entropy.outcome_bits _ e⟩
  · intro a
    exact (EndsBy.ite _).congr (pk.n.square.contains_iff a) Iff.rfl
  · intro k
    exact EndsBy.ite _
  · intro k
    exact ⟨_, rfl⟩

end Paillier.PublicKey

namespace OkamotoUchiyama.PublicKey

variable (pk : PublicKey)

theorem isArithmetic : pk.operations.IsArithmetic Ciphertext.mk pk.n pk.checkPlaintext pk.encode
    pk.hPowers.pow := by
  constructor <;> intros <;> rfl

theorem refusesJust :
    pk.operations.RefusesJust Ciphertext.mk pk.n.value pk.n.value pk.bound := by
  apply pk.isArithmetic.refusesJust fun _ => Iff.rfl
  · intro e
    exact ⟨_, _, Entropy.outcome_bits _ e⟩
  · intro a
    exact (EndsBy.ite _).congr (pk.n.contains_iff a) Iff.rfl
  · intro k
    exact EndsBy.ite _
  · intro k
    obtain ⟨x, hx, -⟩ := pk.exists_encode k
    exact ⟨x, hx⟩

end OkamotoUchiyama.PublicKey

theorem evaluator_refuses_just :
    (∀ {n hs : ℕ} {pk : Paillier.PublicKey}, Paillier.PublicKey.ofParts n hs = .ok pk →
      pk.operations.RefusesJust Paillier.Ciphertext.mk (n ^ 2) n (n / 2)) ∧
    ∀ {n g h : ℕ} {pk : OkamotoUchiyama.PublicKey}, OkamotoUchiyama.PublicKey.ofParts n g h = .ok pk →
      pk.operations.RefusesJust OkamotoUchiyama.Ciphertext.mk n n (OkamotoUchiyama.boundFor n) := by
  constructor
  · intro n hs pk hpk
    obtain ⟨rfl, -⟩ := Paillier.PublicKey.ofParts_eq_ok hpk
    rw [sq]
    exact pk.refusesJust
  · intro n g h pk hpk
    obtain ⟨rfl, -, -⟩ := OkamotoUchiyama.PublicKey.ofParts_eq_ok hpk
    exact pk.refusesJust

theorem evaluator_refuses_just_seven_mersenne :
    ∃ n pk pk', n = 7 * mersenne 521 ∧ Paillier.PublicKey.ofParts n 2 = .ok pk ∧
      OkamotoUchiyama.PublicKey.ofParts n 2 2 = .ok pk' ∧
      (∃ value modulus, pk.operations.negate ⟨7⟩ = .error (.noInverse value modulus)) ∧
      (∃ c, pk.operations.mul ⟨7⟩ 3 = .ok c) ∧
      (∃ value modulus, pk'.operations.sub ⟨0⟩ ⟨7⟩ = .error (.noInverse value modulus)) ∧
      ∃ fault, pk'.operations.mul ⟨7⟩ (-(n : ℤ)) = .error (.domain fault) := by
  obtain ⟨n, pk, hn, hpk, hvalue, hlarge, htwo, -⟩ := Paillier.PublicKey.exists_ofParts_seven_mersenne
  obtain ⟨pk', hpk'⟩ := OkamotoUchiyama.PublicKey.exists_ofParts (hvalue ▸ pk.odd) (hvalue ▸ pk.size)
    (by omega) htwo (by omega) htwo
  have hgcd : Nat.gcd 7 n ≠ 1 := by
    rw [hn, Nat.gcd_mul_right_right]
    decide
  have hseven : 0 < 7 ∧ 7 < n := ⟨by decide, by rw [hn]; decide +kernel⟩
  have hsquare : n ≤ n ^ 2 := Nat.le_self_pow two_ne_zero n
  have hbound : OkamotoUchiyama.boundFor n < n := by rw [hn]; decide +kernel
  have hpaillier := evaluator_refuses_just.1 hpk
  have hou := evaluator_refuses_just.2 hpk'
  refine ⟨n, pk, pk', hn, hpk, hpk', ?_, ?_, ?_, ?_⟩
  · exact (hpaillier.negate 7).noInverse_iff.mpr ⟨⟨hseven.1, by omega⟩, hgcd⟩
  · exact (hpaillier.mul 7 3).ok_iff.mpr ⟨⟨hseven.1, by omega⟩, by omega, .inl (by decide)⟩
  · exact (hou.sub 0 7).noInverse_iff.mpr ⟨hseven, hgcd⟩
  · refine (hou.mul 7 (-(n : ℤ))).domain_iff.mpr ⟨?_, ?_⟩ <;> omega

end Homomorphic
