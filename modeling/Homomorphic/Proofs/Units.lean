import Homomorphic.Proofs.OkamotoUchiyama.Decryption
import Homomorphic.Proofs.Paillier.Decryption

namespace Homomorphic

def IsUnitBelow (modulus n a : ℕ) : Prop := 0 < a ∧ a < modulus ∧ Nat.Coprime a n

/-- In every run the stored ciphertexts are units below the modulus, and a step fails only at an
integer beyond the bound, with the one fault that tells so. -/
def Operations.KeepsUnits {κ : Type} (ops : Operations κ) (value : κ → ℕ) (modulus n bound : ℕ)
    (fault : DomainFault) : Prop :=
  ∀ (steps : List Step) (e : Entropy),
    let s := Store.after ops Store.empty steps e
    (∀ name c, s.find? name = some c → IsUnitBelow modulus n (value c)) ∧
      ∀ (next : Step) (e' : Entropy),
        let result := (s.step ops next e').1
        Store.Ends bound s next result ∧ ∀ error, result.2 = .failed error → error = .domain fault

theorem Modulus.StandsFor.isUnitBelow {m : Modulus} {a d : ℕ} {u : UnitGroup m.value}
    (h : m.StandsFor a u) (hd : d ∣ m.value) : IsUnitBelow m.value d a := by
  obtain ⟨hpos, hlt⟩ := (m.contains_iff a).mp h.contains
  exact ⟨hpos, hlt, ((ZMod.isUnit_iff_coprime _ _).mp h.isUnit).coprime_dvd_right hd⟩

theorem Modulus.contains_of_isUnitBelow {m : Modulus} {d a : ℕ} (h : IsUnitBelow m.value d a) :
    m.contains a = true := (m.contains_iff a).mpr ⟨h.1, h.2.1⟩

namespace Paillier.PublicKey

variable (pk : PublicKey)

theorem refuses :
    pk.operations.Refuses pk.bound
      (fun c => IsUnitBelow pk.n.square.value pk.n.value c.value)
      (fun error => error = .domain (.beyondHalfModulus pk.keySize)) where
  draw e := ⟨_, _, Entropy.outcome_bits _ e⟩
  encryptWith hm r := ⟨_, pk.encryptWith_of_lt hm r, rfl⟩
  addPlain ha _ hm := ⟨_, pk.addPlain_of_lt (Modulus.contains_of_isUnitBelow ha) hm, rfl⟩
  mul ha _ hk := ⟨_, pk.mul_of_lt (Modulus.contains_of_isUnitBelow ha) hk, rfl⟩

theorem keepsUnits :
    pk.operations.KeepsUnits Ciphertext.value pk.n.square.value pk.n.value pk.bound
      (.beyondHalfModulus pk.keySize) := by
  apply pk.realizes.simulates_any.run_refuses pk.refuses
  rintro c - ⟨u, hu⟩
  exact hu.isUnitBelow (Nat.dvd_mul_right _ _)

end Paillier.PublicKey

namespace OkamotoUchiyama.PublicKey

variable (pk : PublicKey)

theorem refuses :
    pk.operations.Refuses pk.bound (fun c => IsUnitBelow pk.n.value pk.n.value c.value)
      (fun error => error = .domain (.beyondBits (bitLength pk.bound))) where
  draw e := ⟨_, _, Entropy.outcome_bits _ e⟩
  encryptWith hm r := ⟨_, pk.encryptWith_of_lt hm r, rfl⟩
  addPlain ha _ hm := ⟨_, pk.addPlain_of_lt (Modulus.contains_of_isUnitBelow ha) hm, rfl⟩
  mul ha _ hk := ⟨_, pk.mul_of_lt (Modulus.contains_of_isUnitBelow ha) hk, rfl⟩

theorem keepsUnits :
    pk.operations.KeepsUnits Ciphertext.value pk.n.value pk.n.value pk.bound
      (.beyondBits (bitLength pk.bound)) := by
  apply pk.realizes.simulates_any.run_refuses pk.refuses
  rintro c - ⟨u, hu⟩
  exact hu.isUnitBelow (dvd_refl _)

end OkamotoUchiyama.PublicKey

theorem run_keeps_units :
    (∀ {n hs : ℕ} {pk : Paillier.PublicKey}, Paillier.PublicKey.ofParts n hs = .ok pk →
      pk.operations.KeepsUnits Paillier.Ciphertext.value (n ^ 2) n (n / 2)
        (.beyondHalfModulus (bitLength n))) ∧
    ∀ {n g h : ℕ} {pk : OkamotoUchiyama.PublicKey},
      OkamotoUchiyama.PublicKey.ofParts n g h = .ok pk →
      pk.operations.KeepsUnits OkamotoUchiyama.Ciphertext.value n n
        (OkamotoUchiyama.boundFor n) (.beyondBits (bitLength (OkamotoUchiyama.boundFor n))) := by
  constructor
  · intro n hs pk hpk
    obtain ⟨rfl, -⟩ := Paillier.PublicKey.ofParts_eq_ok hpk
    rw [sq]
    exact pk.keepsUnits
  · intro n g h pk hpk
    obtain ⟨rfl, -, -⟩ := OkamotoUchiyama.PublicKey.ofParts_eq_ok hpk
    exact pk.keepsUnits

theorem run_keeps_units_seven_mersenne :
    ∃ n pk pk' c, n = 7 * mersenne 521 ∧ Paillier.PublicKey.ofParts n 2 = .ok pk ∧
      OkamotoUchiyama.PublicKey.ofParts n 2 2 = .ok pk' ∧
      (Store.after pk.operations Store.empty [⟨"a", .encryptWith (-(n / 2 : ℕ)) 5⟩]
        (Entropy.ofBytes [])).find? "a" = some c ∧
      IsUnitBelow (n ^ 2) n c.value ∧
      (Store.empty.step pk'.operations ⟨"a", .encryptWith (n : ℤ) 5⟩ (Entropy.ofBytes [])).1.2 =
        .failed (.domain (.beyondBits (bitLength (OkamotoUchiyama.boundFor n)))) := by
  obtain ⟨n, hn⟩ : ∃ n, n = 7 * mersenne 521 := ⟨_, rfl⟩
  have hsize : Limits.minKeySize ≤ bitLength n := lt_bitLength.mpr (by rw [hn]; decide +kernel)
  have hodd : n % 2 = 1 := by rw [hn]; decide +kernel
  have htwo : 2 < n := by rw [hn]; decide +kernel
  have hbound : OkamotoUchiyama.boundFor n < n := by rw [hn]; decide +kernel
  have hcoprime : Nat.Coprime 2 n := Nat.coprime_two_left.mpr (Nat.odd_iff.mpr hodd)
  obtain ⟨pk, hpk, -⟩ := Paillier.PublicKey.exists_ofParts hodd hsize (by nlinarith) hcoprime
  obtain ⟨pk', hpk'⟩ :=
    OkamotoUchiyama.PublicKey.exists_ofParts hodd hsize htwo hcoprime htwo hcoprime
  obtain ⟨hends, -⟩ := (run_keeps_units.1 hpk [] (Entropy.ofBytes [])).2
    ⟨"a", .encryptWith (-(n / 2 : ℕ)) 5⟩ (Entropy.ofBytes [])
  obtain ⟨c, hstored⟩ := hends.exists_stored rfl (show (-((n / 2 : ℕ) : ℤ)).natAbs ≤ n / 2 by omega)
  obtain ⟨hends', hfault⟩ := (run_keeps_units.2 hpk' [] (Entropy.ofBytes [])).2
    ⟨"a", .encryptWith (n : ℤ) 5⟩ (Entropy.ofBytes [])
  obtain ⟨fault, hfailed⟩ := hends'.exists_failed rfl hbound
  have hc : (Store.after pk.operations Store.empty [⟨"a", .encryptWith (-(n / 2 : ℕ)) 5⟩]
      (Entropy.ofBytes [])).find? "a" = some c := by
    refine (congrArg (fun result => result.1.find? "a") hstored).trans ?_
    rw [Store.find?_insert, if_pos rfl]
  have houtcome := congrArg Prod.snd hfailed
  exact ⟨n, pk, pk', c, hn, hpk, hpk', hc, (run_keeps_units.1 hpk _ _).1 _ _ hc,
    houtcome.trans (congrArg Outcome.failed (hfault _ houtcome))⟩

end Homomorphic
