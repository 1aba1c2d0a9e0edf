import Homomorphic.Proofs.Paillier.Group
import Homomorphic.Proofs.Paillier.Power

namespace Homomorphic.Paillier

theorem PublicKey.realizes_carrier (pk : PublicKey) {lambda : ℕ}
    (hblind : (pk.hs : ZMod (pk.n.value * pk.n.value)) ^ lambda = 1) :
    pk.operations.Realizes pk.bound
      (fun c v => Carrier pk.n.square pk.n.value lambda lambda c.value v) 1 0 := by
  have hdvd : pk.n.value * pk.n.value ∣ pk.n.square.value := dvd_refl _
  have hplain : (pk.plain, 1) ∈ carried hdvd lambda lambda := by
    apply (mem_carried hdvd (pk.standsFor_plain).cast).mpr
    rw [Carries, pk.cast_encode, principalUnit_pow]
  have hblinding : (pk.blinding, 0) ∈ carried hdvd lambda lambda :=
    (mem_carried hdvd rfl).mpr (.zero lambda hblind)
  exact (pk.realizes.transfer _ hplain hblinding).congr fun c v => Carrier.iff_standsFor hdvd

theorem decrypt_of_carrier {sk : SecretKey} (h : sk.Sound) {c : Ciphertext} {v : ℤ}
    (hc : Carrier sk.n.square sk.n.value sk.lambda sk.lambda c.value v) :
    ∃ m, sk.decrypt c = .ok m ∧ IsOnlyIn (symmetricRange sk.n.value) sk.n.value v m := by
  rw [SecretKey.decrypt, if_pos hc.contains]
  refine ⟨_, rfl, isOnlyIn_decode sk.n sk.lambda (sk.powSquare_lt _ _) ?_ ?_⟩
  · rw [SecretKey.powSquare_lambda h, ZMod.natCast_mod, Nat.cast_pow]
    exact hc.carries
  · exact_mod_cast Int.natCast_modEq_iff.mpr h.lambda_mul_mu_modEq

theorem pow_lambda_of_residue {sk : SecretKey} (h : sk.Sound) {a : ℕ}
    (ha : Nat.Coprime a sk.n.value) :
    ((a ^ sk.n.value % sk.n.value ^ 2 : ℕ) : ZMod (sk.n.value * sk.n.value)) ^ sk.lambda = 1 := by
  have hone := SecretKey.pow_mul_lambda h ha
  rw [← ZMod.natCast_eq_natCast_iff, Nat.cast_pow, pow_mul, Nat.cast_one] at hone
  rw [sq, ZMod.natCast_mod, Nat.cast_pow, hone]

theorem computes {test : ℕ → Bool} (exact : ExactTest test) {p q lambda mu h hs : ℕ} {sk : SecretKey}
    {pk : PublicKey} (hsk : SecretKey.ofParts test p q lambda mu = .ok sk)
    (hpk : PublicKey.ofParts (p * q) hs = .ok pk) (hh : Nat.Coprime h (p * q))
    (hhs : hs = h ^ (p * q) % (p * q) ^ 2) :
    pk.operations.Computes pk.bound fun c v =>
      ∃ m, sk.decrypt c = .ok m ∧ IsOnlyIn (symmetricRange sk.n.value) sk.n.value v m := by
  obtain ⟨rfl, rfl, -, -, hsound, -⟩ := SecretKey.ofParts_eq_ok exact hsk
  obtain ⟨hn, hkey⟩ := PublicKey.ofParts_eq_ok hpk
  have hmodulus : pk.n = sk.n := Modulus.ext hn
  have hblind : (pk.hs : ZMod (pk.n.value * pk.n.value)) ^ sk.lambda = 1 := by
    rw [hmodulus, hkey, hhs]
    exact pow_lambda_of_residue hsound hh
  refine ⟨_, pk.realizes_carrier hblind, fun c v hc => ?_⟩
  rw [hmodulus] at hc
  exact decrypt_of_carrier hsound hc

theorem decrypt_run_mod_n {test : ℕ → Bool} (exact : ExactTest test) {p q lambda mu h hs : ℕ}
    {sk : SecretKey} {pk : PublicKey} (hsk : SecretKey.ofParts test p q lambda mu = .ok sk)
    (hpk : PublicKey.ofParts (p * q) hs = .ok pk) (hh : Nat.Coprime h (p * q))
    (hhs : hs = h ^ (p * q) % (p * q) ^ 2) (steps : List Step) (e : Entropy) :
    let n : ℤ := p * q
    let s := Store.after pk.operations Store.empty steps e
    Store.Tracks
        (fun c v => ∃ m, sk.decrypt c = .ok m ∧
          IsOnlyIn (Set.Icc (-((n - 1) / 2)) ((n - 1) / 2)) (p * q) v m)
        s (Store.plainRun (p * q / 2) steps) ∧
      ∀ (next : Step) (e' : Entropy),
        Store.Ends (p * q / 2) s next (s.step pk.operations next e').1 := by
  obtain ⟨R, hR, hdecrypt⟩ := computes exact hsk hpk hh hhs
  obtain ⟨rfl, rfl, -⟩ := SecretKey.ofParts_eq_ok exact hsk
  obtain ⟨hn, -⟩ := PublicKey.ofParts_eq_ok hpk
  have hrun := hR.simulates.run_empty steps e
  rw [PublicKey.bound, Modulus.half, hn] at hrun
  refine ⟨hrun.1.mono fun c v hc => ?_, hrun.2⟩
  have hodd : sk.n.value % 2 = 1 := (Modulus.ext hn : pk.n = sk.n) ▸ pk.odd
  obtain ⟨m, hm, honly⟩ := hdecrypt c v hc
  rw [symmetricRange_of_odd hodd] at honly
  refine ⟨m, hm, ?_⟩
  rwa [SecretKey.n_value, Nat.cast_mul] at honly

theorem decrypt_run_double_half :
    ∃ sk pk c, SecretKey.ofParts (fun n => decide n.Prime) 7 (mersenne 521) (mersenne 521 - 1)
        (4 * mersenne 521 - 1) = .ok sk ∧
      PublicKey.ofParts (7 * mersenne 521)
        (2 ^ (7 * mersenne 521) % (7 * mersenne 521) ^ 2) = .ok pk ∧
      Nat.Coprime 2 (7 * mersenne 521) ∧
      (Store.after pk.operations Store.empty
        [⟨"a", .encryptWith (7 * mersenne 521 / 2 : ℕ) 5⟩, ⟨"b", .add "a" "a"⟩]
        (Entropy.ofBytes [])).find? "b" = some c ∧
      sk.decrypt c = .ok (-1) := by
  have hsize : Limits.minKeySize ≤ bitLength (7 * mersenne 521) :=
    lt_bitLength.mpr (by decide +kernel)
  have hne : 7 ≠ mersenne 521 := by decide +kernel
  have hlambda : mersenne 521 - 1 = Nat.lcm (7 - 1) (mersenne 521 - 1) := by decide +kernel
  have hmu : (mersenne 521 - 1) * (4 * mersenne 521 - 1) ≡ 1 [MOD 7 * mersenne 521] := by
    decide +kernel
  have hcoprime : Nat.Coprime 2 (7 * mersenne 521) := by decide +kernel
  have hodd : mersenne 521 % 2 = 1 := by decide +kernel
  have hprime := prime_mersenne_521
  -- From here on the size of the prime plays no part.
  generalize mersenne 521 = q at *
  have hparts : SecretKey.SoundParts 7 q (q - 1) (4 * q - 1) :=
    ⟨by norm_num, hprime, hne, hsize, hlambda, hmu⟩
  obtain ⟨sk, hsk, -⟩ := hparts.exists_ofParts exactTest_decide
  obtain ⟨pk, hpk, -⟩ := PublicKey.exists_ofParts_residue (by omega) hsize hcoprime
  have hplain : (Store.plainRun (7 * q / 2)
      [⟨"a", .encryptWith (7 * q / 2 : ℕ) 5⟩, ⟨"b", .add "a" "a"⟩]).find? "b" =
        some (((7 * q / 2 : ℕ) : ℤ) + (7 * q / 2 : ℕ)) := by
    generalize 7 * q / 2 = bound
    simp [Store.plainRun, Store.plainStep, Operation.magnitude, Operation.mapM?, Store.find?_insert,
      Operation.value]
  obtain ⟨c, hc, m, hm, honly⟩ := (decrypt_run_mod_n exactTest_decide hsk hpk hcoprime rfl
    [⟨"a", .encryptWith (7 * q / 2 : ℕ) 5⟩, ⟨"b", .add "a" "a"⟩]
    (Entropy.ofBytes [])).1.exists_of_find? hplain
  have hone : (-1 : ℤ) = m := by
    apply (honly (-1)).mp
    constructor
    · rw [Set.mem_Icc]
      push_cast
      omega
    · apply Int.modEq_iff_dvd.mpr
      refine ⟨1, ?_⟩
      push_cast
      omega
  exact ⟨sk, pk, c, hsk, hpk, hcoprime, hc, hone ▸ hm⟩

end Homomorphic.Paillier
