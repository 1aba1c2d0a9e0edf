import Homomorphic.Proofs.OkamotoUchiyama.Group

namespace Homomorphic.OkamotoUchiyama

theorem PublicKey.realizes_carrier (pk : PublicKey) {p exponent : ℕ} {slope : ℤ}
    (hdvd : p * p ∣ pk.n.value) (hg : Carries (n := p) exponent slope pk.g 1)
    (hh : (pk.h : ZMod (p * p)) ^ exponent = 1) :
    pk.operations.Realizes pk.bound (fun c v => Carrier pk.n p exponent slope c.value v) 1 0 := by
  have hplain : (pk.plain, 1) ∈ carried hdvd exponent slope := (mem_carried hdvd rfl).mpr hg
  have hblinding : (pk.blinding, 0) ∈ carried hdvd exponent slope :=
    (mem_carried hdvd rfl).mpr (.zero slope hh)
  exact (pk.realizes.transfer _ hplain hblinding).congr fun c v => Carrier.iff_standsFor hdvd

theorem pow_pred_of_residue {p : Modulus} (hp : p.value.Prime) {a k n : ℕ}
    (ha : Nat.Coprime a p.value) (hk : p.value ∣ k) (hn : p.value * p.value ∣ n) :
    ((a ^ k % n : ℕ) : ZMod (p.value * p.value)) ^ (p.value - 1) = 1 := by
  rw [cast_mod ((ZMod.natCast_eq_zero_iff _ _).mpr hn), Nat.cast_pow, pow_right_comm,
    pow_pred_eq_principalUnit hp ha, principalUnit_pow, ← principalUnit_zero]
  apply principalUnit_congr
  rw [Int.modEq_zero_iff_dvd]
  exact dvd_mul_of_dvd_left (Int.natCast_dvd_natCast.mpr hk) _

theorem decrypt_of_carrier {sk : SecretKey} {c : Ciphertext} {slope v : ℤ}
    (hc : Carrier sk.n sk.p.value (sk.p.value - 1) slope c.value v)
    (hinv : slope * sk.gpInv ≡ 1 [ZMOD sk.p.value]) :
    ∃ m, sk.decrypt c = .ok m ∧ IsOnlyIn (symmetricRange sk.p.value) sk.p.value v m := by
  rw [SecretKey.decrypt, if_pos hc.contains]
  refine ⟨_, rfl, ?_⟩
  have hcarries := hc.carries
  rw [Carries, ← Modulus.cast_natPow sk.p.cast_square] at hcarries
  exact isOnlyIn_decode sk.p slope (sk.p.square.natPow_lt _ _) hcarries hinv

theorem computes {test : ℕ → Bool} (exact : ExactTest test) {p q gpInv g h : ℕ} {sk : SecretKey}
    {pk : PublicKey} (hsk : SecretKey.ofParts test p q gpInv = .ok sk)
    (hpk : PublicKey.ofParts (p ^ 2 * q) g h = .ok pk)
    (hinv : logarithm sk.p g * gpInv % p = 1) (hh : h = g ^ (p ^ 2 * q) % (p ^ 2 * q)) :
    pk.operations.Computes pk.bound fun c v =>
      ∃ m, sk.decrypt c = .ok m ∧ IsOnlyIn (symmetricRange sk.p.value) sk.p.value v m := by
  obtain ⟨rfl, rfl, rfl, hprime, -, -⟩ := SecretKey.ofParts_eq_ok exact hsk
  obtain ⟨hn, hkeyG, hkeyH⟩ := PublicKey.ofParts_eq_ok hpk
  have hmodulus : pk.n = sk.n := Modulus.ext (by rw [hn, SecretKey.n_value, sq])
  have hdvd : sk.p.value * sk.p.value ∣ pk.n.value := by
    rw [hn, sq]
    exact Nat.dvd_mul_right _ _
  have hcoprime : Nat.Coprime g sk.p.value :=
    (hkeyG ▸ pk.unitG.2 : Nat.Coprime g pk.n.value).coprime_dvd_right
      ((Nat.dvd_mul_right _ _).trans hdvd)
  have hg : Carries (n := sk.p.value) (sk.p.value - 1) (logarithm sk.p g) pk.g 1 := by
    rw [Carries, hkeyG, pow_pred_eq_principalUnit hprime hcoprime, mul_one]
  have hblind : (pk.h : ZMod (sk.p.value * sk.p.value)) ^ (sk.p.value - 1) = 1 := by
    rw [hkeyH, hh, ← hn]
    exact pow_pred_of_residue hprime hcoprime ((Nat.dvd_mul_right _ _).trans hdvd) hdvd
  have hslope : (logarithm sk.p g : ℤ) * sk.gpInv ≡ 1 [ZMOD sk.p.value] := by
    have hmod : logarithm sk.p g * sk.gpInv ≡ 1 [MOD sk.p.value] := by
      rw [Nat.ModEq, hinv, Nat.mod_eq_of_lt sk.p.one_lt]
    exact_mod_cast Int.natCast_modEq_iff.mpr hmod
  exact ⟨_, pk.realizes_carrier hdvd hg hblind, fun c v hc =>
    decrypt_of_carrier (hmodulus ▸ hc) hslope⟩

theorem decrypt_run_mod_p {test : ℕ → Bool} (exact : ExactTest test) {p q gpInv g h : ℕ}
    {sk : SecretKey} {pk : PublicKey} (hsk : SecretKey.ofParts test p q gpInv = .ok sk)
    (hpk : PublicKey.ofParts (p ^ 2 * q) g h = .ok pk)
    (hinv : logarithm sk.p g * gpInv % p = 1) (hh : h = g ^ (p ^ 2 * q) % (p ^ 2 * q))
    (steps : List Step) (e : Entropy) :
    let bound := boundFor (p ^ 2 * q)
    let s := Store.after pk.operations Store.empty steps e
    Store.Tracks
        (fun c v => ∃ m, sk.decrypt c = .ok m ∧ IsOnlyIn {x | -(p : ℤ) < 2 * x ∧ 2 * x ≤ p} p v m)
        s (Store.plainRun bound steps) ∧
      (∀ (next : Step) (e' : Entropy),
        Store.Ends bound s next (s.step pk.operations next e').1) ∧
      (2 * bound < p → ∀ (m : ℤ) (r : ℕ), m.natAbs ≤ bound →
        ∃ c, pk.encryptWith m r = .ok c ∧ sk.decrypt c = .ok m) := by
  intro bound s
  obtain ⟨R, hR, hdecrypt⟩ := computes exact hsk hpk hinv hh
  obtain ⟨rfl, -⟩ := SecretKey.ofParts_eq_ok exact hsk
  obtain ⟨hn, -⟩ := PublicKey.ofParts_eq_ok hpk
  have hsimulates := hR.simulates
  rw [PublicKey.bound, hn] at hsimulates
  obtain ⟨htracks, hends⟩ := hsimulates.run_empty steps e
  refine ⟨htracks.mono fun c v hc => hdecrypt c v hc, hends, fun hbound m r hm => ?_⟩
  obtain ⟨c, hencrypt, hc⟩ := hsimulates.encryptWith hm r
  obtain ⟨v, hv, honly⟩ := hdecrypt c m hc
  have hvalue : v = m := honly.eq_of_natAbs (by omega)
  exact ⟨c, hencrypt, hvalue ▸ hv⟩

theorem decrypt_run_square_bound :
    ∃ p sk pk c d, p = mersenne 521 ∧
      SecretKey.ofParts (fun n => decide n.Prime) p 7 (p - 1) = .ok sk ∧
      PublicKey.ofParts (p ^ 2 * 7) (1 + p) ((1 + p) ^ (p ^ 2 * 7) % (p ^ 2 * 7)) = .ok pk ∧
      logarithm sk.p (1 + p) * (p - 1) % p = 1 ∧
      (Store.after pk.operations Store.empty
        [⟨"a", .encryptWith (-boundFor (p ^ 2 * 7)) 5⟩, ⟨"b", .mul "a" (boundFor (p ^ 2 * 7))⟩]
        (Entropy.ofBytes [])).find? "b" = some c ∧
      sk.decrypt c = .ok (-2 ^ 173) ∧ pk.encryptWith (-boundFor (p ^ 2 * 7)) 3 = .ok d ∧
      sk.decrypt d = .ok (-boundFor (p ^ 2 * 7)) := by
  obtain ⟨p, hp⟩ : ∃ p, p = mersenne 521 := ⟨_, rfl⟩
  have hlarge : 2 * 2 ^ 173 < p := by rw [hp]; decide +kernel
  have hodd : p % 2 = 1 := by rw [hp]; decide +kernel
  have hseven : Nat.Coprime (1 + p) 7 := by rw [hp]; decide +kernel
  have hsize : Limits.minKeySize ≤ bitLength (p ^ 2 * 7) :=
    lt_bitLength.mpr (by rw [hp]; decide +kernel)
  have hbound : 2 * boundFor (p ^ 2 * 7) < p := by rw [hp]; decide +kernel
  have hwrap : boundFor (p ^ 2 * 7) * boundFor (p ^ 2 * 7) ≡ 2 ^ 173 [MOD p] := by
    rw [hp]
    decide +kernel
  have hprime : p.Prime := hp ▸ prime_mersenne_521
  have hone := hprime.one_lt
  have hcoprime : Nat.Coprime (1 + p) (p ^ 2 * 7) :=
    (Nat.Coprime.pow_right 2 (by simp)).mul_right hseven
  have hlt : 1 + p < p ^ 2 * 7 := by nlinarith
  have hsquare : (p - 1) * (p - 1) % p = 1 := by
    obtain ⟨k, rfl⟩ := Nat.exists_eq_add_of_le' hone
    rw [show k + 2 - 1 = k + 1 by omega, show (k + 1) * (k + 1) = 1 + (k + 2) * k by ring,
      Nat.add_mul_mod_self_left, Nat.mod_eq_of_lt hone]
  have hsk := SecretKey.ofParts_of_prime exactTest_decide hprime (by norm_num : Nat.Prime 7)
    (by omega) (by rwa [← sq]) (by omega : 0 < p - 1) (by omega)
  obtain ⟨pk, hpk⟩ := PublicKey.exists_ofParts (h := (1 + p) ^ (p ^ 2 * 7) % (p ^ 2 * 7))
    (Nat.odd_iff.mp ((Nat.odd_iff.mpr hodd).pow.mul (by decide))) hsize hlt hcoprime
    (Nat.mod_lt _ (by omega)) ((ZMod.coprime_mod_iff_coprime _ _).mpr (hcoprime.pow_left _))
  have hinv : logarithm ⟨p, hprime.one_lt⟩ (1 + p) * (p - 1) % p = 1 := by
    rw [logarithm_one_add, hsquare]
  have hplain : (Store.plainRun (boundFor (p ^ 2 * 7))
      [⟨"a", .encryptWith (-(boundFor (p ^ 2 * 7))) 5⟩, ⟨"b", .mul "a" (boundFor (p ^ 2 * 7))⟩]).find?
        "b" = some ((boundFor (p ^ 2 * 7) : ℤ) * -(boundFor (p ^ 2 * 7))) := by
    generalize boundFor (p ^ 2 * 7) = bound
    simp [Store.plainRun, Store.plainStep, Operation.magnitude, Operation.mapM?, Store.find?_insert,
      Operation.value]
  obtain ⟨hrun, -, hround⟩ := decrypt_run_mod_p exactTest_decide hsk hpk hinv rfl
    [⟨"a", .encryptWith (-(boundFor (p ^ 2 * 7))) 5⟩, ⟨"b", .mul "a" (boundFor (p ^ 2 * 7))⟩]
    (Entropy.ofBytes [])
  obtain ⟨c, hc, m, hm, honly⟩ := hrun.exists_of_find? hplain
  obtain ⟨d, hd, hdm⟩ := hround hbound (-(boundFor (p ^ 2 * 7))) 3 (by simp)
  have hcongr : (boundFor (p ^ 2 * 7) : ℤ) * -(boundFor (p ^ 2 * 7)) ≡ -2 ^ 173 [ZMOD p] := by
    rw [mul_neg]
    exact_mod_cast (Int.natCast_modEq_iff.mpr hwrap).neg
  have hvalue : m = -2 ^ 173 := (honly.congr hcongr).eq_of_natAbs (by
    rwa [Int.natAbs_neg, Int.natAbs_pow])
  exact ⟨p, _, pk, c, d, hp, hsk, hpk, hinv, hc, hvalue ▸ hm, hd, hdm⟩

end Homomorphic.OkamotoUchiyama
