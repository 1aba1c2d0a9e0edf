import Homomorphic.Proofs.Runs

/-!
Operations on ciphertexts that carry out those of a commutative group. Encrypting adds the multiples of
two elements, by the plaintext and by the randomness. What the elements stand for under any linear
relation is computed with them, and so are the integers that decryption finds.
-/

namespace Homomorphic

variable {κ τ M N : Type} [AddCommGroup M] [AddCommGroup N]

/-- On ciphertexts that are related to elements of a group the operations give ciphertexts that are
related to what the same operations give on the elements; integers beyond the bound are refused. -/
structure Operations.Realizes (ops : Operations κ) (bound : ℕ) (R : κ → M → Prop)
    (plain blinding : M) : Prop where
  draw (e : Entropy) : ∃ r e', ops.draw.outcome e = (.ok r, e')
  check {a u} (ha : R a u) : ops.check a = .ok ()
  encryptWith {m : ℤ} (hm : m.natAbs ≤ bound) (r : ℕ) :
    ∃ c, ops.encryptWith m r = .ok c ∧ R c (m • plain + r • blinding)
  encryptWith_beyond {m : ℤ} (hm : bound < m.natAbs) (r : ℕ) :
    ∃ fault, ops.encryptWith m r = .error (.domain fault)
  add {a b u w} (ha : R a u) (hb : R b w) : ∃ c, ops.add a b = .ok c ∧ R c (u + w)
  sub {a b u w} (ha : R a u) (hb : R b w) : ∃ c, ops.sub a b = .ok c ∧ R c (u - w)
  negate {a u} (ha : R a u) : ∃ c, ops.negate a = .ok c ∧ R c (-u)
  addPlain {a u} {m : ℤ} (ha : R a u) (hm : m.natAbs ≤ bound) :
    ∃ c, ops.addPlain a m = .ok c ∧ R c (u + m • plain)
  addPlain_beyond {a u} {m : ℤ} (ha : R a u) (hm : bound < m.natAbs) :
    ∃ fault, ops.addPlain a m = .error (.domain fault)
  mul {a u} {k : ℤ} (ha : R a u) (hk : k.natAbs ≤ bound) : ∃ c, ops.mul a k = .ok c ∧ R c (k • u)
  mul_beyond {a u} {k : ℤ} (ha : R a u) (hk : bound < k.natAbs) :
    ∃ fault, ops.mul a k = .error (.domain fault)
  blind {a u} (ha : R a u) (r : ℕ) : ∃ c, ops.blind a r = .ok c ∧ R c (u + r • blinding)

namespace Operations

variable {ops : Operations κ} {bound : ℕ} {R : κ → M → Prop} {plain blinding : M}

namespace Realizes

theorem congr {R' : κ → M → Prop} (h : ops.Realizes bound R plain blinding)
    (hR : ∀ c u, R c u ↔ R' c u) : ops.Realizes bound R' plain blinding := by
  rwa [← funext fun c => funext fun u => propext (hR c u)]

theorem simulates {R : κ → ℤ → Prop} (h : ops.Realizes bound R 1 0) : ops.Simulates bound R where
  draw := h.draw
  check := h.check
  encryptWith hm r := by simpa using h.encryptWith hm r
  encryptWith_beyond := h.encryptWith_beyond
  add := h.add
  sub := h.sub
  negate := h.negate
  addPlain ha hm := by simpa using h.addPlain ha hm
  addPlain_beyond := h.addPlain_beyond
  mul := h.mul
  mul_beyond := h.mul_beyond
  blind ha r := by simpa using h.blind ha r

theorem transfer (h : ops.Realizes bound R plain blinding) (S : AddSubgroup (M × N)) {plain' blinding' : N}
    (hplain : (plain, plain') ∈ S) (hblinding : (blinding, blinding') ∈ S) :
    ops.Realizes bound (fun c v => ∃ u, R c u ∧ (u, v) ∈ S) plain' blinding' where
  draw := h.draw
  check := by
    rintro a v ⟨u, ha, -⟩
    exact h.check ha
  encryptWith hm r := by
    obtain ⟨c, hc, hR⟩ := h.encryptWith hm r
    exact ⟨c, hc, _, hR, S.add_mem (S.zsmul_mem hplain _) (S.nsmul_mem hblinding r)⟩
  encryptWith_beyond := h.encryptWith_beyond
  add := by
    rintro a b v w ⟨u, ha, hu⟩ ⟨u', hb, hu'⟩
    obtain ⟨c, hc, hR⟩ := h.add ha hb
    exact ⟨c, hc, _, hR, S.add_mem hu hu'⟩
  sub := by
    rintro a b v w ⟨u, ha, hu⟩ ⟨u', hb, hu'⟩
    obtain ⟨c, hc, hR⟩ := h.sub ha hb
    exact ⟨c, hc, _, hR, S.sub_mem hu hu'⟩
  negate := by
    rintro a v ⟨u, ha, hu⟩
    obtain ⟨c, hc, hR⟩ := h.negate ha
    exact ⟨c, hc, _, hR, S.neg_mem hu⟩
  addPlain := by
    rintro a v m ⟨u, ha, hu⟩ hm
    obtain ⟨c, hc, hR⟩ := h.addPlain ha hm
    exact ⟨c, hc, _, hR, S.add_mem hu (S.zsmul_mem hplain m)⟩
  addPlain_beyond := by
    rintro a v m ⟨u, ha, -⟩ hm
    exact h.addPlain_beyond ha hm
  mul := by
    rintro a v k ⟨u, ha, hu⟩ hk
    obtain ⟨c, hc, hR⟩ := h.mul ha hk
    exact ⟨c, hc, _, hR, S.zsmul_mem hu k⟩
  mul_beyond := by
    rintro a v k ⟨u, ha, -⟩ hk
    exact h.mul_beyond ha hk
  blind := by
    rintro a v ⟨u, ha, hu⟩ r
    obtain ⟨c, hc, hR⟩ := h.blind ha r
    exact ⟨c, hc, _, hR, S.add_mem hu (S.nsmul_mem hblinding r)⟩

theorem simulates_any (h : ops.Realizes bound R plain blinding) :
    ops.Simulates bound fun c _ => ∃ u, R c u := by
  have hany := h.transfer ⊤ (show (plain, 1) ∈ (⊤ : AddSubgroup (M × ℤ)) from trivial)
    (show (blinding, 0) ∈ (⊤ : AddSubgroup (M × ℤ)) from trivial)
  exact (hany.congr fun c v => exists_congr fun u => and_iff_left trivial).simulates

theorem lift (h : ops.Realizes bound R plain blinding) {wrap : κ → τ} {unwrap : τ → Except Error κ}
    (hwrap : ∀ c, unwrap (wrap c) = .ok c) :
    (ops.lift wrap unwrap).Realizes bound (fun t u => ∃ c, t = wrap c ∧ R c u) plain blinding := by
  have wrapped {x : Except Error κ} {u : M} (hx : ∃ c, x = .ok c ∧ R c u) :
      ∃ t, (x >>= fun c => pure (wrap c)) = .ok t ∧ ∃ c, t = wrap c ∧ R c u := by
    obtain ⟨c, rfl, hR⟩ := hx
    exact ⟨wrap c, rfl, c, rfl, hR⟩
  have refused {x : Except Error κ} (hx : ∃ fault, x = .error (.domain fault)) :
      ∃ fault, (x >>= fun c => pure (wrap c)) = .error (.domain fault) := by
    obtain ⟨fault, rfl⟩ := hx
    exact ⟨fault, rfl⟩
  have unwrapped {β : Type} (c : κ) (f : κ → Except Error β) : (unwrap (wrap c) >>= f) = f c := by
    rw [hwrap]
    rfl
  constructor
  case draw => exact h.draw
  case check =>
    rintro _ u ⟨a, rfl, ha⟩
    exact (unwrapped a _).trans (h.check ha)
  case encryptWith =>
    intro m hm r
    exact wrapped (h.encryptWith hm r)
  case encryptWith_beyond =>
    intro m hm r
    exact refused (h.encryptWith_beyond hm r)
  case add =>
    rintro _ _ u w ⟨a, rfl, ha⟩ ⟨b, rfl, hb⟩
    simp only [Operations.lift, unwrapped]
    exact wrapped (h.add ha hb)
  case sub =>
    rintro _ _ u w ⟨a, rfl, ha⟩ ⟨b, rfl, hb⟩
    simp only [Operations.lift, unwrapped]
    exact wrapped (h.sub ha hb)
  case negate =>
    rintro _ u ⟨a, rfl, ha⟩
    simp only [Operations.lift, unwrapped]
    exact wrapped (h.negate ha)
  case addPlain =>
    rintro _ u m ⟨a, rfl, ha⟩ hm
    simp only [Operations.lift, unwrapped]
    exact wrapped (h.addPlain ha hm)
  case addPlain_beyond =>
    rintro _ u m ⟨a, rfl, ha⟩ hm
    simp only [Operations.lift, unwrapped]
    exact refused (h.addPlain_beyond ha hm)
  case mul =>
    rintro _ u k ⟨a, rfl, ha⟩ hk
    simp only [Operations.lift, unwrapped]
    exact wrapped (h.mul ha hk)
  case mul_beyond =>
    rintro _ u k ⟨a, rfl, ha⟩ hk
    simp only [Operations.lift, unwrapped]
    exact refused (h.mul_beyond ha hk)
  case blind =>
    rintro _ u ⟨a, rfl, ha⟩ r
    simp only [Operations.lift, unwrapped]
    exact wrapped (h.blind ha r)

end Realizes

def Computes (ops : Operations κ) (bound : ℕ) (P : κ → ℤ → Prop) : Prop :=
  ∃ R : κ → ℤ → Prop, ops.Realizes bound R 1 0 ∧ ∀ c v, R c v → P c v

theorem Computes.lift {P : κ → ℤ → Prop} {Q : τ → ℤ → Prop} (h : ops.Computes bound P) {wrap : κ → τ}
    {unwrap : τ → Except Error κ} (hwrap : ∀ c, unwrap (wrap c) = .ok c)
    (hPQ : ∀ c v, P c v → Q (wrap c) v) : (ops.lift wrap unwrap).Computes bound Q := by
  obtain ⟨R, hR, hP⟩ := h
  refine ⟨_, hR.lift hwrap, ?_⟩
  rintro _ v ⟨c, rfl, hc⟩
  exact hPQ c v (hP c v hc)

end Operations

end Homomorphic
