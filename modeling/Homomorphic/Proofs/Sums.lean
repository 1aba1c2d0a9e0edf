import Homomorphic.Proofs.OkamotoUchiyama.Decryption
import Homomorphic.Proofs.Paillier.Decryption
import Homomorphic.Proofs.Received

namespace Homomorphic

open PointGroup

inductive Bracketing (κ : Type) where
  | leaf (c : κ)
  | node (left right : Bracketing κ)

def Bracketing.leaves {κ : Type} : Bracketing κ → List κ
  | leaf c => [c]
  | node left right => left.leaves ++ right.leaves

namespace Operations

section

variable {κ M : Type} [AddCommMonoid M] (ops : Operations κ) {R : κ → M → Prop}

def reduce : Bracketing κ → Except Error κ
  | .leaf c => .ok c
  | .node left right => do ops.add (← reduce left) (← reduce right)

def Adds (R : κ → M → Prop) : Prop :=
  ∀ a b u w, R a u → R b w → ∃ c, ops.add a b = .ok c ∧ R c (u + w)

/-- What may be computed as the sum of a list: adding from left to right, adding the sums of halves, or
any other bracketing, of the list in any order. -/
inductive SumsUp (cs : List κ) : Except Error κ → Prop
  | run : SumsUp cs (ops.sumRun cs)
  | halves : SumsUp cs (ops.sum cs)
  | bracketing (t : Bracketing κ) (h : t.leaves.Perm cs) : SumsUp cs (ops.reduce t)

theorem exists_reduce_eq_foldlM (t : Bracketing κ) (cs : List κ) :
    ∃ t', t'.leaves = t.leaves ++ cs ∧
      ops.reduce t' = ops.reduce t >>= fun first => cs.foldlM ops.add first := by
  induction cs generalizing t with
  | nil =>
    refine ⟨t, (List.append_nil _).symm, ?_⟩
    cases ops.reduce t <;> rfl
  | cons c cs ih =>
    obtain ⟨t', hleaves, hreduce⟩ := ih (.node t (.leaf c))
    refine ⟨t', ?_, ?_⟩
    · rw [hleaves, Bracketing.leaves, List.append_assoc]
      rfl
    · rw [hreduce, reduce]
      cases ops.reduce t <;> rfl

theorem exists_reduce_eq_sumRun {cs : List κ} (h : cs ≠ []) :
    ∃ t, t.leaves = cs ∧ ops.reduce t = ops.sumRun cs := by
  obtain ⟨first, rest, rfl⟩ := List.exists_cons_of_ne_nil h
  exact ops.exists_reduce_eq_foldlM (.leaf first) rest

theorem exists_reduce_eq_sumHalves (depth : ℕ) {cs : List κ} (h : cs ≠ []) :
    ∃ t, t.leaves = cs ∧ ops.reduce t = ops.sumHalves depth cs := by
  induction depth generalizing cs with
  | zero => exact ops.exists_reduce_eq_sumRun h
  | succ depth ih =>
    rw [sumHalves]
    split
    · exact ops.exists_reduce_eq_sumRun h
    · next hlength =>
      have hleft : cs.take (cs.length / 2) ≠ [] := by
        rw [← List.length_pos_iff, List.length_take]
        omega
      have hright : cs.drop (cs.length / 2) ≠ [] := by
        rw [← List.length_pos_iff, List.length_drop]
        omega
      obtain ⟨left, hleaves, hreduce⟩ := ih hleft
      obtain ⟨right, hleaves', hreduce'⟩ := ih hright
      refine ⟨.node left right, ?_, ?_⟩
      · rw [Bracketing.leaves, hleaves, hleaves', List.take_append_drop]
      · rw [reduce, hreduce, hreduce']

variable {ops}

theorem SumsUp.exists_reduce {cs : List κ} (hne : cs ≠ []) {result : Except Error κ}
    (h : ops.SumsUp cs result) : ∃ t, t.leaves.Perm cs ∧ ops.reduce t = result := by
  cases h with
  | run =>
    obtain ⟨t, hleaves, hreduce⟩ := ops.exists_reduce_eq_sumRun hne
    exact ⟨t, .of_eq hleaves, hreduce⟩
  | halves =>
    obtain ⟨t, hleaves, hreduce⟩ := ops.exists_reduce_eq_sumHalves splitDepth hne
    exact ⟨t, .of_eq hleaves, hreduce⟩
  | bracketing t hperm => exact ⟨t, hperm, rfl⟩

theorem Adds.exists_reduce (h : ops.Adds R) {t : Bracketing κ} {us : List M}
    (hleaves : List.Forall₂ R t.leaves us) : ∃ c, ops.reduce t = .ok c ∧ R c us.sum := by
  induction t generalizing us with
  | leaf c =>
    obtain ⟨u, rest, hc, hrest, rfl⟩ := List.forall₂_cons_left_iff.mp hleaves
    obtain rfl := List.forall₂_nil_left_iff.mp hrest
    rw [List.sum_singleton]
    exact ⟨c, rfl, hc⟩
  | node left right ihl ihr =>
    have hleft := List.forall₂_take_append us left.leaves right.leaves hleaves.flip
    have hright := List.forall₂_drop_append us left.leaves right.leaves hleaves.flip
    obtain ⟨a, ha, hRa⟩ := ihl hleft.flip
    obtain ⟨b, hb, hRb⟩ := ihr hright.flip
    obtain ⟨c, hc, hRc⟩ := h _ _ _ _ hRa hRb
    refine ⟨c, ?_, ?_⟩
    · rw [reduce, ha, hb]
      exact hc
    · rwa [List.sum_take_add_sum_drop] at hRc

theorem Adds.exists_sum (h : ops.Adds R) {cs : List κ} {us : List M} (hne : cs ≠ [])
    (hcs : List.Forall₂ R cs us) {result : Except Error κ} (hresult : ops.SumsUp cs result) :
    ∃ c, result = .ok c ∧ R c us.sum := by
  obtain ⟨t, hperm, rfl⟩ := hresult.exists_reduce hne
  obtain ⟨us', hleaves, hperm'⟩ := List.perm_comp_forall₂ hperm hcs
  rw [← hperm'.sum_eq]
  exact h.exists_reduce hleaves

end

theorem Realizes.adds {κ M : Type} [AddCommGroup M] {ops : Operations κ} {bound : ℕ} {R : κ → M → Prop}
    {plain blinding : M} (h : ops.Realizes bound R plain blinding) : ops.Adds R :=
  fun _ _ _ _ => h.add

end Operations

variable {E : PointGroup} {G : Type} [AddCommGroup G] {element : E.Point → G} {test : ℕ → Bool}

/-- A run of encryptions and operations under the key has left the ciphertext, and gives the integer
when it is computed on integers. -/
def PublicKey.Obtains (pk : PublicKey E) (c : Ciphertext E) (v : ℤ) : Prop :=
  ∃ (steps : List Step) (e : Entropy) (name : String),
    (Store.after pk.operations Store.empty steps e).find? name = some c ∧
      (Store.plainRun pk.bound steps).find? name = some v

namespace SecretKey

inductive Matches (test : ℕ → Bool) : SecretKey E → PublicKey E → Prop
  | paillier {p q lambda mu h : ℕ} {sk : Paillier.SecretKey} {pk : Paillier.PublicKey}
    (hsk : Paillier.SecretKey.ofParts test p q lambda mu = .ok sk) (hh : Nat.Coprime h (p * q))
    (hpk : Paillier.PublicKey.ofParts (p * q) (h ^ (p * q) % (p * q) ^ 2) = .ok pk) :
    Matches test (.paillier sk) (.paillier pk)
  | ou {p q gpInv g : ℕ} {sk : OkamotoUchiyama.SecretKey} {pk : OkamotoUchiyama.PublicKey}
    (hsk : OkamotoUchiyama.SecretKey.ofParts test p q gpInv = .ok sk)
    (hinv : OkamotoUchiyama.logarithm sk.p g * gpInv % p = 1)
    (hpk : OkamotoUchiyama.PublicKey.ofParts (p ^ 2 * q) g (g ^ (p ^ 2 * q) % (p ^ 2 * q)) = .ok pk) :
    Matches test (.ou sk) (.ou pk)
  | elgamal {sk : ElGamal.SecretKey E} {pk : ElGamal.PublicKey E} (hpk : sk.publicKey = .ok pk) :
    Matches test (.elgamal sk) (.elgamal pk)

/-- The ciphertext decrypts to what represents the integer: the representative nearest to zero modulo
`n` or `p`, or the one within the bound modulo the order of the group, if there is one. -/
def DecryptsTo (sk : SecretKey E) (c : Ciphertext E) (v : ℤ) : Prop :=
  match sk with
  | paillier s => ∃ m, sk.decrypt c = .ok m ∧ IsOnlyIn (symmetricRange s.n.value) s.n.value v m
  | ou s => ∃ m, sk.decrypt c = .ok m ∧ IsOnlyIn (symmetricRange s.p.value) s.p.value v m
  | elgamal s =>
    let range : Set ℤ := Set.Icc (-(s.maxPlaintext.toNat : ℤ)) s.maxPlaintext.toNat
    (∃ m, sk.decrypt c = .ok m ∧ IsOnlyIn range E.order v m) ∨
      (∃ fault, sk.decrypt c = .error (.domain fault)) ∧ ∀ m ∈ range, ¬ m ≡ v [ZMOD E.order]

theorem Matches.computes (laws : E.Represents element) (horder : E.order = Ristretto.order)
    (exact : ExactTest test) {sk : SecretKey E} {pk : PublicKey E} (h : sk.Matches test pk) :
    pk.operations.Computes pk.bound sk.DecryptsTo := by
  cases h with
  | paillier hsk hh hpk =>
    exact (Paillier.computes exact hsk hpk hh rfl).lift (fun _ => rfl) fun _ _ hread => hread
  | ou hsk hinv hpk =>
    exact (OkamotoUchiyama.computes exact hsk hpk hinv rfl).lift (fun _ => rfl) fun _ _ hread => hread
  | elgamal hpk =>
    exact (ElGamal.computes laws horder hpk).lift (fun _ => rfl) fun _ _ hread => hread

end SecretKey

namespace PublicKey

variable {pk : PublicKey E}

theorem exists_realizes (laws : E.Represents element) (hmade : pk.Made) :
    ∃ (M : Type) (_ : AddCommGroup M) (R : Ciphertext E → M → Prop) (plain blinding : M),
      pk.operations.Realizes pk.bound R plain blinding ∧
        ∀ a b u, R a u → R b u → (a == b) = true := by
  cases pk with
  | paillier pk =>
    refine ⟨_, _, _, _, _, pk.realizes.lift fun _ => rfl, ?_⟩
    rintro _ _ u ⟨a, rfl, ha⟩ ⟨b, rfl, hb⟩
    change (a == b) = true
    exact beq_iff_eq.mpr (Paillier.Ciphertext.ext (ha.eq hb))
  | ou pk =>
    refine ⟨_, _, _, _, _, pk.realizes.lift fun _ => rfl, ?_⟩
    rintro _ _ u ⟨a, rfl, ha⟩ ⟨b, rfl, hb⟩
    change (a == b) = true
    exact beq_iff_eq.mpr (OkamotoUchiyama.Ciphertext.ext (ha.eq hb))
  | elgamal pk =>
    refine ⟨_, _, _, _, _, (ElGamal.PublicKey.realizes laws hmade).lift fun _ => rfl, ?_⟩
    rintro _ _ u ⟨a, rfl, ha⟩ ⟨b, rfl, hb⟩
    exact ha.beq laws hb

theorem Obtains.exists_related {c : Ciphertext E} {v : ℤ} (h : pk.Obtains c v) {M : Type}
    [AddCommGroup M] {R : Ciphertext E → M → Prop} {plain blinding : M}
    (hR : pk.operations.Realizes pk.bound R plain blinding) : ∃ u, R c u := by
  obtain ⟨steps, e, name, hc, -⟩ := h
  obtain ⟨-, -, hu⟩ := (hR.simulates_any.run_empty steps e).1.exists_value hc
  exact hu

theorem Obtains.related {c : Ciphertext E} {v : ℤ} (h : pk.Obtains c v) {R : Ciphertext E → ℤ → Prop}
    (hR : pk.operations.Realizes pk.bound R 1 0) : R c v := by
  obtain ⟨steps, e, name, hc, hv⟩ := h
  obtain ⟨c', hc', hcv⟩ := (hR.simulates.run_empty steps e).1.exists_of_find? hv
  rwa [Option.some.inj (hc.symm.trans hc')]

end PublicKey

theorem exists_forall₂ {α β γ : Type} {P : α → β → Prop} {Q : α → γ → Prop} {as : List α} {bs : List β}
    (h : List.Forall₂ P as bs) (hP : ∀ a b, P a b → ∃ c, Q a c) : ∃ cs, List.Forall₂ Q as cs := by
  induction h with
  | nil => exact ⟨[], .nil⟩
  | cons hab _ ih =>
    obtain ⟨c, hc⟩ := hP _ _ hab
    obtain ⟨cs, hcs⟩ := ih
    exact ⟨c :: cs, .cons hc hcs⟩

theorem sum_of_obtained (laws : E.Represents element) (horder : E.order = Ristretto.order)
    (exact : ExactTest test) {pk : PublicKey E} (hmade : pk.Made) {cs : List (Ciphertext E)}
    {vs : List ℤ} (hne : cs ≠ []) (hcs : List.Forall₂ pk.Obtains cs vs) :
    ∃ total, pk.operations.sumRun cs = .ok total ∧
      ∀ result, pk.operations.SumsUp cs result →
        ∃ c, result = .ok c ∧ (c == total) = true ∧
          ∀ sk : SecretKey E, sk.Matches test pk → sk.DecryptsTo c vs.sum := by
  obtain ⟨M, _, R, plain, blinding, hR, hsame⟩ := pk.exists_realizes laws hmade
  obtain ⟨us, hus⟩ : ∃ us, List.Forall₂ R cs us :=
    exists_forall₂ hcs fun c v hc => hc.exists_related hR
  obtain ⟨total, htotal, hRtotal⟩ := hR.adds.exists_sum hne hus .run
  refine ⟨total, htotal, fun result hresult => ?_⟩
  obtain ⟨c, rfl, hRc⟩ := hR.adds.exists_sum hne hus hresult
  refine ⟨c, rfl, hsame c total _ hRc hRtotal, fun sk hsk => ?_⟩
  obtain ⟨D, hD, hdecrypt⟩ := hsk.computes laws horder exact
  have hvs : List.Forall₂ D cs vs := hcs.imp fun c v hc => hc.related hD
  obtain ⟨c', hc', hDc'⟩ := hD.adds.exists_sum hne hvs hresult
  obtain rfl := Except.ok.inj hc'
  exact hdecrypt c _ hDc'

theorem sum_of_obtained_residues :
    ∃ (h : 1 < Ristretto.order) (sk : ElGamal.SecretKey (residues Ristretto.order h))
      (pk : ElGamal.PublicKey (residues Ristretto.order h)) (a b c : Ciphertext _),
      (residues Ristretto.order h).Represents (G := ZMod Ristretto.order) id ∧
      sk.publicKey = .ok pk ∧ pk.maxPlaintext = 1000 ∧
      (PublicKey.elgamal pk).Obtains a 1600 ∧ (PublicKey.elgamal pk).Obtains b (-600) ∧
      (PublicKey.elgamal pk).operations.reduce (.node (.leaf b) (.leaf a)) = .ok c ∧
      (SecretKey.elgamal sk).decrypt c = .ok 1000 := by
  have h : 1 < Ristretto.order := Ristretto.group.one_lt_order
  have laws := represents_residues h (by decide +kernel)
  have hpos : 0 < 5 % (residues Ristretto.order h).order := by
    change 0 < 5 % Ristretto.order
    decide +kernel
  obtain ⟨sk, pk, -, hpk, -, -, hy, hbound, hbound'⟩ :=
    ElGamal.SecretKey.exists_keyPair laws .ristretto255 hpos
      (by decide : ElGamal.checkTable 1000 4 = .ok ())
  have hmade : (PublicKey.elgamal pk).Made := by
    change PointGroup.Made _ pk.y
    rw [hy]
    exact .mulBase sk.x
  have hmatches : (SecretKey.elgamal sk).Matches (fun n => decide n.Prime) (.elgamal pk) := .elgamal hpk
  have hlimit : (PublicKey.elgamal pk).bound = 1000 := by
    rw [PublicKey.bound, hbound']
    rfl
  obtain ⟨D, hD, -⟩ := hmatches.computes laws rfl exactTest_decide
  have obtained (steps : List Step) (v : ℤ) (hv : (Store.plainRun 1000 steps).find? "b" = some v) :
      ∃ c, (PublicKey.elgamal pk).Obtains c v := by
    rw [← hlimit] at hv
    obtain ⟨c, hc, -⟩ := (hD.simulates.run_empty steps (Entropy.ofBytes [])).1.exists_of_find? hv
    exact ⟨c, steps, _, "b", hc, hv⟩
  obtain ⟨a, ha⟩ := obtained [⟨"a", .encryptWith 800 7⟩, ⟨"b", .add "a" "a"⟩] 1600 (by decide)
  obtain ⟨b, hb⟩ := obtained [⟨"a", .encryptWith 600 3⟩, ⟨"b", .negate "a"⟩] (-600) (by decide)
  obtain ⟨_, -, hsums⟩ := sum_of_obtained laws rfl exactTest_decide hmade
    (List.cons_ne_nil a [b]) (.cons ha (.cons hb .nil))
  obtain ⟨c, hc, -, hdecrypts⟩ := hsums _ (.bracketing (.node (.leaf b) (.leaf a)) (.swap a b []))
  refine ⟨h, sk, pk, a, b, c, laws, hpk, hbound', ha, hb, hc, ?_⟩
  have hmax : (sk.maxPlaintext.toNat : ℤ) = 1000 := by
    rw [hbound]
    rfl
  rcases hdecrypts _ hmatches with ⟨m, hm, honly⟩ | ⟨-, hfar⟩
  · have hvalue : 1000 = m := (honly 1000).mp ⟨⟨by omega, by omega⟩, Int.ModEq.refl _⟩
    rw [hvalue]
    exact hm
  · exact absurd (Int.ModEq.refl _) (hfar 1000 ⟨by omega, by omega⟩)

end Homomorphic
