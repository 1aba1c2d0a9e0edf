import Homomorphic.Proofs.ElGamal.Decryption
import Homomorphic.Proofs.Encoding
import Homomorphic.Proofs.Invariants

namespace Homomorphic

open PointGroup

variable {E : PointGroup} {G : Type} [AddCommGroup G] {element : E.Point → G}

theorem ElGamal.SecretKey.decrypt_congr (laws : E.Represents element) (sk : ElGamal.SecretKey E)
    {c c' : ElGamal.Ciphertext E} (hmade : c.Made) (hmade' : c'.Made) (h : (c' == c) = true) :
    sk.decrypt c' = sk.decrypt c := by
  obtain ⟨hcurve, h₁, h₂⟩ := ElGamal.Ciphertext.beq_iff.mp h
  have hgiant : E.Made sk.steps.get.giant := by
    rw [sk.steps_eq]
    exact (BabySteps.fill_snd laws _ _ .zero _).1
  have hmul := hmade.c1.mul sk.x
  have hmul' := hmade'.c1.mul sk.x
  have helement : element (E.sub c'.c2 (E.mul sk.x c'.c1)) =
      element (E.sub c.c2 (E.mul sk.x c.c1)) := by
    rw [laws.sub hmade'.c2 hmul', laws.sub hmade.c2 hmul, laws.mul hmade'.c1, laws.mul hmade.c1,
      (laws.same hmade'.c1 hmade.c1).mp h₁, (laws.same hmade'.c2 hmade.c2).mp h₂]
  rw [decrypt, decrypt, hcurve,
    BabySteps.solve_congr laws hgiant (hmade'.c2.sub hmul') (hmade.c2.sub hmul) helement]

theorem Ciphertext.schema_eq_of_beq {c c' : Ciphertext E} (h : (c' == c) = true) :
    c'.schema = c.schema := by
  cases c <;> cases c' <;> first | rfl | cases h

theorem SecretKey.decrypt_congr (laws : E.Represents element) (sk : SecretKey E) {c c' : Ciphertext E}
    (hmade : c.Made) (hmade' : c'.Made) (h : (c' == c) = true) : sk.decrypt c' = sk.decrypt c := by
  cases c <;> cases c' <;> try cases h
  case paillier.paillier a b => rw [beq_iff_eq.mp (show (b == a) = true from h)]
  case ou.ou a b => rw [beq_iff_eq.mp (show (b == a) = true from h)]
  case elgamal.elgamal a b =>
    cases sk with
    | paillier sk => rfl
    | ou sk => rfl
    | elgamal sk => exact sk.decrypt_congr laws hmade hmade' h

namespace PublicKey

def CurveIn (r : Registry) : PublicKey E → Prop
  | paillier _ | ou _ => True
  | elgamal pk => pk.curve ∈ r.enabled

variable {pk pk' : PublicKey E} {r : Registry}

theorem curveIn_registered (pk : PublicKey E) (r : Registry) : pk.CurveIn (pk.registered r) := by
  cases pk with
  | paillier | ou => trivial
  | elgamal pk => exact Registry.mem_enable r pk.curve

theorem CurveIn.mono {r' : Registry} (h : pk.CurveIn r) (hr : r.enabled ⊆ r'.enabled) :
    pk.CurveIn r' := by
  cases pk with
  | paillier | ou => trivial
  | elgamal => exact hr h

theorem CurveIn.of_beq (h : pk.CurveIn r) (heq : (pk' == pk) = true) : pk'.CurveIn r := by
  cases pk <;> cases pk' <;> try cases heq
  case paillier.paillier | ou.ou => trivial
  case elgamal.elgamal a b =>
    obtain ⟨hcurve, -⟩ := ElGamal.PublicKey.beq_iff.mp heq
    change b.curve ∈ r.enabled
    rw [hcurve]
    exact h

theorem beq_self (codec : E.Encodes) (hmade : pk.Made) : (pk == pk) = true := by
  cases pk with
  | paillier pk => exact Paillier.PublicKey.beq_iff.mpr rfl
  | ou pk => exact OkamotoUchiyama.PublicKey.beq_iff.mpr rfl
  | elgamal pk =>
    exact ElGamal.PublicKey.beq_iff.mpr ⟨rfl, codec.equivalence.refl ⟨pk.y, hmade⟩, rfl⟩

theorem schema_eq_of_beq (h : (pk' == pk) = true) : pk'.schema = pk.schema := by
  cases pk <;> cases pk' <;> first | rfl | cases h

end PublicKey

inductive Ciphertext.Under : PublicKey E → Ciphertext E → Prop
  | paillier (pk : Paillier.PublicKey) (c : Paillier.Ciphertext) : Under (.paillier pk) (.paillier c)
  | ou (pk : OkamotoUchiyama.PublicKey) (c : OkamotoUchiyama.Ciphertext) : Under (.ou pk) (.ou c)
  | elgamal {pk : ElGamal.PublicKey E} {c : ElGamal.Ciphertext E} (curve_eq : c.curve = pk.curve)
    (made : c.Made) : Under (.elgamal pk) (.elgamal c)

namespace Ciphertext.Under

variable {pk : PublicKey E} {c : Ciphertext E} {r : Registry}

theorem schema_eq (h : c.Under pk) : c.schema = pk.schema := by
  cases h <;> rfl

theorem made (h : c.Under pk) : c.Made := by
  cases h with
  | paillier | ou => trivial
  | elgamal _ hmade => exact hmade

theorem curveIn (h : c.Under pk) (hr : pk.CurveIn r) : c.CurveIn r := by
  cases h with
  | paillier | ou => trivial
  | elgamal hcurve _ => exact Registry.contains_of_mem (hcurve ▸ hr)

theorem registered (h : c.Under pk) (hr : pk.CurveIn r) : c.registered r = r := by
  cases h with
  | paillier | ou => rfl
  | elgamal hcurve _ => exact Registry.enable_of_mem (hcurve ▸ hr)

theorem exists_outcome_ofBytes (codec : E.Encodes) (h : c.Under pk) (hr : pk.CurveIn r) {bytes : Bytes}
    (hbytes : c.toBytes = .ok bytes ∨ c.toNamedBytes = .ok bytes) :
    ∃ c', (ofBytes bytes).outcome r = (.ok c', r) ∧ (c' == c) = true ∧ c'.Made := by
  rcases hbytes with hcompact | hnamed
  · exact Ciphertext.exists_outcome_ofBytes codec h.made hcompact (h.curveIn hr)
  · have hread := Ciphertext.exists_outcome_ofBytes_named codec h.made hnamed r
    rwa [h.registered hr] at hread

end Ciphertext.Under

theorem ElGamal.PublicKey.preserves_made (laws : E.Represents element) {pk : ElGamal.PublicKey E}
    (hmade : E.Made pk.y) : pk.operations.Preserves fun c => c.curve = pk.curve ∧ c.Made := by
  apply (realizes laws hmade).simulates_any.preserves.congr
  intro c
  constructor
  · rintro ⟨-, u, hu⟩
    exact ⟨hu.curve_eq, hu.made₁, hu.made₂⟩
  · rintro ⟨hcurve, h₁, h₂⟩
    exact ⟨0, (element c.c1, element c.c2), hcurve, h₁, h₂, rfl, rfl⟩

theorem PublicKey.preserves_under (laws : E.Represents element) {pk : PublicKey E} (hmade : pk.Made) :
    pk.operations.Preserves (Ciphertext.Under pk) := by
  cases pk with
  | paillier pk =>
    have hlift : (PublicKey.paillier (E := E) pk).operations.Preserves
        fun t => ∃ c, t = Ciphertext.paillier c ∧ True := .lift (.of_true _) fun _ => rfl
    apply hlift.congr
    intro t
    constructor
    · rintro ⟨c, rfl, -⟩
      exact .paillier pk c
    · rintro ⟨⟩
      exact ⟨_, rfl, trivial⟩
  | ou pk =>
    have hlift : (PublicKey.ou (E := E) pk).operations.Preserves
        fun t => ∃ c, t = Ciphertext.ou c ∧ True := .lift (.of_true _) fun _ => rfl
    apply hlift.congr
    intro t
    constructor
    · rintro ⟨c, rfl, -⟩
      exact .ou pk c
    · rintro ⟨⟩
      exact ⟨_, rfl, trivial⟩
  | elgamal pk =>
    have hlift : (PublicKey.elgamal pk).operations.Preserves
        fun t => ∃ c, t = Ciphertext.elgamal c ∧ c.curve = pk.curve ∧ c.Made :=
      (ElGamal.PublicKey.preserves_made laws hmade).lift fun _ => rfl
    apply hlift.congr
    intro t
    constructor
    · rintro ⟨c, rfl, hcurve, hc⟩
      exact .elgamal hcurve hc
    · rintro (_ | _ | ⟨hcurve, hc⟩)
      exact ⟨_, rfl, hcurve, hc⟩

end Homomorphic
