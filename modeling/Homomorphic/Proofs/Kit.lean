import Homomorphic.Kit
import Homomorphic.Proofs.ElGamal.KeyGeneration
import Homomorphic.Proofs.Received

/-!
Kits: the registry on which the kit of an owner has been made holds the curve of its public key, and
every kit that is obtained from it has an equal public key, so that the owner can read what such a kit
computes.
-/

namespace Homomorphic

open PointGroup

namespace Setup

variable {α β : Type} {r r' : Registry} {e e' : Entropy}

def outcome (s : Setup α) (r : Registry) (e : Entropy) : (Except Error α × Registry) × Entropy :=
  s.run r e

theorem outcome_bind_eq_ok {s : Setup α} {f : α → Setup β} {b : β} :
    (s >>= f).outcome r e = ((.ok b, r'), e') ↔
      ∃ a r₁ e₁, s.outcome r e = ((.ok a, r₁), e₁) ∧ (f a).outcome r₁ e₁ = ((.ok b, r'), e') := by
  change (ExceptT.bindCont f (s.outcome r e).1.1 (s.outcome r e).1.2) (s.outcome r e).2 = _ ↔ _
  rcases s.outcome r e with ⟨⟨error | a, r₁⟩, e₁⟩
  · constructor
    · intro h
      cases h
    · rintro ⟨_, _, _, h, -⟩
      cases h
  · constructor
    · intro h
      exact ⟨a, r₁, e₁, rfl, h⟩
    · rintro ⟨_, _, _, h, hf⟩
      cases h
      exact hf

theorem outcome_lift_eq_ok {x : Except Error α} {a : α} :
    (liftM x : Setup α).outcome r e = ((.ok a, r'), e') ↔ x = .ok a ∧ r = r' ∧ e = e' := by
  have houtcome : (liftM x : Setup α).outcome r e = ((x, r), e) := by
    cases x <;> rfl
  rw [houtcome, Prod.mk.injEq, Prod.mk.injEq, and_assoc]

theorem outcome_loading_eq_ok {l : Loading α} {a : α} :
    (liftM l : Setup α).outcome r e = ((.ok a, r'), e') ↔ l.outcome r = (.ok a, r') ∧ e = e' := by
  change (l.outcome r, e) = _ ↔ _
  rw [Prod.mk.injEq]

theorem outcome_draw_eq_ok {d : Draw α} {a : α} :
    (liftM d : Setup α).outcome r e = ((.ok a, r'), e') ↔ d.outcome e = (.ok a, e') ∧ r = r' := by
  change (((d.outcome e).1, r), (d.outcome e).2) = _ ↔ _
  rw [Prod.mk.injEq, Prod.mk.injEq, Prod.ext_iff]
  exact and_right_comm

theorem made_of_outcome_keys {E : PointGroup} {test : ℕ → Bool} {config : Config} {pk : PublicKey E}
    {sk : SecretKey E} (h : (keys test config).outcome r e = ((.ok (pk, sk), r'), e')) : pk.Made := by
  rw [keys] at h
  cases hschema : config.schema with
  | paillier =>
    rw [hschema] at h
    obtain ⟨⟨sk', pk'⟩, _, _, -, h⟩ := outcome_bind_eq_ok.mp h
    cases h
    trivial
  | ou =>
    rw [hschema] at h
    obtain ⟨⟨sk', pk'⟩, _, _, -, h⟩ := outcome_bind_eq_ok.mp h
    cases h
    trivial
  | elgamal =>
    rw [hschema] at h
    obtain ⟨-, r₁, e₁, -, h⟩ := outcome_bind_eq_ok.mp h
    obtain ⟨⟨sk', pk'⟩, r₂, e₂, hdrawn, h⟩ := outcome_bind_eq_ok.mp h
    cases h
    exact ElGamal.made_of_outcome_generateWith (outcome_draw_eq_ok.mp hdrawn).1

end Setup

variable {E : PointGroup} {test : ℕ → Bool} {r r' : Registry}

theorem PublicKey.outcome_enableCurve (pk : PublicKey E) (r : Registry) :
    pk.enableCurve.outcome r = (.ok (), pk.registered r) := by
  cases pk <;> rfl

namespace OwnerKit

variable {kit : OwnerKit E} {pk : PublicKey E} {sk : SecretKey E}

theorem exists_outcome_ofKeys (h : pk.schema = sk.schema) (r : Registry) :
    ∃ kit, (ofKeys pk sk).outcome r = (.ok kit, pk.registered r) ∧ kit.publicKey = pk ∧
      kit.secretKey = sk := by
  refine ⟨⟨pk, sk, .standard, h⟩, ?_, rfl, rfl⟩
  rw [ofKeys, dif_pos h, Loading.outcome_bind_of_ok _ (pk.outcome_enableCurve r)]
  rfl

theorem outcome_ofKeys_eq_ok (h : (ofKeys pk sk).outcome r = (.ok kit, r')) :
    kit.publicKey = pk ∧ r' = pk.registered r := by
  rw [ofKeys] at h
  split at h
  · rw [Loading.outcome_bind_of_ok _ (pk.outcome_enableCurve r)] at h
    cases h
    exact ⟨rfl, rfl⟩
  · cases h

/-- The kit has been made, of given keys or of new ones, and the registry is as it was left then. -/
inductive MadeOn (test : ℕ → Bool) : OwnerKit E → Registry → Prop
  | ofKeys {pk : PublicKey E} {sk : SecretKey E} {kit : OwnerKit E} {r₀ r : Registry}
    (hmade : pk.Made) (h : (ofKeys pk sk).outcome r₀ = (.ok kit, r)) : MadeOn test kit r
  | create {config : Config} {kit : OwnerKit E} {r₀ r : Registry} {e e' : Entropy}
    (h : (create test config).outcome r₀ e = ((.ok kit, r), e')) : MadeOn test kit r

theorem MadeOn.made_curveIn (h : kit.MadeOn test r) :
    kit.publicKey.Made ∧ kit.publicKey.CurveIn r := by
  cases h with
  | ofKeys hmade h =>
    obtain ⟨hkey, rfl⟩ := outcome_ofKeys_eq_ok h
    rw [hkey]
    exact ⟨hmade, PublicKey.curveIn_registered _ _⟩
  | create h =>
    rw [OwnerKit.create] at h
    obtain ⟨-, r₁, e₁, -, h⟩ := Setup.outcome_bind_eq_ok.mp h
    obtain ⟨⟨pk, sk⟩, r₂, e₂, hkeys, h⟩ := Setup.outcome_bind_eq_ok.mp h
    obtain ⟨kit', r₃, e₃, hkit, h⟩ := Setup.outcome_bind_eq_ok.mp h
    obtain ⟨encoder, r₄, e₄, hencoder, h⟩ := Setup.outcome_bind_eq_ok.mp h
    obtain ⟨hkey, hregistry⟩ := outcome_ofKeys_eq_ok (Setup.outcome_loading_eq_ok.mp hkit).1
    -- The encoder is made last, and leaves the registry as the kit of the keys has left it.
    obtain ⟨-, rfl, -⟩ := Setup.outcome_lift_eq_ok.mp hencoder
    cases h
    change kit'.publicKey.Made ∧ kit'.publicKey.CurveIn r
    rw [hkey, hregistry]
    exact ⟨Setup.made_of_outcome_keys hkeys, PublicKey.curveIn_registered _ _⟩

end OwnerKit

namespace DestinationKit

theorem outcome_ofPublicKey (pk : PublicKey E) (r : Registry) :
    (ofPublicKey pk).outcome r = (.ok ⟨pk, .standard⟩, pk.registered r) := by
  rw [ofPublicKey, Loading.outcome_bind_of_ok _ (pk.outcome_enableCurve r)]
  rfl

/-- The kits that another party gets from the owner, each on any registry of its own. -/
inductive ObtainedFrom (kit : OwnerKit E) : DestinationKit E → Prop
  | destination : ObtainedFrom kit kit.destination
  | ofPublicKey {d : DestinationKit E} {r r' : Registry}
    (h : (ofPublicKey kit.publicKey).outcome r = (.ok d, r')) : ObtainedFrom kit d
  | ofBytes {bytes : Bytes} {d : DestinationKit E} {r r' : Registry}
    (hbytes : kit.publicKey.toBytes = .ok bytes) (h : (ofBytes bytes).outcome r = (.ok d, r')) :
    ObtainedFrom kit d
  | withEncoder {d : DestinationKit E} (h : ObtainedFrom kit d) (encoder : FixedPoint) :
    ObtainedFrom kit (d.withEncoder encoder)

variable {kit : OwnerKit E} {d : DestinationKit E} {bytes : Bytes}

theorem exists_outcome_ofBytes (codec : E.Encodes) {pk : PublicKey E} (hmade : pk.Made)
    (h : pk.toBytes = .ok bytes) (r : Registry) :
    ∃ d r', (ofBytes bytes).outcome r = (.ok d, r') ∧ (d.publicKey == pk) = true ∧
      d.publicKey.Made := by
  obtain ⟨pk', hread, heq, hmade'⟩ := PublicKey.exists_outcome_ofBytes codec hmade h r
  refine ⟨⟨pk', .standard⟩, pk'.registered (pk.registered r), ?_, heq, hmade'⟩
  rw [ofBytes, Loading.outcome_bind_of_ok _ hread, outcome_ofPublicKey]

theorem ObtainedFrom.publicKey_beq (codec : E.Encodes) (hmade : kit.publicKey.Made)
    (h : d.ObtainedFrom kit) : (d.publicKey == kit.publicKey) = true ∧ d.publicKey.Made := by
  have hself := PublicKey.beq_self codec hmade
  induction h with
  | destination => exact ⟨hself, hmade⟩
  | @ofPublicKey _ r _ h =>
    rw [outcome_ofPublicKey] at h
    cases h
    exact ⟨hself, hmade⟩
  | @ofBytes _ _ r _ hbytes h =>
    obtain ⟨d', r₁, hread, hd'⟩ := exists_outcome_ofBytes codec hmade hbytes r
    rw [h] at hread
    cases hread
    exact hd'
  | withEncoder _ _ ih => exact ih

end DestinationKit

variable {G : Type} [AddCommGroup G] {element : E.Point → G}

theorem OwnerKit.reads_destination (laws : E.Represents element) (codec : E.Encodes)
    {kit : OwnerKit E} (hkit : kit.MadeOn test r) :
    (∀ (bytes : Bytes) (r₀ : Registry), kit.publicKey.toBytes = .ok bytes →
      ∃ d r₁, (DestinationKit.ofBytes bytes : Loading (DestinationKit E)).outcome r₀ = (.ok d, r₁)) ∧
    ∀ (d : DestinationKit E) (steps : List Step) (e : Entropy) (name : String) (c : Ciphertext E),
      d.ObtainedFrom kit →
      (Store.after d.publicKey.operations Store.empty steps e).find? name = some c →
      (c.schema = .elgamal →
        (∃ bytes, c.toBytes = .ok bytes) ∧ ∃ bytes, c.toNamedBytes = .ok bytes) ∧
      ∀ (bytes : Bytes) (r' : Registry),
        c.toBytes = .ok bytes ∨ c.toNamedBytes = .ok bytes → r.enabled ⊆ r'.enabled →
        ∃ c', (Ciphertext.ofBytes bytes).outcome r' = (.ok c', r') ∧ (c' == c) = true ∧
          c'.schema = kit.secretKey.schema ∧ kit.secretKey.decrypt c' = kit.secretKey.decrypt c := by
  obtain ⟨hmade, hcurve⟩ := hkit.made_curveIn
  constructor
  · intro bytes r₀ hbytes
    obtain ⟨d, r₁, hread, -⟩ := DestinationKit.exists_outcome_ofBytes codec hmade hbytes r₀
    exact ⟨d, r₁, hread⟩
  · intro d steps e name c hd hc
    obtain ⟨hbeq, hmade'⟩ := hd.publicKey_beq codec hmade
    have hunder : c.Under d.publicKey :=
      (PublicKey.preserves_under laws hmade').run Store.all_empty steps e name c hc
    refine ⟨Ciphertext.exists_encodings codec hunder.made, fun bytes r' hbytes hr => ?_⟩
    have hcurve' := (hcurve.mono hr).of_beq hbeq
    obtain ⟨c', hread, heq, hc'⟩ := hunder.exists_outcome_ofBytes codec hcurve' hbytes
    refine ⟨c', hread, heq, ?_, kit.secretKey.decrypt_congr laws hunder.made hc' heq⟩
    rw [Ciphertext.schema_eq_of_beq heq, hunder.schema_eq, PublicKey.schema_eq_of_beq hbeq,
      kit.schema_eq]

theorem OwnerKit.reads_destination_residues :
    ∃ (h : 1 < Ristretto.order) (kit : OwnerKit (residues Ristretto.order h)) (r : Registry)
      (c c' c'' : Ciphertext (residues Ristretto.order h)) (compact named : Bytes),
      (residues Ristretto.order h).Represents (G := ZMod Ristretto.order) id ∧
      (residues Ristretto.order h).Encodes ∧ kit.MadeOn (fun _ => false) r ∧
      (Store.after kit.destination.publicKey.operations Store.empty [⟨"a", .encryptWith (-600) 7⟩]
        (Entropy.ofBytes [])).find? "a" = some c ∧
      c.toBytes = .ok compact ∧ (Ciphertext.ofBytes compact).outcome r = (.ok c', r) ∧
      (c' == c) = true ∧ kit.secretKey.decrypt c' = .ok (-600) ∧
      c.toNamedBytes = .ok named ∧ (Ciphertext.ofBytes named).outcome r = (.ok c'', r) ∧
      (c'' == c) = true ∧ kit.secretKey.decrypt c'' = .ok (-600) := by
  have h : 1 < Ristretto.order := Ristretto.group.one_lt_order
  have hwidth : Ristretto.order ≤ 256 ^ width := by decide +kernel
  have laws := represents_residues h hwidth
  have codec := encodes_residues h hwidth
  have hpos : 0 < 5 % (residues Ristretto.order h).order := by
    change 0 < 5 % Ristretto.order
    decide +kernel
  obtain ⟨sk, pk, -, -, hcurve, hcurve', hy, hbound, hbound'⟩ :=
    ElGamal.SecretKey.exists_keyPair laws .ristretto255 hpos
      (by decide : ElGamal.checkTable 1000 4 = .ok ())
  have hmade : (residues Ristretto.order h).Made pk.y := hy ▸ .mulBase sk.x
  have hschema : (PublicKey.elgamal pk).schema = (SecretKey.elgamal sk).schema := rfl
  obtain ⟨kit, hofKeys, hpublic, hsecret⟩ := OwnerKit.exists_outcome_ofKeys hschema .empty
  have hpk : (PublicKey.elgamal pk).Made := hmade
  have hkit : kit.MadeOn (fun _ => false) _ := .ofKeys hpk hofKeys
  have hrealizes := ElGamal.PublicKey.realizes_carries laws hmade (hy ▸ laws.mulBase sk.x)
  obtain ⟨c, hencrypt, hcarries⟩ := hrealizes.simulates.encryptWith
    (show (-600 : ℤ).natAbs ≤ pk.maxPlaintext.toNat by rw [hbound']; decide) 7
  have hstored : (Store.after kit.destination.publicKey.operations Store.empty
      [⟨"a", .encryptWith (-600) 7⟩] (Entropy.ofBytes [])).find? "a" = some (.elgamal c) := by
    have hperform : ((PublicKey.elgamal pk).operations.perform (.encryptWith (-600) 7)).outcome
        (Entropy.ofBytes []) = (.ok (.elgamal c), Entropy.ofBytes []) := by
      refine (Draw.outcome_lift _ _).trans (congrArg (·, Entropy.ofBytes []) ?_)
      exact bind_eq_ok.mpr ⟨c, hencrypt, rfl⟩
    rw [OwnerKit.destination, hpublic, Store.after, Store.run_cons, Store.step_of_operation rfl, hperform]
    exact (Store.find?_insert _ _ _ _).trans (if_pos rfl)
  obtain ⟨hencodes, hreads⟩ :=
    (kit.reads_destination laws codec hkit).2 _ _ _ _ _ .destination hstored
  obtain ⟨⟨compact, hcompact⟩, named, hnamed⟩ := hencodes rfl
  obtain ⟨c', hread, heq, -, hdecrypt⟩ := hreads compact _ (.inl hcompact) (List.Subset.refl _)
  obtain ⟨c'', hread', heq', -, hdecrypt'⟩ := hreads named _ (.inr hnamed) (List.Subset.refl _)
  have hvalue : kit.secretKey.decrypt (.elgamal c) = .ok (-600) := by
    rw [hsecret]
    change sk.decrypt c = _
    rw [hcurve'.trans hcurve.symm] at hcarries
    have hmax : (sk.maxPlaintext.toNat : ℤ) = 1000 := by
      rw [hbound]
      rfl
    rcases ElGamal.decrypt_of_carries laws rfl hcarries with ⟨m, hm, honly⟩ | ⟨-, hfar⟩
    · have hm' : -600 = m := (honly (-600)).mp ⟨⟨by omega, by omega⟩, Int.ModEq.refl _⟩
      rw [hm, hm']
    · exact absurd (Int.ModEq.refl _) (hfar (-600) ⟨by omega, by omega⟩)
  exact ⟨h, kit, _, _, c', c'', compact, named, laws, codec, hkit, hstored, hcompact, hread, heq,
    hdecrypt.trans hvalue, hnamed, hread', heq', hdecrypt'.trans hvalue⟩

end Homomorphic
