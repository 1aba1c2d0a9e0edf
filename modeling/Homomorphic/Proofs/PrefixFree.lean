import Homomorphic.Key
import Homomorphic.Proofs.Encoding
import Homomorphic.Proofs.Forms

namespace Homomorphic

def Error.IsEnd (error : Error) : Prop :=
  (∃ fault : WireFault, fault.IsEnd ∧ error = .wire fault) ∨ error = .serialization .empty

def Delimits {α : Type} (read : Bytes → Except Error α) : Prop :=
  ∀ bytes a, read bytes = .ok a →
    (∀ front, front <+: bytes → front ≠ bytes → ∃ error : Error, error.IsEnd ∧ read front = .error error) ∧
    ∀ longer, bytes <+: longer → longer ≠ bytes → read longer = .error (.wire .trailingBytes)

theorem Schema.split_of_some {tag : UInt8} {schema : Schema} (h : ofTag? tag = some schema)
    (payload : Bytes) : split (tag :: payload) = .ok (schema, payload) := by
  rw [split, h]

theorem Schema.split_of_none {tag : UInt8} (h : ofTag? tag = none) (payload : Bytes) :
    split (tag :: payload) = .error (.serialization (.schemaTag tag)) := by
  rw [split, h]

section

variable {α β : Type} {E : PointGroup} {r : Registry}

theorem Wire.Takes.delimits {reader : Reader α} {W : α → Bytes → Prop} (h : Takes reader W) :
    Delimits (decode reader) := by
  intro bytes a hread
  obtain ⟨hreads, hends, -⟩ := h.of_decode hread
  refine ⟨?_, ?_⟩
  · intro front hfront hne
    obtain ⟨fault, hfault, herror⟩ := hends front hfront hne
    exact ⟨.wire fault, .inl ⟨fault, hfault, rfl⟩, decode_of_error herror⟩
  · rintro _ ⟨rest, rfl⟩ hne
    exact hreads.decode_append fun hrest => hne (by rw [hrest, List.append_nil])

namespace Delimits

theorem of_error {read : Bytes → Except Error α} {read' : Bytes → Except Error β} (h : Delimits read)
    (herror : ∀ bytes error, read bytes = .error error → read' bytes = .error error) :
    Delimits read' := by
  intro bytes b hread'
  cases hread : read bytes with
  | error error =>
    rw [herror bytes error hread] at hread'
    cases hread'
  | ok a =>
    obtain ⟨hfront, hlonger⟩ := h bytes a hread
    refine ⟨?_, fun longer hprefix hne => herror _ _ (hlonger longer hprefix hne)⟩
    intro front hprefix hne
    obtain ⟨error, hend, hfails⟩ := hfront front hprefix hne
    exact ⟨error, hend, herror _ _ hfails⟩

theorem bind {read : Bytes → Except Error α} (h : Delimits read) (f : α → Except Error β) :
    Delimits fun bytes => read bytes >>= f := by
  apply h.of_error
  intro bytes error herror
  simp only [herror]
  rfl

theorem lift {read : Bytes → Except Error α} (h : Delimits read) (r : Registry) :
    Delimits fun bytes => ((liftM (read bytes) : Loading α).outcome r).1 := by
  simpa only [Loading.outcome_lift] using h

theorem outcome_bind {load : Bytes → Loading α} (h : Delimits fun bytes => ((load bytes).outcome r).1)
    (f : α → Loading β) : Delimits fun bytes => ((load bytes >>= f).outcome r).1 := by
  apply h.of_error
  intro bytes error herror
  have houtcome : (load bytes).outcome r = (.error error, ((load bytes).outcome r).2) :=
    Prod.ext herror rfl
  rw [Loading.outcome_bind_of_error f houtcome]

theorem tagged {read : Schema × Bytes → Except Error α}
    (h : ∀ schema, Delimits fun payload => read (schema, payload)) :
    Delimits fun bytes => Schema.split bytes >>= read := by
  intro bytes a hread
  cases bytes with
  | nil => cases hread
  | cons tag payload =>
    cases htag : Schema.ofTag? tag with
    | none =>
      simp only [Schema.split_of_none htag] at hread
      cases hread
    | some schema =>
      have hsplit (payload : Bytes) :
          (Schema.split (tag :: payload) >>= read) = read (schema, payload) := by
        rw [Schema.split_of_some htag]
        rfl
      obtain ⟨hfront, hlonger⟩ := h schema payload a ((hsplit payload).symm.trans hread)
      refine ⟨?_, ?_⟩
      · intro front hprefix hne
        rcases List.prefix_cons_iff.mp hprefix with rfl | ⟨front', rfl, hprefix'⟩
        · exact ⟨.serialization .empty, .inr rfl, rfl⟩
        · obtain ⟨error, hend, herror⟩ := hfront front' hprefix' fun heq => hne (by rw [heq])
          exact ⟨error, hend, (hsplit front').trans herror⟩
      · rintro _ ⟨rest, rfl⟩ hne
        apply (hsplit (payload ++ rest)).trans
        apply hlonger _ (List.prefix_append payload rest)
        exact fun heq => hne (by rw [List.cons_append, heq])

theorem outcome_tagged {load : Schema × Bytes → Loading α}
    (h : ∀ schema, Delimits fun payload => ((load (schema, payload)).outcome r).1) :
    Delimits fun bytes => ((liftM (Schema.split bytes) >>= load).outcome r).1 := by
  simpa only [Loading.outcome_lift_bind_fst] using tagged h

end Delimits

namespace Wire

def decodeTagged (forms : Schema → Form) (bytes : Bytes) :
    Except Error ((schema : Schema) × (forms schema).Value) := do
  let (schema, payload) ← Schema.split bytes
  return ⟨schema, ← decode (forms schema).reader payload⟩

theorem Form.delimits (form : Form) : Delimits (decode form.reader) := form.takes.delimits

theorem delimits_decodeTagged (forms : Schema → Form) : Delimits (decodeTagged forms) :=
  Delimits.tagged fun schema => (forms schema).delimits.bind _

end Wire

theorem Ciphertext.delimits (r : Registry) :
    Delimits fun bytes => ((ofBytes bytes : Loading (Ciphertext E)).outcome r).1 := by
  apply Delimits.outcome_tagged
  rintro (_ | _ | _)
  · exact ((Wire.Form.natural.delimits.bind _).lift r).outcome_bind _
  · exact ((Wire.Form.natural.delimits.bind _).lift r).outcome_bind _
  · exact ((Wire.Form.ciphertextRecord.delimits.lift r).outcome_bind _).outcome_bind _

theorem PublicKey.delimits (r : Registry) :
    Delimits fun bytes => ((ofBytes bytes : Loading (PublicKey E)).outcome r).1 := by
  apply Delimits.outcome_tagged
  rintro (_ | _ | _)
  · exact ((Wire.Form.pair.delimits.bind _).lift r).outcome_bind _
  · exact ((Wire.Form.triple.delimits.bind _).lift r).outcome_bind _
  · exact ((Wire.Form.publicRecord.delimits.lift r).outcome_bind _).outcome_bind _

theorem SecretKey.delimits (test : ℕ → Bool) (r : Registry) :
    Delimits fun bytes => ((ofBytes test bytes : Loading (SecretKey E)).outcome r).1 := by
  apply Delimits.outcome_tagged
  rintro (_ | _ | _)
  · exact ((Wire.Form.quadruple.delimits.bind _).lift r).outcome_bind _
  · exact ((Wire.Form.triple.delimits.bind _).lift r).outcome_bind _
  · exact ((Wire.Form.secretRecord.delimits.lift r).outcome_bind _).outcome_bind _

theorem every_form_delimits (test : ℕ → Bool) (r : Registry) :
    (∀ form : Wire.Form, Delimits (Wire.decode form.reader)) ∧
    (∀ forms : Schema → Wire.Form, Delimits (Wire.decodeTagged forms)) ∧
    (Delimits fun bytes => ((Ciphertext.ofBytes bytes : Loading (Ciphertext E)).outcome r).1) ∧
    (Delimits fun bytes => ((PublicKey.ofBytes bytes : Loading (PublicKey E)).outcome r).1) ∧
    Delimits fun bytes => ((SecretKey.ofBytes test bytes : Loading (SecretKey E)).outcome r).1 :=
  ⟨Wire.Form.delimits, Wire.delimits_decodeTagged, Ciphertext.delimits r, PublicKey.delimits r,
    SecretKey.delimits test r⟩

end

end Homomorphic
