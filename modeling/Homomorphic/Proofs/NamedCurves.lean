import Homomorphic.Proofs.Encoding

/-!
What reading does to the registry, whether or not the bytes are accepted. The curve that the bytes name
is enabled before the rest of what they say is looked at, so that it stays when that is refused; nothing
else changes.
-/

namespace Homomorphic

variable {α β : Type} {c : NamedCurve} {r r' : Registry}

def Error.BeforeCurve : Error → Prop
  | .wire _ | .serialization .empty | .serialization (.schemaTag _) | .unsupportedCurve .. |
    .unknownCurve _ => True
  | _ => False

def AfterCurve (x : Except Error α) : Prop := ∀ error, x = .error error → ¬ error.BeforeCurve

theorem AfterCurve.ok (a : α) : AfterCurve (.ok a : Except Error α) := by
  intro error h
  cases h

theorem AfterCurve.error {error : Error} (h : ¬ error.BeforeCurve) :
    AfterCurve (.error error : Except Error α) := by
  intro error' herror
  cases herror
  exact h

theorem AfterCurve.bind {x : Except Error α} {f : α → Except Error β} (hx : AfterCurve x)
    (hf : ∀ a, AfterCurve (f a)) : AfterCurve (x >>= f) := by
  cases x with
  | error error => exact .error (hx error rfl)
  | ok a => exact hf a

theorem ElGamal.decodePoint_afterCurve (E : PointGroup) (bytes : Bytes) :
    AfterCurve (decodePoint E bytes) := by
  rw [decodePoint]
  split
  · split
    · exact .ok _
    · exact .error id
  · exact .error id

theorem ElGamal.checkMaxPlaintext_afterCurve (bound : UInt64) :
    AfterCurve (checkMaxPlaintext bound) := by
  rw [checkMaxPlaintext]
  split
  · exact .error id
  · exact .ok _

theorem ElGamal.checkTable_afterCurve (bound : UInt64) (tableBits : UInt32) :
    AfterCurve (checkTable bound tableBits) := by
  apply (checkMaxPlaintext_afterCurve bound).bind
  intro _
  dsimp only
  split
  · exact .error id
  · split
    · exact .error id
    · exact .ok _

variable {E : PointGroup}

theorem ElGamal.PublicKey.ofParts_afterCurve (curve : NamedCurve) (y : E.Point) (bound : UInt64) :
    AfterCurve (ofParts curve y bound) := by
  rw [ofParts]
  split
  · split
    · exact .ok _
    · next herror => exact .error (checkMaxPlaintext_afterCurve bound _ herror)
  · exact .error id

theorem ElGamal.SecretKey.ofParts_afterCurve (curve : NamedCurve) (x : ℕ) (bound : UInt64)
    (tableBits : UInt32) : AfterCurve (ofParts (E := E) curve x bound tableBits) := by
  rw [ofParts]
  split
  · split
    · exact .ok _
    · next herror => exact .error (checkTable_afterCurve bound tableBits _ herror)
  · exact .error id

namespace Loading

def Settled (l : Loading α) : Prop := ∃ x, AfterCurve x ∧ ∀ r, l.outcome r = (x, r)

structure Uses (l : Loading α) (Named : NamedCurve → Prop) (Refers : UInt64 → Prop) : Prop where
  named {c : NamedCurve} (h : Named c) (r : Registry) : (l.outcome r).2 = r.enable c
  unnamed (h : ∀ c, ¬ Named c) (r : Registry) : (l.outcome r).2 = r
  afterCurve {c : NamedCurve} (h : Named c) (r : Registry) : AfterCurve (l.outcome r).1
  sameResult {r r' : Registry} (h : ∀ id, Refers id → r.contains id = r'.contains id) :
    (l.outcome r).1 = (l.outcome r').1

theorem Settled.pure (a : α) : Settled (pure a) := ⟨.ok a, .ok a, fun _ => rfl⟩

theorem Settled.lift {x : Except Error α} (h : AfterCurve x) : Settled (liftM x) :=
  ⟨x, h, outcome_lift x⟩

theorem Settled.bind {l : Loading α} {f : α → Loading β} (hl : Settled l) (hf : ∀ a, Settled (f a)) :
    Settled (l >>= f) := by
  obtain ⟨error | a, hx, hl⟩ := hl
  · exact ⟨.error error, .error (hx error rfl), fun r => outcome_bind_of_error f (hl r)⟩
  · obtain ⟨y, hy, hf⟩ := hf a
    exact ⟨y, hy, fun r => (outcome_bind_of_ok f (hl r)).trans (hf r)⟩

namespace Uses

variable {Named Named' : NamedCurve → Prop} {Refers Refers' : UInt64 → Prop}

theorem lift (x : Except Error α) :
    Uses (liftM x : Loading α) (fun _ => False) fun _ => False where
  named := False.elim
  unnamed _ r := by rw [outcome_lift]
  afterCurve := False.elim
  sameResult _ := by rw [outcome_lift, outcome_lift]

theorem lookup (id : UInt64) : Uses (lookup id) (fun _ => False) fun id' => id = id' where
  named := False.elim
  unnamed _ r := by rw [outcome_lookup]
  afterCurve := False.elim
  sameResult h := by rw [outcome_lookup, outcome_lookup, Registry.lookup_congr (h id rfl)]

theorem enable (c : NamedCurve) : Uses (enable c) (fun c' => c = c') fun _ => False where
  named h r := by
    cases h
    rfl
  unnamed h := absurd rfl (h c)
  afterCurve _ _ := .ok ()
  sameResult _ := rfl

theorem congr {l : Loading α} (h : l.Uses Named Refers) (hnamed : ∀ c, Named' c ↔ Named c)
    (hrefers : ∀ id, Refers' id ↔ Refers id) : l.Uses Named' Refers' := by
  rwa [show Named' = Named from funext fun c => propext (hnamed c),
    show Refers' = Refers from funext fun id => propext (hrefers id)]

theorem lift_bind {x : Except Error α} {f : α → Loading β} {Named : α → NamedCurve → Prop}
    {Refers : α → UInt64 → Prop} (h : ∀ a, (f a).Uses (Named a) (Refers a)) :
    ((liftM x : Loading α) >>= f).Uses (fun c => ∃ a, x = .ok a ∧ Named a c)
      fun id => ∃ a, x = .ok a ∧ Refers a id := by
  cases x with
  | error error =>
    have houtcome := outcome_lift_bind_of_error f (rfl : Except.error error = .error error)
    constructor
    · rintro c ⟨_, ⟨⟩, -⟩
    · intro _ r
      rw [houtcome]
    · rintro c ⟨_, ⟨⟩, -⟩
    · intro r r' _
      rw [houtcome, houtcome]
  | ok a =>
    have houtcome := outcome_lift_bind_of_ok f (rfl : Except.ok a = .ok a)
    constructor
    · rintro c ⟨_, ⟨⟩, hc⟩ r
      rw [houtcome, (h a).named hc]
    · intro hnone r
      rw [houtcome, (h a).unnamed fun c hc => hnone c ⟨a, rfl, hc⟩]
    · rintro c ⟨_, ⟨⟩, hc⟩ r
      rw [houtcome]
      exact (h a).afterCurve hc r
    · intro r r' hsame
      rw [houtcome, houtcome]
      exact (h a).sameResult fun id hid => hsame id ⟨a, rfl, hid⟩

theorem bind {l : Loading α} {f : α → Loading β} (h : l.Uses Named Refers)
    (hf : ∀ a, Settled (f a)) : (l >>= f).Uses Named Refers := by
  have hlater (a : α) : ∃ y, AfterCurve y ∧ ∀ r, (f a).outcome r = (y, r) := hf a
  choose g hg hfg using hlater
  have houtcome (r : Registry) : (l >>= f).outcome r = ((l.outcome r).1 >>= g, (l.outcome r).2) := by
    rcases hl : l.outcome r with ⟨error | a, r'⟩
    · exact outcome_bind_of_error f hl
    · exact (outcome_bind_of_ok f hl).trans (hfg a r')
  constructor
  · intro c hc r
    rw [houtcome, h.named hc]
  · intro hnone r
    rw [houtcome, h.unnamed hnone]
  · intro c hc r
    rw [houtcome]
    exact (h.afterCurve hc r).bind hg
  · intro r r' hsame
    rw [houtcome, houtcome, h.sameResult hsame]

theorem lift_bind_pure (x : Except Error α) (g : α → β) :
    ((liftM x : Loading α) >>= fun a => pure (g a)).Uses (fun _ => False) fun _ => False :=
  (lift x).bind fun a => .pure (g a)

theorem of_names {curve library : String} {f : NamedCurve → Loading α} (hf : ∀ c, Settled (f c)) :
    (do
      let c ← NamedCurve.ofNames curve library
      Loading.enable c
      f c : Loading α).Uses (fun c => NamedCurve.ofNames curve library = .ok c) fun _ => False := by
  apply (lift_bind fun c => (enable c).bind fun _ => hf c).congr
  · intro c
    constructor
    · intro hc
      exact ⟨c, hc, rfl⟩
    · rintro ⟨_, hc, rfl⟩
      exact hc
  · intro id
    simp only [and_false, exists_false]

end Uses

end Loading

open Loading

def ElGamal.Record.Names : Record → NamedCurve → Prop
  | named curve library _ _, c => NamedCurve.ofNames curve library = .ok c
  | compact .., _ => False

def ElGamal.Record.Refers : Record → UInt64 → Prop
  | named .., _ => False
  | compact id _ _, id' => id = id'

def ElGamal.PublicKey.Record.Names (record : Record) (c : NamedCurve) : Prop :=
  NamedCurve.ofNames record.curve record.library = .ok c

def ElGamal.SecretKey.Record.Names (record : Record) (c : NamedCurve) : Prop :=
  NamedCurve.ofNames record.curve record.library = .ok c

theorem ElGamal.Ciphertext.uses_ofRecord (record : Record) :
    (ofRecord record).Uses record.Names record.Refers := by
  cases record with
  | named curve library c1 c2 => exact .of_names fun c => .pure (c, c1, c2)
  | compact id c1 c2 => exact (Uses.lookup id).bind fun c => .pure (c, c1, c2)

theorem ElGamal.Ciphertext.uses_ofBytes (payload : Bytes) :
    (ofBytes payload : Loading (Ciphertext E)).Uses
      (fun c => ∃ record, Wire.decode Record.reader payload = .ok record ∧ record.Names c)
      fun id => ∃ record, Wire.decode Record.reader payload = .ok record ∧ record.Refers id := by
  apply Uses.lift_bind
  intro record
  apply (uses_ofRecord record).bind
  rintro ⟨curve, c1, c2⟩
  apply (Settled.lift (decodePoint_afterCurve E c1)).bind
  intro a
  apply (Settled.lift (decodePoint_afterCurve E c2)).bind
  intro b
  exact .pure _

theorem ElGamal.PublicKey.uses_ofBytes (payload : Bytes) :
    (ofBytes payload : Loading (PublicKey E)).Uses
      (fun c => ∃ record, Wire.decode reader payload = .ok record ∧ record.Names c)
      fun _ => ∃ record, Wire.decode reader payload = .ok record ∧ False := by
  apply Uses.lift_bind
  intro record
  apply Uses.of_names
  intro c
  apply (Settled.lift (decodePoint_afterCurve E record.y)).bind
  intro y
  exact .lift (ofParts_afterCurve c y record.maxPlaintext)

theorem ElGamal.SecretKey.uses_ofBytes (payload : Bytes) :
    (ofBytes payload : Loading (SecretKey E)).Uses
      (fun c => ∃ record, Wire.decode reader payload = .ok record ∧ record.Names c)
      fun _ => ∃ record, Wire.decode reader payload = .ok record ∧ False := by
  apply Uses.lift_bind
  intro record
  apply Uses.of_names
  intro c
  split
  · next x _ => exact .lift (ofParts_afterCurve c x record.maxPlaintext record.tableBits)
  · exact .lift (.error id)

def Wire.Says (reader : Wire.Reader α) (P : α → Prop) (bytes : Bytes) : Prop :=
  ∃ payload, bytes = Schema.elgamal.mark payload ∧
    ∃ record, Wire.decode reader payload = .ok record ∧ P record

theorem Loading.Uses.split {reader : Wire.Reader α} {f : Schema × Bytes → Loading β}
    {Named : α → NamedCurve → Prop} {Refers : α → UInt64 → Prop}
    (hpaillier : ∀ payload, (f (.paillier, payload)).Uses (fun _ => False) fun _ => False)
    (hou : ∀ payload, (f (.ou, payload)).Uses (fun _ => False) fun _ => False)
    (helgamal : ∀ payload, (f (.elgamal, payload)).Uses
      (fun c => ∃ record, Wire.decode reader payload = .ok record ∧ Named record c)
      fun id => ∃ record, Wire.decode reader payload = .ok record ∧ Refers record id)
    (bytes : Bytes) :
    ((liftM (Schema.split bytes) : Loading (Schema × Bytes)) >>= f).Uses
      (fun c => Wire.Says reader (Named · c) bytes)
      fun id => Wire.Says reader (Refers · id) bytes := by
  have hf (a : Schema × Bytes) : (f a).Uses
      (fun c => a.1 = .elgamal ∧ ∃ record, Wire.decode reader a.2 = .ok record ∧ Named record c)
      fun id => a.1 = .elgamal ∧ ∃ record, Wire.decode reader a.2 = .ok record ∧ Refers record id := by
    rcases a with ⟨_ | _ | _, payload⟩
    · exact (hpaillier payload).congr (fun c => by simp) fun id => by simp
    · exact (hou payload).congr (fun c => by simp) fun id => by simp
    · exact (helgamal payload).congr (fun c => by simp) fun id => by simp
  have hsays (P : α → Prop) : Wire.Says reader P bytes ↔ ∃ a, Schema.split bytes = .ok a ∧
      a.1 = .elgamal ∧ ∃ record, Wire.decode reader a.2 = .ok record ∧ P record := by
    constructor
    · rintro ⟨payload, hbytes, hrecord⟩
      exact ⟨(.elgamal, payload), Schema.split_eq_ok.mpr hbytes, rfl, hrecord⟩
    · rintro ⟨⟨_, payload⟩, hsplit, rfl, hrecord⟩
      exact ⟨payload, Schema.split_eq_ok.mp hsplit, hrecord⟩
  exact (lift_bind hf).congr (fun c => hsays (Named · c)) fun id => hsays (Refers · id)

theorem Ciphertext.uses_ofBytes (bytes : Bytes) :
    (ofBytes bytes : Loading (Ciphertext E)).Uses
      (fun c => Wire.Says ElGamal.Record.reader (·.Names c) bytes)
      fun id => Wire.Says ElGamal.Record.reader (·.Refers id) bytes := by
  apply Uses.split (fun _ => .lift_bind_pure _ _) (fun _ => .lift_bind_pure _ _)
  intro payload
  exact (ElGamal.Ciphertext.uses_ofBytes payload).bind fun c => .pure (elgamal c)

theorem PublicKey.uses_ofBytes (bytes : Bytes) :
    (ofBytes bytes : Loading (PublicKey E)).Uses
      (fun c => Wire.Says ElGamal.PublicKey.reader (·.Names c) bytes)
      fun _ => Wire.Says ElGamal.PublicKey.reader (fun _ => False) bytes := by
  apply Uses.split (fun _ => .lift_bind_pure _ _) (fun _ => .lift_bind_pure _ _)
  intro payload
  exact (ElGamal.PublicKey.uses_ofBytes payload).bind fun pk => .pure (elgamal pk)

theorem SecretKey.uses_ofBytes (test : ℕ → Bool) (bytes : Bytes) :
    (ofBytes test bytes : Loading (SecretKey E)).Uses
      (fun c => Wire.Says ElGamal.SecretKey.reader (·.Names c) bytes)
      fun _ => Wire.Says ElGamal.SecretKey.reader (fun _ => False) bytes := by
  apply Uses.split (fun _ => .lift_bind_pure _ _) (fun _ => .lift_bind_pure _ _)
  intro payload
  exact (ElGamal.SecretKey.uses_ofBytes payload).bind fun sk => .pure (elgamal sk)

/-- Accepted or refused, what is read adds to the registry the curve that it names and nothing else; it
adds nothing if it is refused before a known curve is named. What is read later comes out otherwise
only if it is a ciphertext that refers to that curve by number. -/
structure Loading.AddsNamed (E : PointGroup) (l : Loading α) (Named : NamedCurve → Prop) : Prop where
  contains_iff (r : Registry) (id : UInt64) : (l.outcome r).2.contains id = true ↔
    r.contains id = true ∨ ∃ c, Named c ∧ c.id = id
  unchanged {r : Registry} {error : Error} (h : (l.outcome r).1 = .error error)
    (hbefore : error.BeforeCurve) : (l.outcome r).2 = r
  later {r : Registry} {bytes : Bytes}
    (h : ((Ciphertext.ofBytes bytes : Loading (Ciphertext E)).outcome (l.outcome r).2).1 ≠
      ((Ciphertext.ofBytes bytes : Loading (Ciphertext E)).outcome r).1) :
    ∃ c, Named c ∧ Wire.Says ElGamal.Record.reader (·.Refers c.id) bytes

theorem Loading.Uses.addsNamed {l : Loading α} {Named : NamedCurve → Prop} {Refers : UInt64 → Prop}
    (h : l.Uses Named Refers) : l.AddsNamed E Named := by
  have hcontains (r : Registry) (id : UInt64) : (l.outcome r).2.contains id = true ↔
      r.contains id = true ∨ ∃ c, Named c ∧ c.id = id := by
    by_cases hnamed : ∃ c, Named c
    · obtain ⟨c, hc⟩ := hnamed
      rw [h.named hc, Registry.contains_enable]
      refine or_congr_right ⟨fun hid => ⟨c, hc, hid⟩, ?_⟩
      rintro ⟨c', -, hid⟩
      rwa [Subsingleton.elim c c']
    · rw [h.unnamed (not_exists.mp hnamed), or_iff_left]
      rintro ⟨c, hc, -⟩
      exact hnamed ⟨c, hc⟩
  refine ⟨hcontains, ?_, ?_⟩
  · intro r error herror hbefore
    apply h.unnamed
    intro c hc
    exact h.afterCurve hc r error herror hbefore
  · intro r bytes hne
    contrapose! hne
    apply (Ciphertext.uses_ofBytes bytes).sameResult
    intro id hrefers
    rw [Bool.eq_iff_iff, hcontains, or_iff_left]
    rintro ⟨c, hc, rfl⟩
    exact hne c hc hrefers

theorem reading_enables_named_curve (E : PointGroup) (test : ℕ → Bool) (bytes : Bytes) :
    (Ciphertext.ofBytes bytes : Loading (Ciphertext E)).AddsNamed E
      (fun c => Wire.Says ElGamal.Record.reader (·.Names c) bytes) ∧
    (PublicKey.ofBytes bytes : Loading (PublicKey E)).AddsNamed E
      (fun c => Wire.Says ElGamal.PublicKey.reader (·.Names c) bytes) ∧
    (SecretKey.ofBytes test bytes : Loading (SecretKey E)).AddsNamed E
      (fun c => Wire.Says ElGamal.SecretKey.reader (·.Names c) bytes) :=
  ⟨(Ciphertext.uses_ofBytes bytes).addsNamed, (PublicKey.uses_ofBytes bytes).addsNamed,
    (SecretKey.uses_ofBytes test bytes).addsNamed⟩

theorem refused_secret_key_enables_curve :
    ∃ bytes error r,
      bytes = Schema.elgamal.mark (ElGamal.putCurve .ristretto255 ++ List.replicate 32 255 ++
        Bytes.ofNat 8 1000 ++ Bytes.ofNat 4 4) ∧
      (SecretKey.ofBytes (fun n => decide n.Prime) bytes :
        Loading (SecretKey Ristretto.group)).outcome .empty = (.error error, r) ∧
      Registry.empty.contains NamedCurve.ristretto255.id = false ∧
      r.contains NamedCurve.ristretto255.id = true := by
  refine ⟨_, .keyState .scalarNotCanonical, Registry.empty.enable .ristretto255, rfl, ?_, rfl,
    Registry.contains_of_mem (Registry.mem_enable _ _)⟩
  have hlength : (List.replicate 32 (255 : UInt8)).length = PointGroup.width := List.length_replicate
  have hrecord := (ElGamal.SecretKey.reads .ristretto255 hlength 1000 4).decode
  have hscalar : Ristretto.group.canonicalScalar? (List.replicate 32 255) = none := by
    decide +kernel
  have hread : (ElGamal.SecretKey.ofBytes (ElGamal.putCurve .ristretto255 ++ List.replicate 32 255 ++
      Bytes.ofNat 8 1000 ++ Bytes.ofNat 4 4) : Loading (ElGamal.SecretKey Ristretto.group)).outcome
        .empty = (.error (.keyState .scalarNotCanonical), Registry.empty.enable .ristretto255) := by
    rw [ElGamal.SecretKey.ofBytes]
    refine (outcome_lift_bind_of_ok _ hrecord _).trans ?_
    rw [outcome_lift_bind_of_ok _ NamedCurve.ristretto255.ofNames_names,
      outcome_bind_of_ok _ (outcome_enable _ _)]
    dsimp only
    rw [hscalar]
    rfl
  rw [SecretKey.ofBytes, Schema.outcome_split_mark]
  exact outcome_bind_of_error _ hread

end Homomorphic
