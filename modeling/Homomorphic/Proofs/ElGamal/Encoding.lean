import Homomorphic.ElGamal.Cipher
import Homomorphic.Proofs.ElGamal.Key
import Homomorphic.Proofs.Loading
import Homomorphic.Proofs.Wire

namespace Homomorphic

theorem NamedCurve.ofNames_eq_ok {curve library : String} {c : NamedCurve} :
    ofNames curve library = .ok c ↔
      curve.map Char.toLower = c.curve ∧ library.map Char.toLower = c.library := by
  cases c
  rw [ofNames]
  split
  · next h => exact iff_of_true rfl h
  · next h => exact iff_of_false nofun h

theorem NamedCurve.ofNames_names (c : NamedCurve) : ofNames c.curve c.library = .ok c := by
  cases c
  decide +kernel

namespace ElGamal

open PointGroup Wire

theorem length_curve (c : NamedCurve) : (Utf8.encode c.curve).length < 256 ^ 8 := by
  cases c
  decide +kernel

theorem length_library (c : NamedCurve) : (Utf8.encode c.library).length < 256 ^ 8 := by
  cases c
  decide +kernel

theorem reads_curve (c : NamedCurve) : Reads text (putText c.curve) c.curve :=
  reads_text (length_curve c)

theorem reads_library (c : NamedCurve) : Reads text (putText c.library) c.library :=
  reads_text (length_library c)

theorem length_putCurve (c : NamedCurve) : (putCurve c).length = 44 := by
  cases c
  decide +kernel

theorem reads_word64 (x : UInt64) : Reads (word 8) (Bytes.ofNat 8 x.toNat) x.toNat :=
  .word x.toNat_lt

theorem reads_word32 (x : UInt32) : Reads (word 4) (Bytes.ofNat 4 x.toNat) x.toNat :=
  .word x.toNat_lt

variable {E : PointGroup} {bytes : Bytes}

theorem decodePoint_eq_ok {a : E.Point} :
    decodePoint E bytes = .ok a ↔ bytes.length = width ∧ E.decode bytes = some a := by
  rw [decodePoint]
  split
  · next hlength =>
    cases E.decode bytes <;> simp [hlength]
  · next hlength => simp [hlength]

theorem exists_decodePoint (h : E.Encodes) {a : E.Point} (ha : E.Made a) :
    ∃ b, decodePoint E (E.encode a) = .ok b ∧ E.Made b ∧ E.same b a = true := by
  obtain ⟨b, hb, hsame⟩ := h.decode_encode ha
  exact ⟨b, decodePoint_eq_ok.mpr ⟨h.length_encode ha, hb⟩, .decode hb, hsame⟩

namespace PublicKey

variable {pk pk' : PublicKey E}

theorem reads (c : NamedCurve) {y : Bytes} (hy : y.length = width) (bound : UInt64) :
    Reads reader (putCurve c ++ y ++ Bytes.ofNat 8 bound.toNat) ⟨c.curve, c.library, y, bound⟩ := by
  intro rest
  simp only [putCurve, List.append_assoc]
  rw [reader, bind_of_ok (reads_curve c _), bind_of_ok (reads_library c _),
    bind_of_ok (Reads.take .endOfBytes hy _), bind_of_ok (reads_word64 bound _), UInt64.ofNat_toNat]
  rfl

theorem beq_iff :
    (pk == pk') = true ↔
      pk.curve = pk'.curve ∧ E.same pk.y pk'.y = true ∧ pk.maxPlaintext = pk'.maxPlaintext := by
  change (decide (pk.curve = pk'.curve) && E.same pk.y pk'.y && pk.maxPlaintext == pk'.maxPlaintext) =
    true ↔ _
  rw [Bool.and_eq_true, Bool.and_eq_true, decide_eq_true_iff, beq_iff_eq, and_assoc]

theorem exists_toBytes (hlength : (E.encode pk.y).length = width) :
    ∃ bytes, pk.toBytes = .ok bytes := by
  refine ⟨_, encode_eq_ok.mpr ⟨?_, rfl⟩⟩
  rw [List.length_append, List.length_append, length_putCurve, hlength, Bytes.length_ofNat]
  decide

theorem exists_outcome_ofBytes (codec : E.Encodes) (hmade : E.Made pk.y)
    (h : pk.toBytes = .ok bytes) (r : Registry) :
    ∃ pk', (ofBytes bytes).outcome r = (.ok pk', r.enable pk.curve) ∧ (pk' == pk) = true ∧
      E.Made pk'.y := by
  obtain ⟨-, rfl⟩ := encode_eq_ok.mp h
  obtain ⟨y, hy, hmade', hsame⟩ := exists_decodePoint codec hmade
  have hne : E.same y E.zero = false := by
    rw [Bool.eq_false_iff]
    intro hzero
    have hidentity := codec.same_trans hmade hmade' .zero (codec.same_symm hmade' hmade hsame) hzero
    rw [pk.y_ne] at hidentity
    cases hidentity
  obtain ⟨pk', hpk', hcurve, hy', hbound⟩ :
      ∃ pk', ofParts pk.curve y pk.maxPlaintext = .ok pk' ∧ pk'.curve = pk.curve ∧ pk'.y = y ∧
        pk'.maxPlaintext = pk.maxPlaintext := exists_ofParts hne pk.valid
  refine ⟨pk', ?_, beq_iff.mpr ⟨hcurve, hy' ▸ hsame, hbound⟩, hy' ▸ hmade'⟩
  have hrecord := (reads pk.curve (codec.length_encode hmade) pk.maxPlaintext).decode
  rw [ofBytes, Loading.outcome_lift_bind_of_ok _ hrecord,
    Loading.outcome_lift_bind_of_ok _ pk.curve.ofNames_names,
    Loading.outcome_bind_of_ok _ (Loading.outcome_enable _ _), Loading.outcome_lift_bind_of_ok _ hy,
    Loading.outcome_lift, hpk']

theorem toBytes_eq_iff (codec : E.Encodes) (hmade : E.Made pk.y) (hmade' : E.Made pk'.y)
    {bytes' : Bytes} (h : pk.toBytes = .ok bytes) (h' : pk'.toBytes = .ok bytes') :
    bytes = bytes' ↔ (pk == pk') = true := by
  obtain ⟨-, rfl⟩ := encode_eq_ok.mp h
  obtain ⟨-, rfl⟩ := encode_eq_ok.mp h'
  have hreads := reads pk.curve (codec.length_encode hmade) pk.maxPlaintext
  have hreads' := reads pk'.curve (codec.length_encode hmade') pk'.maxPlaintext
  rw [beq_iff, ← codec.encode_eq_iff hmade hmade']
  constructor
  · intro heq
    rw [heq] at hreads
    have hrecord := hreads.value_eq hreads'
    exact ⟨Subsingleton.elim _ _, congrArg Record.y hrecord, congrArg Record.maxPlaintext hrecord⟩
  · rintro ⟨hcurve, hy, hbound⟩
    rw [hcurve, hy, hbound]

theorem outcome_ofBytes_secretKey {sk : SecretKey E} (h : sk.toBytes = .ok bytes) (r : Registry) :
    (ofBytes bytes : Loading (PublicKey E)).outcome r = (.error (.wire .trailingBytes), r) := by
  obtain ⟨-, rfl⟩ := encode_eq_ok.mp h
  have hreads := reads sk.curve (length_scalarBytes sk.x) sk.maxPlaintext
  have hrest : Bytes.ofNat 4 sk.tableBits.toNat ≠ [] := by
    apply List.ne_nil_of_length_pos
    rw [Bytes.length_ofNat]
    decide
  rw [ofBytes, Loading.outcome_lift_bind_of_error _ (hreads.decode_append hrest)]

end PublicKey

namespace SecretKey

theorem reads (c : NamedCurve) {x : Bytes} (hx : x.length = width) (bound : UInt64)
    (tableBits : UInt32) :
    Reads reader
      (putCurve c ++ x ++ Bytes.ofNat 8 bound.toNat ++ Bytes.ofNat 4 tableBits.toNat)
      ⟨c.curve, c.library, x, bound, tableBits⟩ := by
  intro rest
  simp only [putCurve, List.append_assoc]
  rw [reader, bind_of_ok (reads_curve c _), bind_of_ok (reads_library c _),
    bind_of_ok (Reads.take .endOfBytes hx _), bind_of_ok (reads_word64 bound _),
    bind_of_ok (reads_word32 tableBits _), UInt64.ofNat_toNat, UInt32.ofNat_toNat]
  rfl

theorem ofParts_self (sk : SecretKey E) :
    ofParts sk.curve sk.x sk.maxPlaintext sk.tableBits = .ok sk := by
  obtain ⟨curve, x, bound, tableBits, steps, x_pos, x_lt, valid, steps_eq⟩ := sk
  have hmod : x % E.order = x := Nat.mod_eq_of_lt x_lt
  have hsteps : (Thunk.mk fun _ => BabySteps.build E tableBits) = steps := by
    obtain ⟨fn⟩ := steps
    congr 1
    funext u
    exact steps_eq.symm
  rw [ofParts, dif_pos (by rwa [hmod])]
  split
  · subst hsteps
    simp only [hmod]
  · next herror =>
    rw [valid] at herror
    cases herror

theorem exists_toBytes (sk : SecretKey E) : ∃ bytes, sk.toBytes = .ok bytes := by
  refine ⟨_, encode_eq_ok.mpr ⟨?_, rfl⟩⟩
  rw [List.length_append, List.length_append, List.length_append, length_putCurve,
    length_scalarBytes, Bytes.length_ofNat, Bytes.length_ofNat]
  decide

theorem outcome_ofBytes_of_toBytes (horder : E.order ≤ 256 ^ width) {sk : SecretKey E}
    (h : sk.toBytes = .ok bytes) (r : Registry) :
    (ofBytes bytes).outcome r = (.ok sk, r.enable sk.curve) := by
  obtain ⟨-, rfl⟩ := encode_eq_ok.mp h
  have hrecord := (reads sk.curve (length_scalarBytes sk.x) sk.maxPlaintext sk.tableBits).decode
  rw [ofBytes, Loading.outcome_lift_bind_of_ok _ hrecord,
    Loading.outcome_lift_bind_of_ok _ sk.curve.ofNames_names,
    Loading.outcome_bind_of_ok _ (Loading.outcome_enable _ _),
    canonicalScalar?_scalarBytes horder sk.x_lt]
  exact (Loading.outcome_lift _ _).trans (congrArg (·, _) sk.ofParts_self)

theorem outcome_ofBytes_publicKey {pk : PublicKey E} (hlength : (E.encode pk.y).length = width)
    (h : pk.toBytes = .ok bytes) (r : Registry) :
    (ofBytes bytes : Loading (SecretKey E)).outcome r = (.error (.wire .endOfBytes), r) := by
  obtain ⟨-, rfl⟩ := encode_eq_ok.mp h
  have hend : reader (putCurve pk.curve ++ E.encode pk.y ++ Bytes.ofNat 8 pk.maxPlaintext.toNat) =
      .error .endOfBytes := by
    rw [putCurve, List.append_assoc, List.append_assoc, reader, bind_of_ok (reads_curve _ _),
      bind_of_ok (reads_library _ _), bind_of_ok (Reads.take .endOfBytes hlength _),
      ← List.append_nil (Bytes.ofNat 8 _), bind_of_ok (reads_word64 _ _)]
    exact bind_of_error (word_nil 3)
  rw [ofBytes, Loading.outcome_lift_bind_of_error _ (decode_of_error hend)]

end SecretKey

namespace Record

inductive Settles (r : Registry) : Record → NamedCurve × Bytes × Bytes → Registry → Prop
  | named {curve library c1 c2} {c : NamedCurve} (hcurve : curve.map Char.toLower = c.curve)
    (hlibrary : library.map Char.toLower = c.library) :
    Settles r (.named curve library c1 c2) (c, c1, c2) (r.enable c)
  | compact {c1 c2} {c : NamedCurve} (h : r.contains c.id = true) :
    Settles r (.compact c.id c1 c2) (c, c1, c2) r

variable {c1 c2 : Bytes} (h1 : c1.length = width) (h2 : c2.length = width)

include h1 h2

theorem reads_named {curve library : String} (hcurve : (Utf8.encode curve).length < 256 ^ 8)
    (hlibrary : (Utf8.encode library).length < 256 ^ 8) :
    Reads reader (named curve library c1 c2).put (named curve library c1 c2) := by
  intro rest
  simp only [put, List.append_assoc]
  rw [reader, bind_of_ok (Reads.word (by decide) _), if_pos rfl, bind_of_ok (reads_text hcurve _),
    bind_of_ok (reads_text hlibrary _), readPoint, bind_of_ok (Reads.take .endOfBytes h1 _),
    bind_of_ok (Reads.take .endOfBytes h2 _)]
  rfl

theorem reads_compact (id : UInt64) : Reads reader (compact id c1 c2).put (compact id c1 c2) := by
  intro rest
  simp only [put, List.append_assoc]
  rw [reader, bind_of_ok (Reads.word (by decide) _), if_neg Nat.one_ne_zero, if_pos rfl,
    bind_of_ok (reads_word64 id _), readPoint, bind_of_ok (Reads.take .endOfBytes h1 _),
    bind_of_ok (Reads.take .endOfBytes h2 _), UInt64.ofNat_toNat]
  rfl

end Record

namespace Ciphertext

variable {c c' : Ciphertext E}

structure Made (c : Ciphertext E) : Prop where
  c1 : E.Made c.c1
  c2 : E.Made c.c2

theorem beq_iff :
    (c == c') = true ↔
      c.curve = c'.curve ∧ E.same c.c1 c'.c1 = true ∧ E.same c.c2 c'.c2 = true := by
  change (decide (c.curve = c'.curve) && E.same c.c1 c'.c1 && E.same c.c2 c'.c2) = true ↔ _
  rw [Bool.and_eq_true, Bool.and_eq_true, decide_eq_true_iff, and_assoc]

theorem toBytes_eq_ok (h1 : (E.encode c.c1).length = width) (h2 : (E.encode c.c2).length = width) :
    c.toBytes = .ok (Record.compact c.curve.id (E.encode c.c1) (E.encode c.c2)).put := by
  refine encode_eq_ok.mpr ⟨?_, rfl⟩
  rw [Record.put, List.length_append, List.length_append, List.length_append, Bytes.length_ofNat,
    Bytes.length_ofNat, h1, h2]
  decide

theorem toNamedBytes_eq_ok (h1 : (E.encode c.c1).length = width)
    (h2 : (E.encode c.c2).length = width) :
    c.toNamedBytes =
      .ok (Record.named c.curve.curve c.curve.library (E.encode c.c1) (E.encode c.c2)).put := by
  refine encode_eq_ok.mpr ⟨?_, rfl⟩
  rw [Record.put, List.append_assoc (Bytes.ofNat 4 0), ← putCurve, List.length_append,
    List.length_append, List.length_append, Bytes.length_ofNat, length_putCurve, h1, h2]
  decide

theorem exists_toBytes (codec : E.Encodes) (hmade : c.Made) : ∃ bytes, c.toBytes = .ok bytes :=
  ⟨_, toBytes_eq_ok (codec.length_encode hmade.c1) (codec.length_encode hmade.c2)⟩

theorem exists_toNamedBytes (codec : E.Encodes) (hmade : c.Made) :
    ∃ bytes, c.toNamedBytes = .ok bytes :=
  ⟨_, toNamedBytes_eq_ok (codec.length_encode hmade.c1) (codec.length_encode hmade.c2)⟩

theorem outcome_ofRecord_eq_ok {record : Record} {x : NamedCurve × Bytes × Bytes} :
    (ofRecord record).outcome r = (.ok x, r') ↔ record.Settles r x r' := by
  constructor
  · intro h
    cases record with
    | named curve library c1 c2 =>
      obtain ⟨c, hc, h⟩ := Loading.outcome_lift_bind_eq_ok.mp h
      obtain ⟨hcurve, hlibrary⟩ := NamedCurve.ofNames_eq_ok.mp hc
      rw [Loading.outcome_bind_of_ok _ (Loading.outcome_enable c r)] at h
      cases h
      exact .named hcurve hlibrary
    | compact id c1 c2 =>
      obtain ⟨c, r₁, hc, hpure⟩ := Loading.outcome_bind_eq_ok.mp h
      rw [Loading.outcome_lookup, Prod.mk.injEq] at hc
      obtain ⟨hlookup, rfl⟩ := hc
      obtain ⟨hr, rfl⟩ := Registry.lookup_eq_ok.mp hlookup
      cases hpure
      exact .compact hr
  · intro h
    cases h with
    | named hcurve hlibrary =>
      rw [ofRecord, Loading.outcome_lift_bind_of_ok _ (NamedCurve.ofNames_eq_ok.mpr ⟨hcurve, hlibrary⟩),
        Loading.outcome_bind_of_ok _ (Loading.outcome_enable _ _)]
      rfl
    | @compact c1 c2 c hr =>
      have hlookup : (Loading.lookup c.id).outcome r = (.ok c, r) := by
        rw [Loading.outcome_lookup, Registry.lookup_of_contains hr]
      rw [ofRecord, Loading.outcome_bind_of_ok _ hlookup]
      rfl

theorem exists_outcome_ofBytes (codec : E.Encodes) (hmade : c.Made) {record : Record}
    (hrecord : Wire.decode Record.reader bytes = .ok record) {r r' : Registry}
    (hcurve : (ofRecord record).outcome r = (.ok (c.curve, E.encode c.c1, E.encode c.c2), r')) :
    ∃ c', (ofBytes bytes).outcome r = (.ok c', r') ∧ (c' == c) = true ∧ c'.Made := by
  obtain ⟨a, ha, hmadeA, hsameA⟩ := exists_decodePoint codec hmade.c1
  obtain ⟨b, hb, hmadeB, hsameB⟩ := exists_decodePoint codec hmade.c2
  refine ⟨⟨c.curve, a, b⟩, ?_, beq_iff.mpr ⟨rfl, hsameA, hsameB⟩, hmadeA, hmadeB⟩
  rw [ofBytes, Loading.outcome_lift_bind_of_ok _ hrecord, Loading.outcome_bind_of_ok _ hcurve,
    Loading.outcome_lift_bind_of_ok _ ha, Loading.outcome_lift_bind_of_ok _ hb]
  rfl

theorem exists_outcome_ofBytes_named (codec : E.Encodes) (hmade : c.Made)
    (h : c.toNamedBytes = .ok bytes) (r : Registry) :
    ∃ c', (ofBytes bytes).outcome r = (.ok c', r.enable c.curve) ∧ (c' == c) = true ∧ c'.Made := by
  obtain ⟨-, rfl⟩ := encode_eq_ok.mp h
  have hreads := Record.reads_named (codec.length_encode hmade.c1) (codec.length_encode hmade.c2)
    (length_curve c.curve) (length_library c.curve)
  obtain ⟨hcurve, hlibrary⟩ := NamedCurve.ofNames_eq_ok.mp c.curve.ofNames_names
  exact exists_outcome_ofBytes codec hmade hreads.decode
    (outcome_ofRecord_eq_ok.mpr (.named hcurve hlibrary))

theorem exists_outcome_ofBytes_compact (codec : E.Encodes) (hmade : c.Made)
    (h : c.toBytes = .ok bytes) {r : Registry} (hr : r.contains c.curve.id = true) :
    ∃ c', (ofBytes bytes).outcome r = (.ok c', r) ∧ (c' == c) = true ∧ c'.Made := by
  obtain ⟨-, rfl⟩ := encode_eq_ok.mp h
  have hreads := Record.reads_compact (codec.length_encode hmade.c1) (codec.length_encode hmade.c2)
    c.curve.id
  exact exists_outcome_ofBytes codec hmade hreads.decode (outcome_ofRecord_eq_ok.mpr (.compact hr))

theorem toBytes_eq_iff (codec : E.Encodes) (hmade : c.Made) (hmade' : c'.Made) {bytes' : Bytes}
    (h : c.toBytes = .ok bytes) (h' : c'.toBytes = .ok bytes') :
    bytes = bytes' ↔ (c == c') = true := by
  obtain ⟨-, rfl⟩ := encode_eq_ok.mp h
  obtain ⟨-, rfl⟩ := encode_eq_ok.mp h'
  have hreads := Record.reads_compact (codec.length_encode hmade.c1) (codec.length_encode hmade.c2)
    c.curve.id
  have hreads' := Record.reads_compact (codec.length_encode hmade'.c1)
    (codec.length_encode hmade'.c2) c'.curve.id
  rw [beq_iff, ← codec.encode_eq_iff hmade.c1 hmade'.c1, ← codec.encode_eq_iff hmade.c2 hmade'.c2]
  constructor
  · intro heq
    rw [heq] at hreads
    have hrecord := hreads.value_eq hreads'
    injection hrecord with _ h1 h2
    exact ⟨Subsingleton.elim _ _, h1, h2⟩
  · rintro ⟨hcurve, h1, h2⟩
    rw [hcurve, h1, h2]

end Ciphertext

end ElGamal

end Homomorphic
