import Homomorphic.Proofs.Forms
import Homomorphic.Proofs.NamedCurves

namespace Homomorphic

namespace ElGamal

open PointGroup Wire

variable {E : PointGroup} {bytes rest : Bytes} {r r' : Registry}

theorem length_encode_of_map_toLower {s t : String} (h : s.map Char.toLower = t) :
    (Utf8.encode s).length ≤ 4 * t.toList.length := by
  have hchars (chars : List Char) :
      (chars.flatMap String.utf8EncodeChar).length ≤ 4 * chars.length := by
    induction chars with
    | nil => simp
    | cons c chars ih =>
      have hsize := c.utf8Size_le_four
      rw [List.flatMap_cons, List.length_append, String.length_utf8EncodeChar, List.length_cons]
      omega
  subst h
  rw [String.toList_map, List.length_map]
  exact hchars s.toList

namespace Record

variable {record : Record}

def Fits : Record → Prop
  | named curve library c1 c2 => (Utf8.encode curve).length < 256 ^ 8 ∧
    (Utf8.encode library).length < 256 ^ 8 ∧ c1.length = width ∧ c2.length = width
  | compact _ c1 c2 => c1.length = width ∧ c2.length = width

theorem reads (h : record.Fits) : Reads reader record.put record := by
  cases record with
  | named curve library c1 c2 =>
    obtain ⟨hcurve, hlibrary, h1, h2⟩ := h
    exact reads_named h1 h2 hcurve hlibrary
  | compact id c1 c2 => exact reads_compact h.1 h.2 id

theorem of_readNamed (h : readNamed bytes = .ok (record, rest)) :
    Bytes.ofNat 4 0 ++ bytes = record.put ++ rest ∧ record.Fits := by
  simp only [readNamed, readPoint, read_bind_eq_ok, text_eq_ok, take_eq_ok, read_pure_eq_ok] at h
  obtain ⟨curve, _, ⟨rfl, hcurve⟩, library, _, ⟨rfl, hlibrary⟩, c1, _, ⟨rfl, h1⟩, c2, _, ⟨rfl, h2⟩,
    rfl, rfl⟩ := h
  exact ⟨by simp [put], hcurve, hlibrary, h1, h2⟩

theorem of_readCompact (h : readCompact bytes = .ok (record, rest)) :
    Bytes.ofNat 4 1 ++ bytes = record.put ++ rest ∧ record.Fits := by
  simp only [readCompact, readPoint, read_bind_eq_ok, word_eq_ok, take_eq_ok, read_pure_eq_ok] at h
  obtain ⟨id, _, ⟨rfl, hid⟩, c1, _, ⟨rfl, h1⟩, c2, _, ⟨rfl, h2⟩, rfl, rfl⟩ := h
  exact ⟨by simp [put, UInt64.toNat_ofNat_of_lt' hid], h1, h2⟩

theorem reader_eq_ok :
    reader bytes = .ok (record, rest) ↔ bytes = record.put ++ rest ∧ record.Fits := by
  constructor
  · intro h
    rw [reader_eq] at h
    obtain ⟨form, bytes', hform, hread⟩ := read_bind_eq_ok.mp h
    obtain ⟨rfl, -⟩ := word_eq_ok.mp hform
    split_ifs at hread with hnamed hcompact
    · subst hnamed
      exact of_readNamed hread
    · subst hcompact
      exact of_readCompact hread
    · cases hread
  · rintro ⟨rfl, hfits⟩
    exact reads hfits rest

theorem decode_eq_ok : Wire.decode reader bytes = .ok record ↔ bytes = record.put ∧ record.Fits := by
  rw [Wire.decode_eq_ok, reader_eq_ok, List.append_nil]

def form : Record → ℕ
  | named .. => 0
  | compact .. => 1

theorem form_of_put {n : ℕ} (hn : n < 256 ^ 4) (h : record.put = Bytes.ofNat 4 n ++ rest) :
    record.form = n := by
  have htag : Bytes.ofNat 4 record.form = Bytes.ofNat 4 n := by
    cases record
    all_goals
      simp only [put, List.append_assoc] at h
      exact (List.append_inj h (by rw [Bytes.length_ofNat, Bytes.length_ofNat])).1
  have hform : record.form < 256 ^ 4 := by
    cases record <;> simp [form]
  have hvalue := congrArg Bytes.toNat htag
  rwa [Bytes.toNat_ofNat, Bytes.toNat_ofNat, Nat.mod_eq_of_lt hform, Nat.mod_eq_of_lt hn] at hvalue

end Record

namespace Ciphertext

variable {c : Ciphertext E}

theorem outcome_ofBytes_eq_ok :
    (ofBytes bytes).outcome r = (.ok c, r') ↔ ∃ (record : Record) (c1 c2 : Bytes),
      bytes = record.put ∧ record.Fits ∧ record.Settles r (c.curve, c1, c2) r' ∧
        decodePoint E c1 = .ok c.c1 ∧ decodePoint E c2 = .ok c.c2 := by
  constructor
  · intro h
    obtain ⟨record, hrecord, h⟩ := Loading.outcome_lift_bind_eq_ok.mp h
    obtain ⟨⟨curve, c1, c2⟩, r₁, hsettles, h⟩ := Loading.outcome_bind_eq_ok.mp h
    obtain ⟨a, ha, h⟩ := Loading.outcome_lift_bind_eq_ok.mp h
    obtain ⟨b, hb, h⟩ := Loading.outcome_lift_bind_eq_ok.mp h
    cases h
    obtain ⟨hbytes, hfits⟩ := Record.decode_eq_ok.mp hrecord
    exact ⟨record, c1, c2, hbytes, hfits, outcome_ofRecord_eq_ok.mp hsettles, ha, hb⟩
  · rintro ⟨record, c1, c2, hbytes, hfits, hsettles, ha, hb⟩
    rw [ofBytes, Loading.outcome_lift_bind_of_ok _ (Record.decode_eq_ok.mpr ⟨hbytes, hfits⟩),
      Loading.outcome_bind_of_ok _ (outcome_ofRecord_eq_ok.mpr hsettles),
      Loading.outcome_lift_bind_of_ok _ ha, Loading.outcome_lift_bind_of_ok _ hb]
    rfl

/-- The two forms of an encoded ciphertext, with nothing left over. -/
inductive Accepted (E : PointGroup) (r : Registry) : Bytes → Prop
  | named {curve library : String} {c1 c2 : Bytes}
    (hcurve : curve.map Char.toLower = "ristretto255")
    (hlibrary : library.map Char.toLower = "curve25519-dalek") (h1 : E.IsEncoding c1)
    (h2 : E.IsEncoding c2) : Accepted E r (Record.named curve library c1 c2).put
  | compact {id : UInt64} {c1 c2 : Bytes} (hid : r.contains id = true) (h1 : E.IsEncoding c1)
    (h2 : E.IsEncoding c2) : Accepted E r (Record.compact id c1 c2).put

theorem isEncoding_of_decodePoint {a : E.Point} (h : decodePoint E bytes = .ok a) :
    E.IsEncoding bytes := by
  obtain ⟨hlength, hdecode⟩ := decodePoint_eq_ok.mp h
  exact ⟨hlength, hdecode ▸ rfl⟩

theorem exists_decodePoint_of_isEncoding (h : E.IsEncoding bytes) :
    ∃ a, decodePoint E bytes = .ok a := by
  obtain ⟨a, ha⟩ := Option.isSome_iff_exists.mp h.2
  exact ⟨a, decodePoint_eq_ok.mpr ⟨h.1, ha⟩⟩

theorem exists_outcome_ofBytes_iff :
    (∃ (c : Ciphertext E) (r' : Registry), (ofBytes bytes).outcome r = (.ok c, r')) ↔
      Accepted E r bytes := by
  constructor
  · rintro ⟨c, r', h⟩
    obtain ⟨record, c1, c2, rfl, -, hsettles, ha, hb⟩ := outcome_ofBytes_eq_ok.mp h
    generalize c.curve = curve at hsettles
    cases hsettles with
    | named hcurve hlibrary =>
      cases curve
      exact .named hcurve hlibrary (isEncoding_of_decodePoint ha) (isEncoding_of_decodePoint hb)
    | compact hr => exact .compact hr (isEncoding_of_decodePoint ha) (isEncoding_of_decodePoint hb)
  · intro h
    cases h with
    | @named curve library c1 c2 hcurve hlibrary h1 h2 =>
      obtain ⟨a, ha⟩ := exists_decodePoint_of_isEncoding h1
      obtain ⟨b, hb⟩ := exists_decodePoint_of_isEncoding h2
      -- The lengths of the names fit into their words, whatever the case of the letters.
      have hlength := length_encode_of_map_toLower hcurve
      have hlength' := length_encode_of_map_toLower hlibrary
      have hshort : 4 * "ristretto255".toList.length < 256 ^ 8 ∧
          4 * "curve25519-dalek".toList.length < 256 ^ 8 := by decide
      refine ⟨⟨.ristretto255, a, b⟩, r.enable .ristretto255, outcome_ofBytes_eq_ok.mpr
        ⟨_, c1, c2, rfl, ⟨?_, ?_, h1.1, h2.1⟩, .named hcurve hlibrary, ha, hb⟩⟩
      · omega
      · omega
    | @compact id c1 c2 hid h1 h2 =>
      obtain ⟨a, ha⟩ := exists_decodePoint_of_isEncoding h1
      obtain ⟨b, hb⟩ := exists_decodePoint_of_isEncoding h2
      obtain ⟨curve, -, rfl⟩ := Registry.contains_iff.mp hid
      exact ⟨⟨curve, a, b⟩, r, outcome_ofBytes_eq_ok.mpr
        ⟨_, c1, c2, rfl, ⟨h1.1, h2.1⟩, .compact hid, ha, hb⟩⟩

theorem encode_of_decodePoint (canonical : E.Canonical) {a : E.Point}
    (h : decodePoint E bytes = .ok a) : E.encode a = bytes ∧ bytes.length = width := by
  obtain ⟨hlength, hdecode⟩ := decodePoint_eq_ok.mp h
  exact ⟨canonical bytes a hlength hdecode, hlength⟩

theorem toBytes_of_compact (canonical : E.Canonical)
    (h : (ofBytes (Bytes.ofNat 4 1 ++ rest)).outcome r = (.ok c, r')) :
    c.toBytes = .ok (Bytes.ofNat 4 1 ++ rest) := by
  obtain ⟨record, c1, c2, hbytes, -, hsettles, ha, hb⟩ := outcome_ofBytes_eq_ok.mp h
  obtain ⟨rfl, h1⟩ := encode_of_decodePoint canonical ha
  obtain ⟨rfl, h2⟩ := encode_of_decodePoint canonical hb
  rw [hbytes, toBytes_eq_ok h1 h2]
  generalize c.curve = curve at hsettles
  cases hsettles with
  | named => exact absurd (Record.form_of_put (by decide) hbytes.symm) zero_ne_one
  | compact => rfl

theorem toBytes_of_named (canonical : E.Canonical)
    (h : (ofBytes (Bytes.ofNat 4 0 ++ rest)).outcome r = (.ok c, r')) :
    (∃ curve library c1 c2, Bytes.ofNat 4 0 ++ rest = (Record.named curve library c1 c2).put ∧
      c.toNamedBytes =
        .ok (Record.named (curve.map Char.toLower) (library.map Char.toLower) c1 c2).put) ∧
    ∃ compact, c.toBytes = .ok compact ∧ (ofBytes compact).outcome r' = (.ok c, r') := by
  obtain ⟨record, c1, c2, hbytes, -, hsettles, ha, hb⟩ := outcome_ofBytes_eq_ok.mp h
  obtain ⟨rfl, h1⟩ := encode_of_decodePoint canonical ha
  obtain ⟨rfl, h2⟩ := encode_of_decodePoint canonical hb
  have hnamed := toNamedBytes_eq_ok h1 h2
  -- The registry that the named record leaves has the curve that the compact one looks up.
  have hcompact : (ofBytes (Record.compact c.curve.id (E.encode c.c1) (E.encode c.c2)).put).outcome
      (r.enable c.curve) = (.ok c, r.enable c.curve) :=
    outcome_ofBytes_eq_ok.mpr ⟨_, _, _, rfl, ⟨h1, h2⟩,
      .compact (Registry.contains_of_mem (Registry.mem_enable r c.curve)), ha, hb⟩
  have hbytes' := toBytes_eq_ok h1 h2
  generalize c.curve = curve at hsettles hnamed hcompact hbytes'
  cases hsettles with
  | @named name library _ _ _ hcurve hlibrary =>
    rw [← hcurve, ← hlibrary] at hnamed
    exact ⟨⟨name, library, _, _, hbytes, hnamed⟩, _, hbytes', hcompact⟩
  | compact => exact absurd (Record.form_of_put (by decide) hbytes.symm) one_ne_zero

theorem registry_of_compact (rest : Bytes) (r : Registry) :
    ((ofBytes (Bytes.ofNat 4 1 ++ rest) : Loading (Ciphertext E)).outcome r).2 = r := by
  apply (uses_ofBytes (E := E) (Bytes.ofNat 4 1 ++ rest)).unnamed
  rintro c ⟨record, hrecord, hnames⟩
  obtain ⟨hbytes, -⟩ := Record.decode_eq_ok.mp hrecord
  cases record with
  | named => exact absurd (Record.form_of_put (by decide) hbytes.symm) zero_ne_one
  | compact => exact hnames

theorem accepted_iff_form (canonical : E.Canonical) (bytes : Bytes) (r : Registry) :
    ((∃ (c : Ciphertext E) (r' : Registry), (ofBytes bytes).outcome r = (.ok c, r')) ↔
      Accepted E r bytes) ∧
    (∀ rest, bytes = Bytes.ofNat 4 1 ++ rest →
      ((ofBytes bytes : Loading (Ciphertext E)).outcome r).2 = r ∧
      ∀ (c : Ciphertext E) (r' : Registry), (ofBytes bytes).outcome r = (.ok c, r') →
        c.toBytes = .ok bytes) ∧
    ∀ rest, bytes = Bytes.ofNat 4 0 ++ rest →
      ∀ (c : Ciphertext E) (r' : Registry), (ofBytes bytes).outcome r = (.ok c, r') →
        (∃ curve library c1 c2, bytes = (Record.named curve library c1 c2).put ∧ c.toNamedBytes =
          .ok (Record.named (curve.map Char.toLower) (library.map Char.toLower) c1 c2).put) ∧
        ∃ compact, c.toBytes = .ok compact ∧ (ofBytes compact).outcome r' = (.ok c, r') := by
  refine ⟨exists_outcome_ofBytes_iff, ?_, ?_⟩
  · rintro rest rfl
    exact ⟨registry_of_compact rest r, fun c r' h => toBytes_of_compact canonical h⟩
  · rintro rest rfl c r' h
    exact toBytes_of_named canonical h

def mixedCase : Record :=
  .named "Ristretto255" "CURVE25519-dalek" (List.replicate 32 0) (List.replicate 32 0)

theorem accepted_mixedCase :
    ∃ (c : Ciphertext (residues Ristretto.order (by decide))) (r : Registry) (compact : Bytes),
      (ofBytes mixedCase.put).outcome .empty = (.ok c, r) ∧
      (∃ c1 c2, c.toNamedBytes = .ok (Record.named "ristretto255" "curve25519-dalek" c1 c2).put) ∧
      c.toBytes = .ok compact ∧ (ofBytes compact).outcome r = (.ok c, r) := by
  obtain ⟨hiff, -, hnamed⟩ :=
    accepted_iff_form (canonical_residues (n := Ristretto.order) (by decide)) mixedCase.put .empty
  have hzeros : (residues Ristretto.order (by decide)).IsEncoding (List.replicate 32 0) :=
    isEncoding_residues _ List.length_replicate (by decide +kernel)
  have haccepted : Accepted (residues Ristretto.order (by decide)) .empty mixedCase.put :=
    .named (by decide +kernel) (by decide +kernel) hzeros hzeros
  obtain ⟨c, r, hread⟩ := hiff.mpr haccepted
  have hput : mixedCase.put = Bytes.ofNat 4 0 ++ (putText "Ristretto255" ++
      (putText "CURVE25519-dalek" ++ (List.replicate 32 0 ++ List.replicate 32 0))) := by
    simp only [mixedCase, Record.put, List.append_assoc]
  obtain ⟨⟨curve, library, c1, c2, -, hwritten⟩, compact, hcompact, hread'⟩ := hnamed _ hput c r hread
  have hnames := (encode_eq_ok.mp hwritten).2
  rw [Subsingleton.elim c.curve .ristretto255] at hnames
  exact ⟨c, r, compact, hread, ⟨_, _, hwritten.trans (congrArg _ hnames)⟩, hcompact, hread'⟩

end Ciphertext

end ElGamal

end Homomorphic
