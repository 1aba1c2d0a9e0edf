import Homomorphic.Proofs.Forms

namespace Homomorphic

theorem Bytes.value_replicate (count : ℕ) : value (List.replicate count 255) + 1 = 256 ^ count := by
  induction count with
  | zero => rfl
  | succ count ih =>
    rw [List.replicate_succ, value_cons, pow_succ, ← ih]
    have hbyte : (255 : UInt8).toNat = 255 := rfl
    omega

namespace Wire

variable {form : Form} {bytes : Bytes} {v : form.Value}

theorem Form.put_of_decode (h : decode form.reader bytes = .ok v) :
    (form.put v).length ≤ bytes.length ∧ decode form.reader (form.put v) = .ok v := by
  obtain ⟨-, -, _, rfl, hlength, hreads⟩ := form.takes.of_decode h
  exact ⟨hlength, hreads.decode⟩

theorem Form.encode_put_eq_ok_iff (h : decode form.reader bytes = .ok v) :
    encode (form.put v) = .ok (form.put v) ↔
      ∃ bytes', bytes'.length ≤ Limits.maxWireBytes ∧ decode form.reader bytes' = .ok v := by
  obtain ⟨-, hput⟩ := form.put_of_decode h
  constructor
  · intro hencode
    obtain ⟨hlength, -⟩ := encode_eq_ok.mp hencode
    exact ⟨form.put v, hlength, hput⟩
  · rintro ⟨bytes', hlength, hdecode⟩
    obtain ⟨hshort, -⟩ := form.put_of_decode hdecode
    exact encode_eq_ok.mpr ⟨hshort.trans hlength, rfl⟩

theorem Form.encode_put_eq_error_iff (h : decode form.reader bytes = .ok v) :
    encode (form.put v) = .error (.wire .sizeLimit) ↔
      ∀ bytes', decode form.reader bytes' = .ok v → Limits.maxWireBytes < bytes'.length := by
  obtain ⟨-, hput⟩ := form.put_of_decode h
  rw [encode_eq_error, and_iff_left rfl]
  constructor
  · intro hlength bytes' hdecode
    exact hlength.trans_le (form.put_of_decode hdecode).1
  · intro hall
    exact hall _ hput

theorem decode_putNatural {n : ℕ} (h : digitCount n < 256 ^ 8) :
    decode Form.natural.reader (putNatural n) = .ok n := (reads_natural_of_lt h).decode

/-- What has been read is written in no more bytes, which read back. It fails to be written just if it can
be read from no bytes within the cap. -/
theorem encode_of_decode_iff_within_cap (h : decode form.reader bytes = .ok v) :
    (form.put v).length ≤ bytes.length ∧ decode form.reader (form.put v) = .ok v ∧
      (encode (form.put v) = .ok (form.put v) ↔
        ∃ bytes', bytes'.length ≤ Limits.maxWireBytes ∧ decode form.reader bytes' = .ok v) ∧
      (encode (form.put v) = .error (.wire .sizeLimit) ↔
        ∀ bytes', decode form.reader bytes' = .ok v → Limits.maxWireBytes < bytes'.length) := by
  obtain ⟨hlength, hdecode⟩ := form.put_of_decode h
  exact ⟨hlength, hdecode, form.encode_put_eq_ok_iff h, form.encode_put_eq_error_iff h⟩

theorem encode_of_decode_seven_zero :
    decode Form.pair.reader (Bytes.ofNat 8 2 ++ Bytes.ofNat 8 7 ++ Bytes.ofNat 8 0) = .ok (7, 0) ∧
      encode (Form.pair.put (7, 0)) = .ok (Form.pair.put (7, 0)) := by
  -- The first number has a digit too many.
  have hread : decode Form.pair.reader
      (Bytes.ofNat 8 2 ++ Bytes.ofNat 8 7 ++ Bytes.ofNat 8 0) = .ok (7, 0) := by
    rfl
  obtain ⟨-, -, hencode, -⟩ := encode_of_decode_iff_within_cap hread
  exact ⟨hread, hencode.mpr ⟨_, by decide, hread⟩⟩

theorem digitCount_replicate {count : ℕ} (h : 0 < count) :
    digitCount (Bytes.toNat (List.replicate (4 * count) 255)) = count := by
  have hvalue := Bytes.value_replicate (4 * count)
  rw [← Bytes.toNat_eq_value] at hvalue
  apply le_antisymm
  · rw [digitCount_le]
    omega
  · by_contra hlt
    have hsmall := digitCount_le.mp (Nat.le_sub_one_of_lt (Nat.lt_of_not_le hlt))
    have hpow : 256 ^ (4 * (count - 1)) < 256 ^ (4 * count) :=
      Nat.pow_lt_pow_right (by decide) (by omega)
    omega

theorem putNatural_replicate {count : ℕ} (h : 0 < count) :
    putNatural (Bytes.toNat (List.replicate (4 * count) 255)) =
      Bytes.ofNat 8 count ++ List.replicate (4 * count) 255 := by
  have hdigits := Bytes.ofNat_toNat (List.replicate (4 * count) 255)
  rw [List.length_replicate] at hdigits
  rw [putNatural, digitCount_replicate h, hdigits]

theorem decode_beyond_cap :
    ∃ bytes n, bytes = Bytes.ofNat 8 262143 ++ List.replicate (4 * 262143) 255 ∧
      bytes.length = Limits.maxWireBytes + 4 ∧
      decode Form.natural.reader bytes = .ok n ∧
      encode (Form.natural.put n) = .error (.wire .sizeLimit) := by
  have hpos : 0 < 262143 := by decide
  have hput := putNatural_replicate hpos
  have hcount := digitCount_replicate hpos
  generalize Bytes.toNat (List.replicate (4 * 262143) 255) = n at hput hcount
  have hlength : (putNatural n).length = Limits.maxWireBytes + 4 := by
    rw [length_putNatural, hcount]
    rfl
  have hdecode := decode_putNatural (n := n) (by rw [hcount]; decide)
  have hencode : encode (putNatural n) = .error (.wire .sizeLimit) :=
    encode_eq_error.mpr ⟨by omega, rfl⟩
  exact ⟨putNatural n, n, hput, hlength, hdecode, hencode⟩

end Wire

end Homomorphic
