import Homomorphic.Bytes.Laws
import Homomorphic.Number.Laws
import Homomorphic.Proofs.Text.Utf8
import Homomorphic.Wire

namespace Homomorphic.Wire

variable {α β : Type} {reader : Reader α} {bytes first second rest : Bytes} {a : α} {b : β}

def Reads (reader : Reader α) (bytes : Bytes) (a : α) : Prop :=
  ∀ rest, reader (bytes ++ rest) = .ok (a, rest)

theorem bind_of_ok {next : α → Reader β} (h : reader bytes = .ok (a, rest)) :
    (reader >>= next) bytes = next a rest := by
  change Except.bind (reader bytes) _ = _
  rw [h]
  rfl

theorem bind_of_error {next : α → Reader β} {fault : WireFault} (h : reader bytes = .error fault) :
    (reader >>= next) bytes = .error fault := by
  change Except.bind (reader bytes) _ = _
  rw [h]
  rfl

namespace Reads

theorem pure (a : α) : Reads (Pure.pure a) [] a := fun _ => rfl

theorem bind {next : α → Reader β} (h : Reads reader first a) (h' : Reads (next a) second b) :
    Reads (reader >>= next) (first ++ second) b := by
  intro rest
  rw [List.append_assoc, bind_of_ok (h _)]
  exact h' rest

theorem map (h : Reads reader bytes a) (f : α → β) :
    Reads (reader >>= fun a => Pure.pure (f a)) bytes (f a) := by
  have hmap : Reads (reader >>= fun a => Pure.pure (f a)) (bytes ++ []) (f a) := h.bind (pure (f a))
  rwa [List.append_nil] at hmap

theorem decode (h : Reads reader bytes a) : decode reader bytes = .ok a := by
  have hread := h []
  rw [List.append_nil] at hread
  rw [Wire.decode, hread]

theorem decode_append (h : Reads reader bytes a) (hrest : rest ≠ []) :
    Wire.decode reader (bytes ++ rest) = .error (.wire .trailingBytes) := by
  obtain ⟨x, xs, rfl⟩ := List.exists_cons_of_ne_nil hrest
  rw [Wire.decode, h]

theorem value_eq {a' : α} (h : Reads reader bytes a) (h' : Reads reader bytes a') : a = a' := by
  have hread := (h []).symm.trans (h' [])
  simpa using hread

theorem take {count : ℕ} (fault : WireFault) (h : bytes.length = count) :
    Reads (take count fault) bytes bytes := by
  intro rest
  have hle : count ≤ (bytes ++ rest).length := by
    rw [List.length_append]
    omega
  rw [Wire.take, if_pos hle, List.take_left' h, List.drop_left' h]

theorem word {width n : ℕ} (h : n < 256 ^ width) : Reads (word width) (Bytes.ofNat width n) n := by
  have hread := (take .endOfBytes (Bytes.length_ofNat width n)).map Bytes.toNat
  rwa [Bytes.toNat_ofNat, Nat.mod_eq_of_lt h] at hread

end Reads

theorem word_nil (width : ℕ) : word (width + 1) [] = .error .endOfBytes := rfl

theorem natural_nil : natural [] = .error .endOfBytes := rfl

theorem decode_of_error {fault : WireFault} (h : reader bytes = .error fault) :
    decode reader bytes = .error (.wire fault) := by
  rw [decode, h]

theorem decode_eq_ok : decode reader bytes = .ok a ↔ reader bytes = .ok (a, []) := by
  rw [decode]
  split <;> simp_all

theorem encode_eq_ok : encode bytes = .ok rest ↔ bytes.length ≤ Limits.maxWireBytes ∧ rest = bytes := by
  rw [encode]
  split
  · next h => simp [h, eq_comm]
  · next h => simp [h]

theorem encode_eq_error {error : Error} :
    encode bytes = .error error ↔ Limits.maxWireBytes < bytes.length ∧ error = .wire .sizeLimit := by
  rw [encode, ← Nat.not_le]
  split
  · next h => simp [h]
  · next h => simp [h, eq_comm]

theorem digitCount_le {n count : ℕ} : digitCount n ≤ count ↔ n < 256 ^ (4 * count) := by
  have hbits : digitCount n ≤ count ↔ bitLength n ≤ 8 * (4 * count) := by
    rw [digitCount, ceilDiv]
    omega
  rw [hbits, bitLength_le, pow_mul, show 2 ^ 8 = 256 from rfl]

theorem lt_pow_digitCount (n : ℕ) : n < 256 ^ (4 * digitCount n) := digitCount_le.mp le_rfl

theorem length_putNatural (n : ℕ) : (putNatural n).length = 8 + 4 * digitCount n := by
  rw [putNatural, List.length_append, Bytes.length_ofNat, Bytes.length_ofNat]

theorem reads_natural_of_lt {n : ℕ} (h : digitCount n < 256 ^ 8) : Reads natural (putNatural n) n := by
  have hdigits := (Reads.take .endOfBytes (Bytes.length_ofNat (4 * digitCount n) n)).map Bytes.toNat
  rw [Bytes.toNat_ofNat, Nat.mod_eq_of_lt (lt_pow_digitCount n)] at hdigits
  exact (Reads.word h).bind hdigits

theorem reads_natural {n : ℕ} (h : (putNatural n).length ≤ Limits.maxWireBytes) :
    Reads natural (putNatural n) n := by
  have hmax : Limits.maxWireBytes < 256 ^ 8 := by decide
  rw [length_putNatural] at h
  exact reads_natural_of_lt (by omega)

theorem length_putInteger (x : ℤ) : (putInteger x).length = 1 + (putNatural x.natAbs).length := by
  rw [putInteger, List.length_cons, Nat.add_comm]

theorem reads_integer {x : ℤ} (h : digitCount x.natAbs < 256 ^ 8) : Reads integer (putInteger x) x := by
  have hsigned (byte : ℕ) {sign : ℤ} (hbyte : byte < 256 ^ 1) (hsign : signOf byte = .ok sign)
      (hvalue : sign * x.natAbs = x) :
      Reads integer (Bytes.ofNat 1 byte ++ putNatural x.natAbs) x := by
    have hread := (reads_natural_of_lt h).map fun n : ℕ => sign * (n : ℤ)
    rw [hvalue] at hread
    apply (Reads.word hbyte).bind
    rw [hsign]
    exact hread
  rw [putInteger]
  split_ifs with hneg hzero
  · exact hsigned 255 (by decide) rfl (by omega)
  · exact hsigned 0 (by decide) rfl (by omega)
  · exact hsigned 1 (by decide) rfl (by omega)

theorem putNaturals_nil : putNaturals [] = [] := rfl

theorem putNaturals_cons (n : ℕ) (ns : List ℕ) :
    putNaturals (n :: ns) = putNatural n ++ putNaturals ns := List.flatMap_cons

theorem putNaturals_append (ns ms : List ℕ) :
    putNaturals (ns ++ ms) = putNaturals ns ++ putNaturals ms := List.flatMap_append

theorem putNaturals_cons_ne_nil (n : ℕ) (ns : List ℕ) : putNaturals (n :: ns) ≠ [] := by
  rw [putNaturals_cons]
  apply List.append_ne_nil_of_left_ne_nil
  apply List.ne_nil_of_length_pos
  rw [length_putNatural]
  omega

theorem length_putNaturals_cons (n : ℕ) (ns : List ℕ) :
    (putNaturals (n :: ns)).length = (putNatural n).length + (putNaturals ns).length := by
  rw [putNaturals_cons, List.length_append]

theorem reads_natural_of_mem {n : ℕ} {ns : List ℕ} (hn : n ∈ ns)
    (h : (putNaturals ns).length ≤ Limits.maxWireBytes) : Reads natural (putNatural n) n := by
  apply reads_natural
  induction ns with
  | nil => exact absurd hn List.not_mem_nil
  | cons m ns ih =>
    rw [length_putNaturals_cons] at h
    rcases List.mem_cons.mp hn with rfl | hmem
    · omega
    · exact ih hmem (by omega)

theorem reads_text {s : String} (hlength : (Utf8.encode s).length < 256 ^ 8) :
    Reads text (putText s) s := by
  apply (Reads.word hlength).bind
  intro rest
  rw [bind_of_ok (Reads.take .endOfText rfl rest), Utf8.decode_encode]
  rfl

theorem read_bind_eq_ok {next : α → Reader β} :
    (reader >>= next) bytes = .ok (b, rest) ↔
      ∃ a bytes', reader bytes = .ok (a, bytes') ∧ next a bytes' = .ok (b, rest) := by
  constructor
  · intro h
    cases hread : reader bytes with
    | error fault =>
      rw [bind_of_error hread] at h
      cases h
    | ok read =>
      rw [bind_of_ok hread] at h
      exact ⟨_, _, rfl, h⟩
  · rintro ⟨a, bytes', hread, hnext⟩
    rw [bind_of_ok hread, hnext]

theorem read_pure_eq_ok {a' : α} :
    (pure a : Reader α) bytes = .ok (a', rest) ↔ a = a' ∧ bytes = rest := by
  change Except.ok (a, bytes) = Except.ok (a', rest) ↔ _
  rw [Except.ok.injEq, Prod.mk.injEq]

theorem take_eq_ok {count : ℕ} {fault : WireFault} {taken : Bytes} :
    take count fault bytes = .ok (taken, rest) ↔ bytes = taken ++ rest ∧ taken.length = count := by
  constructor
  · intro h
    rw [take] at h
    split at h
    · next hle =>
      obtain ⟨rfl, rfl⟩ := Prod.mk.inj (Except.ok.inj h)
      exact ⟨(List.take_append_drop count bytes).symm, List.length_take_of_le hle⟩
    · cases h
  · rintro ⟨rfl, hlength⟩
    exact Reads.take fault hlength rest

theorem word_eq_ok {width n : ℕ} :
    word width bytes = .ok (n, rest) ↔ bytes = Bytes.ofNat width n ++ rest ∧ n < 256 ^ width := by
  constructor
  · intro h
    obtain ⟨taken, bytes', htake, hpure⟩ := read_bind_eq_ok.mp h
    obtain ⟨rfl, rfl⟩ := take_eq_ok.mp htake
    obtain ⟨rfl, rfl⟩ := read_pure_eq_ok.mp hpure
    rw [Bytes.ofNat_toNat, Bytes.toNat_eq_value]
    exact ⟨rfl, Bytes.value_lt taken⟩
  · rintro ⟨rfl, hlt⟩
    exact Reads.word hlt rest

theorem text_eq_ok {s : String} :
    text bytes = .ok (s, rest) ↔ bytes = putText s ++ rest ∧ (Utf8.encode s).length < 256 ^ 8 := by
  constructor
  · intro h
    obtain ⟨count, bytes₁, hcount, hread⟩ := read_bind_eq_ok.mp h
    obtain ⟨taken, bytes₂, htake, hresult⟩ := read_bind_eq_ok.mp hread
    obtain ⟨rfl, hlt⟩ := word_eq_ok.mp hcount
    obtain ⟨rfl, rfl⟩ := take_eq_ok.mp htake
    cases hdecode : Utf8.decode taken with
    | error fault =>
      rw [hdecode] at hresult
      cases hresult
    | ok s' =>
      rw [hdecode] at hresult
      obtain ⟨rfl, rfl⟩ := read_pure_eq_ok.mp hresult
      obtain rfl := Utf8.encode_of_decode hdecode
      exact ⟨(List.append_assoc ..).symm, hlt⟩
  · rintro ⟨rfl, hlt⟩
    exact reads_text hlt rest

end Homomorphic.Wire
