import Homomorphic.Proofs.Forms

namespace Homomorphic.Wire

variable {bytes rest : Bytes} {form : Form} {v : form.Value} {ns : List ℕ}

inductive Form.ConsistsOf : (form : Form) → form.Value → List ℕ → Prop
  | natural (n : ℕ) : ConsistsOf natural n [n]
  | pair (a b : ℕ) : ConsistsOf pair (a, b) [a, b]
  | triple (a b c : ℕ) : ConsistsOf triple (a, b, c) [a, b, c]
  | quadruple (a b c d : ℕ) : ConsistsOf quadruple (a, b, c, d) [a, b, c, d]

theorem Form.ConsistsOf.put_eq (h : form.ConsistsOf v ns) : form.put v = putNaturals ns := by
  cases h with
  | natural n => exact (List.append_nil (putNatural n)).symm
  | pair a b => rfl
  | triple a b c => rfl
  | quadruple a b c d => rfl

theorem naturals_cons_eq_ok {count n : ℕ} :
    naturals (count + 1) bytes = .ok (n :: ns, rest) ↔
      ∃ bytes', natural bytes = .ok (n, bytes') ∧ naturals count bytes' = .ok (ns, rest) := by
  rw [naturals]
  simp only [read_bind_eq_ok, read_pure_eq_ok, List.cons.injEq]
  constructor
  · rintro ⟨_, bytes', hn, _, _, hns, ⟨rfl, rfl⟩, rfl⟩
    exact ⟨bytes', hn, hns⟩
  · rintro ⟨bytes', hn, hns⟩
    exact ⟨n, bytes', hn, ns, rest, hns, ⟨rfl, rfl⟩, rfl⟩

theorem naturals_zero_eq_ok : naturals 0 bytes = .ok ([], rest) ↔ bytes = rest := by
  rw [naturals, read_pure_eq_ok, and_iff_right rfl]

theorem Form.ConsistsOf.reader_eq_ok (h : form.ConsistsOf v ns) :
    form.reader bytes = .ok (v, rest) ↔ naturals ns.length bytes = .ok (ns, rest) := by
  cases h with
  | natural n =>
    simp only [List.length_cons, List.length_nil, naturals_cons_eq_ok, naturals_zero_eq_ok]
    rw [exists_eq_right]
    rfl
  | pair a b =>
    change Paillier.PublicKey.reader bytes = .ok ((a, b), rest) ↔ _
    simp [Paillier.PublicKey.reader, naturals_cons_eq_ok, naturals_zero_eq_ok,
      -bind_pure_comp, read_bind_eq_ok, read_pure_eq_ok]
  | triple a b c =>
    change OkamotoUchiyama.SecretKey.reader bytes = .ok ((a, b, c), rest) ↔ _
    simp [OkamotoUchiyama.SecretKey.reader, naturals_cons_eq_ok, naturals_zero_eq_ok,
      -bind_pure_comp, read_bind_eq_ok, read_pure_eq_ok]
  | quadruple a b c d =>
    change Paillier.SecretKey.reader bytes = .ok ((a, b, c, d), rest) ↔ _
    simp [Paillier.SecretKey.reader, naturals_cons_eq_ok, naturals_zero_eq_ok,
      -bind_pure_comp, read_bind_eq_ok, read_pure_eq_ok]

theorem reads_naturals (h : (putNaturals ns).length ≤ Limits.maxWireBytes) :
    Reads (naturals ns.length) (putNaturals ns) ns := by
  induction ns with
  | nil => exact Reads.pure []
  | cons n ns ih =>
    intro rest
    have hlength := length_putNaturals_cons n ns
    have hn := reads_natural_of_mem List.mem_cons_self h (putNaturals ns ++ rest)
    rw [putNaturals_cons, List.append_assoc, List.length_cons, naturals_cons_eq_ok]
    exact ⟨_, hn, ih (by omega) rest⟩

theorem bitLength_eq_size (n : ℕ) : bitLength n = n.size :=
  eq_of_forall_ge_iff fun _ => bitLength_le.trans Nat.size_le.symm

def naturalSize (n : ℕ) : ℕ := 8 + 4 * ((n.size + 31) / 32)

theorem length_putNatural_eq (n : ℕ) : (putNatural n).length = naturalSize n := by
  rw [length_putNatural, digitCount, bitLength_eq_size]
  rfl

theorem length_putNaturals (ns : List ℕ) : (putNaturals ns).length = (ns.map naturalSize).sum := by
  induction ns with
  | nil => rfl
  | cons n ns ih => rw [length_putNaturals_cons, length_putNatural_eq, ih, List.map_cons, List.sum_cons]

/-- Writing the value takes that many bytes. It fails just if they are beyond the cap, and what is written
reads back as the value. -/
structure Form.TakesUp (form : Form) (v : form.Value) (size : ℕ) : Prop where
  encodes_iff : (∃ bytes, encode (form.put v) = .ok bytes) ↔ size ≤ 2 ^ 20
  refused : 2 ^ 20 < size → encode (form.put v) = .error (.wire .sizeLimit)
  reads_back : ∀ bytes, encode (form.put v) = .ok bytes →
    bytes.length = size ∧ decode form.reader bytes = .ok v

theorem Form.takesUp {size : ℕ} (hlength : (form.put v).length = size)
    (hreads : (form.put v).length ≤ Limits.maxWireBytes → Reads form.reader (form.put v) v) :
    form.TakesUp v size := by
  subst hlength
  constructor
  case encodes_iff =>
    simp only [encode_eq_ok]
    exact exists_eq_right
  case refused => exact fun hlarge => encode_eq_error.mpr ⟨hlarge, rfl⟩
  case reads_back =>
    intro bytes hencode
    obtain ⟨hcap, rfl⟩ := encode_eq_ok.mp hencode
    exact ⟨rfl, (hreads hcap).decode⟩

theorem Form.ConsistsOf.takesUp (h : form.ConsistsOf v ns) :
    form.TakesUp v (ns.map naturalSize).sum := by
  apply Form.takesUp
  · rw [h.put_eq, length_putNaturals]
  · rw [h.put_eq]
    intro hcap rest
    exact h.reader_eq_ok.mpr (reads_naturals hcap rest)

theorem Form.takesUp_integer (x : ℤ) : integer.TakesUp x (1 + naturalSize x.natAbs) := by
  have hlength : (integer.put x).length = 1 + naturalSize x.natAbs := by
    rw [put, length_putInteger, length_putNatural_eq]
  apply Form.takesUp hlength
  intro hcap
  have hmax : Limits.maxWireBytes < 256 ^ 8 := by decide
  apply reads_integer
  rw [put, length_putInteger, length_putNatural] at hcap
  omega

theorem numbers_take_up_their_sizes :
    (∀ n : ℕ, Form.natural.TakesUp n (naturalSize n)) ∧
    (∀ a b : ℕ, Form.pair.TakesUp (a, b) (naturalSize a + naturalSize b)) ∧
    (∀ a b c : ℕ, Form.triple.TakesUp (a, b, c) (naturalSize a + naturalSize b + naturalSize c)) ∧
    (∀ a b c d : ℕ, Form.quadruple.TakesUp (a, b, c, d)
      (naturalSize a + naturalSize b + naturalSize c + naturalSize d)) ∧
    ∀ x : ℤ, Form.integer.TakesUp x (1 + naturalSize x.natAbs) := by
  refine ⟨fun n => ?_, fun a b => ?_, fun a b c => ?_, fun a b c d => ?_, Form.takesUp_integer⟩
  · simpa using (Form.ConsistsOf.natural n).takesUp
  · simpa [add_assoc] using (Form.ConsistsOf.pair a b).takesUp
  · simpa [add_assoc] using (Form.ConsistsOf.triple a b c).takesUp
  · simpa [add_assoc] using (Form.ConsistsOf.quadruple a b c d).takesUp

end Homomorphic.Wire
