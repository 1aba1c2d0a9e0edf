import Homomorphic.Proofs.WireCap
import Homomorphic.Proofs.WireSize

namespace Homomorphic

abbrev Limbs := List UInt32

namespace Limbs

variable {bytes : Bytes}

def value (limbs : Limbs) : ℕ := Nat.ofDigits (2 ^ 32) (limbs.map UInt32.toNat)

def toBytes (limbs : Limbs) : Bytes := limbs.flatMap fun digit => Bytes.ofNat 4 digit.toNat

def put (limbs : Limbs) : Bytes := Bytes.ofNat 8 limbs.length ++ limbs.toBytes

def trim (limbs : Limbs) : Limbs := limbs.rdropWhile (· = 0)

def SameUpToZeros (a b : Limbs) : Prop :=
  ∃ digits j k, a = digits ++ List.replicate j 0 ∧ b = digits ++ List.replicate k 0

theorem toBytes_cons (digit : UInt32) (limbs : Limbs) :
    toBytes (digit :: limbs) = Bytes.ofNat 4 digit.toNat ++ toBytes limbs := List.flatMap_cons

theorem length_toBytes (limbs : Limbs) : limbs.toBytes.length = 4 * limbs.length := by
  induction limbs with
  | nil => rfl
  | cons digit limbs ih =>
    rw [toBytes_cons, List.length_append, Bytes.length_ofNat, ih, List.length_cons]
    omega

theorem toNat_toBytes (limbs : Limbs) : limbs.toBytes.toNat = limbs.value := by
  rw [Bytes.toNat_eq_value]
  induction limbs with
  | nil => rfl
  | cons digit limbs ih =>
    have hdigit : Bytes.value (Bytes.ofNat 4 digit.toNat) = digit.toNat := by
      rw [← Bytes.toNat_eq_value, Bytes.toNat_ofNat]
      exact Nat.mod_eq_of_lt digit.toNat_lt
    rw [toBytes_cons, Bytes.value_append, Bytes.length_ofNat, hdigit, ih]
    rfl

theorem exists_toBytes {count : ℕ} (h : bytes.length = 4 * count) :
    ∃ limbs : Limbs, limbs.toBytes = bytes ∧ limbs.length = count := by
  induction count generalizing bytes with
  | zero => exact ⟨[], (List.eq_nil_of_length_eq_zero h).symm, rfl⟩
  | succ count ih =>
    have hfirst : (bytes.take 4).length = 4 := List.length_take_of_le (by omega)
    have hdigit : Bytes.value (bytes.take 4) < 256 ^ 4 :=
      (Bytes.value_lt _).trans_eq (congrArg _ hfirst)
    obtain ⟨limbs, hlimbs, hcount⟩ : ∃ limbs : Limbs, limbs.toBytes = bytes.drop 4 ∧ limbs.length = count :=
      ih (by rw [List.length_drop]; omega)
    have hbytes := Bytes.ofNat_toNat (bytes.take 4)
    rw [hfirst, Bytes.toNat_eq_value] at hbytes
    refine ⟨UInt32.ofNat (Bytes.value (bytes.take 4)) :: limbs, ?_, congrArg (· + 1) hcount⟩
    rw [toBytes_cons, UInt32.toNat_ofNat_of_lt' hdigit, hbytes, hlimbs, List.take_append_drop]

theorem lt_of_mem_map {limbs : Limbs} : ∀ digit ∈ limbs.map UInt32.toNat, digit < 2 ^ 32 := by
  intro digit hdigit
  obtain ⟨limb, -, rfl⟩ := List.mem_map.mp hdigit
  exact limb.toNat_lt

theorem map_toNat_injective : Function.Injective (List.map UInt32.toNat) :=
  List.map_injective_iff.mpr fun _ _ => UInt32.toNat.inj

theorem value_injective {a b : Limbs} (hlength : a.length = b.length) (h : a.value = b.value) : a = b := by
  apply map_toNat_injective
  exact Nat.ofDigits_inj_of_len_eq (by decide) (by simpa using hlength) lt_of_mem_map lt_of_mem_map h

theorem value_append_zeros (limbs : Limbs) (k : ℕ) : value (limbs ++ List.replicate k 0) = value limbs := by
  rw [value, List.map_append, List.map_replicate]
  exact Nat.ofDigits_append_replicate_zero _

theorem trim_append_zeros (limbs : Limbs) : ∃ k, limbs = limbs.trim ++ List.replicate k 0 := by
  have hzeros : ∀ digit ∈ limbs.rtakeWhile (· = 0), digit = 0 := by
    intro digit hdigit
    exact of_decide_eq_true (List.mem_rtakeWhile_imp (p := fun x : UInt32 => x = 0) hdigit)
  refine ⟨(limbs.rtakeWhile (· = 0)).length, ?_⟩
  rw [← List.eq_replicate_of_mem hzeros]
  exact List.rdropWhile_append_rtakeWhile.symm

theorem trim_eq_self_iff {limbs : Limbs} : limbs.trim = limbs ↔ limbs.getLast? ≠ some 0 := by
  rw [trim, List.rdropWhile_eq_self_iff]
  cases limbs using List.reverseRecOn <;> simp

theorem value_trim (limbs : Limbs) : limbs.trim.value = limbs.value := by
  obtain ⟨k, h⟩ := limbs.trim_append_zeros
  conv_rhs => rw [h, value_append_zeros]

theorem trim_prefix (limbs : Limbs) : limbs.trim <+: limbs := List.rdropWhile_prefix _ _

theorem map_trim (limbs : Limbs) : limbs.trim.map UInt32.toNat = Nat.digits (2 ^ 32) limbs.value := by
  rw [← value_trim]
  refine (Nat.digits_ofDigits _ (by decide) _ lt_of_mem_map ?_).symm
  intro hne hlast
  rw [List.getLast_map] at hlast
  have hne' : limbs.trim ≠ [] := by simpa using hne
  have hzero : limbs.trim.getLast hne' = 0 := UInt32.toNat.inj hlast
  exact List.rdropWhile_last_not _ _ hne' (decide_eq_true hzero)

theorem trim_eq_trim_iff {a b : Limbs} : a.trim = b.trim ↔ a.value = b.value := by
  constructor
  · intro h
    rw [← value_trim a, h, value_trim]
  · intro h
    have hmap : a.trim.map UInt32.toNat = b.trim.map UInt32.toNat := by rw [map_trim, map_trim, h]
    exact map_toNat_injective hmap

theorem sameUpToZeros_iff {a b : Limbs} : a.SameUpToZeros b ↔ a.value = b.value := by
  constructor
  · rintro ⟨digits, j, k, rfl, rfl⟩
    rw [value_append_zeros, value_append_zeros]
  · intro h
    obtain ⟨j, ha⟩ := a.trim_append_zeros
    obtain ⟨k, hb⟩ := b.trim_append_zeros
    rw [← trim_eq_trim_iff.mpr h] at hb
    exact ⟨a.trim, j, k, ha, hb⟩

theorem digitCount_value (limbs : Limbs) : Wire.digitCount limbs.value = limbs.trim.length := by
  have hdigits : limbs.trim.length = (Nat.digits (2 ^ 32) limbs.value).length := by
    rw [← map_trim, List.length_map]
  rw [hdigits]
  apply eq_of_forall_ge_iff
  intro count
  rw [Wire.digitCount_le, Nat.digits_length_le_iff (by decide), pow_mul]
  rfl

theorem putNatural_value (limbs : Limbs) : Wire.putNatural limbs.value = limbs.trim.put := by
  rw [Wire.putNatural, digitCount_value, ← length_toBytes, ← value_trim, ← toNat_toBytes,
    Bytes.ofNat_toNat]
  rfl

theorem length_put (limbs : Limbs) : limbs.put.length = 8 + 4 * limbs.length := by
  rw [put, List.length_append, Bytes.length_ofNat, length_toBytes]

theorem put_append_inj {a b : Limbs} {rest rest' : Bytes} (ha : a.length < 2 ^ 64)
    (hb : b.length < 2 ^ 64) (h : a.put ++ rest = b.put ++ rest') : a = b ∧ rest = rest' := by
  rw [put, put, List.append_assoc, List.append_assoc] at h
  have hwidth (x y : ℕ) : (Bytes.ofNat 8 x).length = (Bytes.ofNat 8 y).length := by
    rw [Bytes.length_ofNat, Bytes.length_ofNat]
  obtain ⟨hcount, hdigits⟩ := List.append_inj h (hwidth _ _)
  have hlength : a.length = b.length := by
    have hread := congrArg Bytes.toNat hcount
    rw [Bytes.toNat_ofNat, Bytes.toNat_ofNat] at hread
    exact (Nat.mod_eq_of_lt ha).symm.trans (hread.trans (Nat.mod_eq_of_lt hb))
  obtain ⟨hbytes, hrest⟩ := List.append_inj hdigits (by rw [length_toBytes, length_toBytes, hlength])
  refine ⟨value_injective hlength ?_, hrest⟩
  rw [← toNat_toBytes, hbytes, toNat_toBytes]

end Limbs

namespace Wire

variable {bytes rest : Bytes} {form : Form} {v : form.Value} {ns : List ℕ} {n : ℕ}
  {seqs seqs' : List Limbs}

/-- The bytes are these sequences of digits, each after its count. -/
structure Lists (bytes : Bytes) (seqs : List Limbs) : Prop where
  counts : ∀ limbs ∈ seqs, limbs.length < 2 ^ 64
  eq : bytes = seqs.flatMap Limbs.put

namespace Lists

theorem nil : Lists [] [] := ⟨by simp, rfl⟩

theorem cons_iff {limbs : Limbs} : Lists bytes (limbs :: seqs) ↔
    ∃ rest, bytes = limbs.put ++ rest ∧ limbs.length < 2 ^ 64 ∧ Lists rest seqs := by
  constructor
  · rintro ⟨hcounts, rfl⟩
    obtain ⟨hcount, hcounts⟩ := List.forall_mem_cons.mp hcounts
    exact ⟨_, List.flatMap_cons, hcount, hcounts, rfl⟩
  · rintro ⟨_, rfl, hcount, hcounts, rfl⟩
    exact ⟨List.forall_mem_cons.mpr ⟨hcount, hcounts⟩, List.flatMap_cons.symm⟩

theorem length_eq (h : Lists bytes seqs) :
    bytes.length = (seqs.map fun limbs => 8 + 4 * limbs.length).sum := by
  rw [h.eq, List.length_flatMap]
  simp only [Limbs.length_put]

theorem eq_nil (h : Lists [] seqs) : seqs = [] := by
  cases seqs with
  | nil => rfl
  | cons limbs seqs =>
    have hlength := h.length_eq
    rw [List.map_cons, List.sum_cons, List.length_nil] at hlength
    omega

theorem unique (h : Lists bytes seqs) (h' : Lists bytes seqs') : seqs' = seqs := by
  induction seqs generalizing bytes seqs' with
  | nil =>
    obtain rfl := h.eq
    exact h'.eq_nil
  | cons limbs seqs ih =>
    cases seqs' with
    | nil =>
      obtain rfl := h'.eq
      exact h.eq_nil.symm
    | cons limbs' seqs' =>
      -- The counts tell where the first sequences end.
      obtain ⟨rest, rfl, hcount, hrest⟩ := cons_iff.mp h
      obtain ⟨rest', hbytes, hcount', hrest'⟩ := cons_iff.mp h'
      obtain ⟨rfl, rfl⟩ := Limbs.put_append_inj hcount hcount' hbytes
      rw [ih hrest hrest']

theorem putNaturals (h : Lists bytes seqs) :
    Lists (putNaturals (seqs.map Limbs.value)) (seqs.map Limbs.trim) := by
  induction seqs generalizing bytes with
  | nil => exact nil
  | cons limbs seqs ih =>
    obtain ⟨rest, -, hcount, hrest⟩ := cons_iff.mp h
    rw [List.map_cons, List.map_cons, putNaturals_cons, Limbs.putNatural_value, cons_iff]
    exact ⟨_, rfl, limbs.trim_prefix.length_le.trans_lt hcount, ih hrest⟩

theorem putNaturals_eq_iff (h : Lists bytes seqs) :
    Wire.putNaturals (seqs.map Limbs.value) = bytes ↔ ∀ limbs ∈ seqs, limbs.trim = limbs := by
  have hput := h.putNaturals
  have hmap : seqs.map Limbs.trim = seqs ↔ ∀ limbs ∈ seqs, limbs.trim = limbs := by
    simpa using List.map_inj_left (l := seqs) (f := Limbs.trim) (g := id)
  rw [← hmap]
  constructor
  · intro heq
    rw [heq] at hput
    exact h.unique hput
  · intro heq
    rw [hput.eq, heq, ← h.eq]

theorem putNaturals_eq_of_length (h : Lists bytes seqs)
    (hlength : (Wire.putNaturals (seqs.map Limbs.value)).length = bytes.length) :
    Wire.putNaturals (seqs.map Limbs.value) = bytes := by
  rw [h.putNaturals_eq_iff]
  by_contra! hshort
  rw [h.putNaturals.length_eq, h.length_eq, List.map_map] at hlength
  refine ne_of_lt (List.sum_lt_sum _ _ ?_ ?_) hlength
  · intro limbs _
    have hle := limbs.trim_prefix.length_le
    simpa using hle
  · obtain ⟨limbs, hmem, hne⟩ := hshort
    have hlt : limbs.trim.length < limbs.length :=
      lt_of_not_ge fun hge => hne (limbs.trim_prefix.eq_of_length_le hge)
    exact ⟨limbs, hmem, by simpa using hlt⟩

end Lists

theorem natural_eq_ok : natural bytes = .ok (n, rest) ↔
    ∃ limbs : Limbs, bytes = limbs.put ++ rest ∧ limbs.length < 2 ^ 64 ∧ limbs.value = n := by
  rw [natural]
  simp only [read_bind_eq_ok, read_pure_eq_ok, word_eq_ok, take_eq_ok]
  constructor
  · rintro ⟨count, _, ⟨rfl, hcount⟩, _, _, ⟨rfl, hlength⟩, rfl, rfl⟩
    obtain ⟨limbs, rfl, rfl⟩ := Limbs.exists_toBytes hlength
    exact ⟨limbs, (List.append_assoc ..).symm, hcount, limbs.toNat_toBytes.symm⟩
  · rintro ⟨limbs, rfl, hcount, rfl⟩
    exact ⟨limbs.length, _, ⟨List.append_assoc .., hcount⟩, limbs.toBytes, rest,
      ⟨rfl, limbs.length_toBytes⟩, limbs.toNat_toBytes, rfl⟩

theorem naturals_eq_ok : naturals ns.length bytes = .ok (ns, []) ↔
    ∃ seqs, Lists bytes seqs ∧ seqs.map Limbs.value = ns := by
  induction ns generalizing bytes with
  | nil =>
    rw [List.length_nil, naturals_zero_eq_ok]
    constructor
    · rintro rfl
      exact ⟨[], Lists.nil, rfl⟩
    · rintro ⟨seqs, h, hmap⟩
      rw [h.eq, List.map_eq_nil_iff.mp hmap]
      rfl
  | cons n ns ih =>
    rw [List.length_cons, naturals_cons_eq_ok]
    constructor
    · rintro ⟨bytes', hn, hns⟩
      obtain ⟨limbs, rfl, hcount, rfl⟩ := natural_eq_ok.mp hn
      obtain ⟨seqs, hseqs, rfl⟩ := ih.mp hns
      exact ⟨limbs :: seqs, Lists.cons_iff.mpr ⟨bytes', rfl, hcount, hseqs⟩, rfl⟩
    · rintro ⟨seqs, h, hmap⟩
      obtain ⟨limbs, seqs, rfl, rfl, rfl⟩ := List.map_eq_cons_iff.mp hmap
      obtain ⟨rest, rfl, hcount, hrest⟩ := Lists.cons_iff.mp h
      exact ⟨rest, natural_eq_ok.mpr ⟨limbs, rfl, hcount, rfl⟩, ih.mpr ⟨seqs, hrest, rfl⟩⟩

theorem Form.ConsistsOf.decode_eq_ok (h : form.ConsistsOf v ns) :
    decode form.reader bytes = .ok v ↔ ∃ seqs, Lists bytes seqs ∧ seqs.map Limbs.value = ns := by
  rw [Wire.decode_eq_ok, h.reader_eq_ok, naturals_eq_ok]

theorem Form.exists_consistsOf (hform : form ∈ [natural, pair, triple, quadruple]) (v : form.Value) :
    ∃ ns, form.ConsistsOf v ns := by
  simp only [List.mem_cons, List.not_mem_nil, or_false] at hform
  rcases hform with rfl | rfl | rfl | rfl
  · exact ⟨_, .natural v⟩
  · exact ⟨_, .pair v.1 v.2⟩
  · exact ⟨_, .triple v.1 v.2.1 v.2.2⟩
  · exact ⟨_, .quadruple v.1 v.2.1 v.2.2.1 v.2.2.2⟩

theorem forall₂_sameUpToZeros_iff :
    List.Forall₂ Limbs.SameUpToZeros seqs seqs' ↔ seqs'.map Limbs.value = seqs.map Limbs.value := by
  have hvalues : Limbs.SameUpToZeros = fun a b => a.value = b.value :=
    funext₂ fun _ _ => propext Limbs.sameUpToZeros_iff
  rw [hvalues, eq_comm, ← List.forall₂_eq_eq_eq, List.forall₂_map_left_iff, List.forall₂_map_right_iff]

theorem canonical_is_the_shortest (hform : form ∈ [.natural, .pair, .triple, .quadruple])
    (hread : decode form.reader bytes = .ok v) :
    ∃ seqs : List Limbs, (∀ seqs', Lists bytes seqs' ↔ seqs' = seqs) ∧
      form.ConsistsOf v (seqs.map Limbs.value) ∧
      (∀ canonical, encode (form.put v) = .ok canonical →
        canonical.length ≤ bytes.length ∧ (canonical.length = bytes.length → canonical = bytes) ∧
        decode form.reader canonical = .ok v ∧
        (canonical = bytes ↔ ∀ limbs ∈ seqs, limbs.getLast? ≠ some 0)) ∧
      ∀ bytes', decode form.reader bytes' = .ok v ↔
        ∃ seqs', Lists bytes' seqs' ∧ List.Forall₂ Limbs.SameUpToZeros seqs seqs' := by
  obtain ⟨ns, hv⟩ := Form.exists_consistsOf hform v
  obtain ⟨seqs, hseqs, rfl⟩ := hv.decode_eq_ok.mp hread
  obtain ⟨hshort, hput⟩ := form.put_of_decode hread
  refine ⟨seqs, fun seqs' => ⟨hseqs.unique, fun h => h ▸ hseqs⟩, hv, ?_, ?_⟩
  · intro canonical hencode
    obtain ⟨-, rfl⟩ := encode_eq_ok.mp hencode
    refine ⟨hshort, ?_, hput, ?_⟩
    · rw [hv.put_eq]
      exact hseqs.putNaturals_eq_of_length
    · simp only [hv.put_eq, hseqs.putNaturals_eq_iff, Limbs.trim_eq_self_iff]
  · intro bytes'
    simp only [hv.decode_eq_ok, forall₂_sameUpToZeros_iff]

theorem canonical_is_the_shortest_seven_zero :
    ∃ bytes, bytes = Bytes.ofNat 8 2 ++ Bytes.ofNat 8 7 ++ Bytes.ofNat 8 0 ∧
      decode Form.pair.reader bytes = .ok (7, 0) ∧ Lists bytes [[7, 0], []] ∧
      ∃ canonical, encode (Form.pair.put (7, 0)) = .ok canonical ∧ canonical.length < bytes.length := by
  have hlists : Lists (Bytes.ofNat 8 2 ++ Bytes.ofNat 8 7 ++ Bytes.ofNat 8 0) [[7, 0], []] :=
    ⟨by simp, by decide⟩
  have hread : decode Form.pair.reader (Bytes.ofNat 8 2 ++ Bytes.ofNat 8 7 ++ Bytes.ofNat 8 0) =
      .ok (7, 0) := by
    rfl
  obtain ⟨seqs, hunique, -, hcanonical, -⟩ := canonical_is_the_shortest (by simp) hread
  obtain rfl := (hunique _).mp hlists
  have hencode : encode (Form.pair.put (7, 0)) = .ok (Form.pair.put (7, 0)) := by decide
  obtain ⟨hle, hsame, -, hzeros⟩ := hcanonical _ hencode
  refine ⟨_, rfl, hread, hlists, _, hencode, lt_of_le_of_ne hle fun heq => ?_⟩
  have hseven := hzeros.mp (hsame heq) [7, 0] List.mem_cons_self
  exact hseven rfl

end Wire

end Homomorphic
