import Homomorphic.Proofs.Wire

/-!
What a reader takes off the front of the bytes is settled by itself: it takes the same before any other
bytes, and fewer of them end too early. What it takes need not be what the value is written as, but then
it is no shorter.
-/

namespace Homomorphic

def WireFault.IsEnd (fault : WireFault) : Prop := fault = .endOfBytes ∨ fault = .endOfText

namespace Wire

variable {α β : Type} {reader : Reader α} {bytes first second front taken rest : Bytes} {a : α} {b : β}

def EndsWithin (reader : Reader α) (taken : Bytes) : Prop :=
  ∀ front, front <+: taken → front ≠ taken → ∃ fault : WireFault, fault.IsEnd ∧ reader front = .error fault

def Takes (reader : Reader α) (Written : α → Bytes → Prop) : Prop :=
  ∀ bytes a rest, reader bytes = .ok (a, rest) →
    ∃ taken, bytes = taken ++ rest ∧ Reads reader taken a ∧ EndsWithin reader taken ∧
      ∃ written, Written a written ∧ written.length ≤ taken.length ∧ Reads reader written a

theorem isPrefix_append (h : front <+: first ++ second) :
    front <+: first ∧ front ≠ first ∨ ∃ front', front = first ++ front' ∧ front' <+: second := by
  rcases List.prefix_or_prefix_of_prefix h (List.prefix_append first second) with hfirst | ⟨front', rfl⟩
  · by_cases heq : front = first
    · exact .inr ⟨[], by rw [heq, List.append_nil], List.nil_prefix⟩
    · exact .inl ⟨hfirst, heq⟩
  · exact .inr ⟨front', rfl, (List.prefix_append_right_inj first).mp h⟩

theorem EndsWithin.nil (reader : Reader α) : EndsWithin reader [] :=
  fun _ hfront hne => absurd (List.prefix_nil.mp hfront) hne

theorem EndsWithin.bind {next : α → Reader β} (hreads : Reads reader first a)
    (h : EndsWithin reader first) (h' : EndsWithin (next a) second) :
    EndsWithin (reader >>= next) (first ++ second) := by
  intro front hfront hne
  rcases isPrefix_append hfront with ⟨hfirst, hne'⟩ | ⟨front', rfl, hsecond⟩
  · obtain ⟨fault, hfault, herror⟩ := h front hfirst hne'
    exact ⟨fault, hfault, bind_of_error herror⟩
  · obtain ⟨fault, hfault, herror⟩ := h' front' hsecond fun heq => hne (by rw [heq])
    exact ⟨fault, hfault, (bind_of_ok (hreads front')).trans herror⟩

variable {W W' : α → Bytes → Prop}

theorem takes_pure (a : α) : Takes (pure a) fun a' written => a' = a ∧ written = [] := by
  intro bytes a' rest h
  cases h
  exact ⟨[], rfl, .pure a, .nil _, [], ⟨rfl, rfl⟩, le_rfl, .pure a⟩

theorem takes_throw (fault : WireFault) : Takes (throw fault) W := by
  intro bytes a rest h
  cases h

theorem takes_lift (x : Except WireFault α) :
    Takes (liftM x) fun a written => x = .ok a ∧ written = [] := by
  intro bytes a rest h
  cases x with
  | error fault => cases h
  | ok a' =>
    cases h
    exact ⟨[], rfl, .pure a, .nil _, [], ⟨rfl, rfl⟩, le_rfl, .pure a⟩

namespace Takes

theorem bind {next : α → Reader β} {V : α → β → Bytes → Prop} (h : Takes reader W)
    (h' : ∀ a, Takes (next a) (V a)) :
    Takes (reader >>= next) fun b written =>
      ∃ a first second, written = first ++ second ∧ W a first ∧ V a b second := by
  intro bytes b rest hread
  obtain ⟨a, bytes', hfirst, hsecond⟩ := read_bind_eq_ok.mp hread
  obtain ⟨first, rfl, hreads, hends, short, hshort, hlength, hback⟩ := h _ _ _ hfirst
  obtain ⟨second, rfl, hreads', hends', short', hshort', hlength', hback'⟩ := h' a _ _ _ hsecond
  refine ⟨first ++ second, (List.append_assoc ..).symm, hreads.bind hreads', hends.bind hreads hends',
    short ++ short', ⟨a, short, short', rfl, hshort, hshort'⟩, ?_, hback.bind hback'⟩
  rw [List.length_append, List.length_append]
  omega

theorem shorten (h : Takes reader W)
    (h' : ∀ a written, W a written → ∃ short, W' a short ∧ short.length ≤ written.length ∧
      Reads reader short a) : Takes reader W' := by
  intro bytes a rest hread
  obtain ⟨taken, heq, hreads, hends, written, hwritten, hlength, -⟩ := h _ _ _ hread
  obtain ⟨short, hshort, hle, hback⟩ := h' a written hwritten
  exact ⟨taken, heq, hreads, hends, short, hshort, hle.trans hlength, hback⟩

theorem mono (h : Takes reader W) (h' : ∀ a written, W a written → W' a written) :
    Takes reader W' := by
  intro bytes a rest hread
  obtain ⟨taken, heq, hreads, hends, written, hwritten, hback⟩ := h _ _ _ hread
  exact ⟨taken, heq, hreads, hends, written, h' a written hwritten, hback⟩

theorem of_decode (h : Takes reader W) (hread : decode reader bytes = .ok a) :
    Reads reader bytes a ∧ EndsWithin reader bytes ∧
      ∃ written, W a written ∧ written.length ≤ bytes.length ∧ Reads reader written a := by
  obtain ⟨taken, rfl, htaken⟩ := h _ _ _ (decode_eq_ok.mp hread)
  rwa [List.append_nil]

end Takes

theorem takes_take (count : ℕ) {fault : WireFault} (hfault : fault.IsEnd) :
    Takes (take count fault) fun a written => a.length = count ∧ written = a := by
  intro bytes a rest h
  obtain ⟨rfl, hlength⟩ := take_eq_ok.mp h
  have hreads := Reads.take fault hlength
  refine ⟨a, rfl, hreads, ?_, a, ⟨hlength, rfl⟩, le_rfl, hreads⟩
  intro front hfront hne
  have hle := hfront.length_le
  have hne' : front.length ≠ count := fun heq => hne (hfront.eq_of_length (heq.trans hlength.symm))
  exact ⟨fault, hfault, if_neg (by omega)⟩

theorem takes_word (width : ℕ) :
    Takes (word width) fun n written => n < 256 ^ width ∧ written = Bytes.ofNat width n := by
  apply ((takes_take width (.inl rfl)).bind fun bytes => takes_pure bytes.toNat).mono
  rintro n _ ⟨_, bytes, _, rfl, ⟨rfl, rfl⟩, rfl, rfl⟩
  rw [List.append_nil, Bytes.ofNat_toNat, Bytes.toNat_eq_value]
  exact ⟨Bytes.value_lt bytes, rfl⟩

theorem takes_natural :
    Takes natural fun n written => digitCount n < 256 ^ 8 ∧ written = putNatural n := by
  have hdigits (count : ℕ) :=
    (takes_take (4 * count) (.inl rfl)).bind fun digits => takes_pure (Bytes.toNat digits)
  apply ((takes_word 8).bind hdigits).shorten
  rintro n _ ⟨count, _, _, rfl, ⟨hcount, rfl⟩, _, digits, _, rfl, ⟨hlength, rfl⟩, rfl, rfl⟩
  have hle : digitCount digits.toNat ≤ count := by
    rw [digitCount_le, ← hlength, Bytes.toNat_eq_value]
    exact Bytes.value_lt digits
  refine ⟨_, ⟨by omega, rfl⟩, ?_, reads_natural_of_lt (by omega)⟩
  rw [length_putNatural, List.length_append, List.append_nil, Bytes.length_ofNat, hlength]
  omega

theorem sign_of_signOf {byte : ℕ} {sign : ℤ} (h : signOf byte = .ok sign) :
    sign = 0 ∨ sign = 1 ∨ sign = -1 := by
  rw [signOf] at h
  split_ifs at h <;> cases h <;> decide

theorem takes_integer :
    Takes integer fun x written => digitCount x.natAbs < 256 ^ 8 ∧ written = putInteger x := by
  have hproduct (sign : ℤ) := takes_natural.bind fun n => takes_pure (sign * (n : ℤ))
  have hsign (byte : ℕ) := (takes_lift (signOf byte)).bind hproduct
  apply ((takes_word 1).bind hsign).shorten
  rintro x _ ⟨byte, _, _, rfl, ⟨-, rfl⟩, sign, _, _, rfl, ⟨hbyte, rfl⟩, n, _, _, rfl, ⟨hn, rfl⟩, rfl,
    rfl⟩
  have hle : digitCount (sign * n).natAbs ≤ digitCount n := by
    have hvalue : (sign * n).natAbs ≤ n := by
      rcases sign_of_signOf hbyte with rfl | rfl | rfl <;> omega
    exact digitCount_le.mpr (hvalue.trans_lt (lt_pow_digitCount n))
  refine ⟨_, ⟨by omega, rfl⟩, ?_, reads_integer (by omega)⟩
  rw [length_putInteger, length_putNatural, List.append_nil, List.nil_append, List.length_append,
    Bytes.length_ofNat, length_putNatural]
  omega

theorem takes_text : Takes text fun s written => written = putText s := by
  apply Takes.mono
  case h =>
    apply (takes_word 8).bind
    intro count
    apply (takes_take count (.inr rfl)).bind
      (V := fun bytes s written => Utf8.encode s = bytes ∧ written = [])
    intro bytes
    split
    · next s hdecode =>
      apply (takes_pure s).mono
      rintro s written ⟨rfl, rfl⟩
      exact ⟨Utf8.encode_of_decode hdecode, rfl⟩
    · exact takes_throw _
  rintro s _ ⟨count, _, _, rfl, ⟨-, rfl⟩, bytes, _, _, rfl, ⟨rfl, rfl⟩, rfl, rfl⟩
  rw [List.append_nil, putText]

end Wire

end Homomorphic
