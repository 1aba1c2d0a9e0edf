import Homomorphic.Bytes.Laws
import Homomorphic.Proofs.Rejection
import Homomorphic.Proofs.Sampling

/-!
How many strings of bytes lead to each sample. The strings of any one length are shared out evenly among
the values that a sample may have: rejection throws away whole values, never a part of one.
-/

namespace Homomorphic

namespace Bytes

theorem finite_of_length (count : ℕ) (P : Bytes → Prop) :
    {bytes : Bytes | bytes.length = count ∧ P bytes}.Finite :=
  (List.finite_length_eq UInt8 count).subset fun _ h => h.1

def PrefixFree (P : Bytes → Prop) : Prop :=
  ∀ ⦃s s' t t'⦄, P s → P s' → s ++ t = s' ++ t' → s = s'

section Append

open scoped Function

variable {P Q : Bytes → Prop} (hP : PrefixFree P)

include hP

theorem ncard_image2_append {S T : Set Bytes} (hS : ∀ s ∈ S, P s) :
    (Set.image2 (· ++ ·) S T).ncard = S.ncard * T.ncard := by
  rw [← Set.image_prod, ← Set.ncard_prod]
  apply Set.InjOn.ncard_image
  rintro ⟨s, t⟩ ⟨hs, -⟩ ⟨s', t'⟩ ⟨hs', -⟩ (happend : s ++ t = s' ++ t')
  obtain rfl := hP (hS s hs) (hS s' hs') happend
  rw [List.append_cancel_left happend]

theorem ncard_append (count : ℕ) :
    {bytes | bytes.length = count ∧ ∃ s t, bytes = s ++ t ∧ P s ∧ Q t}.ncard =
      ∑ i : Fin (count + 1), {s : Bytes | s.length = i ∧ P s}.ncard *
        {t : Bytes | t.length = count - i ∧ Q t}.ncard := by
  let joined (i : Fin (count + 1)) : Set Bytes :=
    Set.image2 (· ++ ·) {s | s.length = i ∧ P s} {t | t.length = count - i ∧ Q t}
  have hsplit : {bytes | bytes.length = count ∧ ∃ s t, bytes = s ++ t ∧ P s ∧ Q t} =
      ⋃ i, joined i := by
    ext bytes
    simp only [Set.mem_iUnion, Set.mem_image2, Set.mem_ofPred_eq, joined]
    constructor
    · rintro ⟨hlength, s, t, rfl, hs, ht⟩
      rw [List.length_append] at hlength
      exact ⟨⟨s.length, by omega⟩, s, ⟨rfl, hs⟩, t, ⟨by dsimp only; omega, ht⟩, rfl⟩
    · rintro ⟨i, s, ⟨hi, hs⟩, t, ⟨hlength, ht⟩, rfl⟩
      refine ⟨?_, s, t, rfl, hs, ht⟩
      rw [List.length_append, hi, hlength]
      omega
  have hfinite (i : Fin (count + 1)) : (joined i).Finite :=
    (finite_of_length _ _).image2 _ (finite_of_length _ _)
  have hdisjoint : Pairwise (Disjoint on joined) := by
    intro i i' hne
    rw [Function.onFun, Set.disjoint_left]
    rintro _ ⟨s, ⟨hi, hs⟩, t, -, rfl⟩ ⟨s', ⟨hi', hs'⟩, t', -, happend⟩
    obtain rfl := hP hs' hs happend
    exact hne (Fin.ext (hi.symm.trans hi'))
  rw [hsplit, Set.ncard_iUnion_of_finite hfinite hdisjoint, finsum_eq_sum_of_fintype]
  refine Finset.sum_congr rfl fun i _ => ?_
  exact ncard_image2_append hP fun s hs => hs.2

end Append

end Bytes

/-- For every length, as many strings lead to one of the values as to any other of them, and none to
anything else; some length leads to them all. -/
structure EvenOver {α : Type} (values : Set α) (number : ℕ → α → ℕ) : Prop where
  same : ∀ count, ∀ a ∈ values, ∀ b ∈ values, number count a = number count b
  outside : ∀ count, ∀ a ∉ values, number count a = 0
  possible : ∃ count, ∀ a ∈ values, 0 < number count a

namespace Draw

variable {α : Type} {d : Draw α} {count : ℕ} {a : α}

/-- How many strings of so many bytes the draw takes to end with the value. -/
noncomputable def tally (d : Draw α) (count : ℕ) (a : α) : ℕ :=
  {bytes : Bytes | bytes.length = count ∧ d.Takes bytes (.ok a)}.ncard

structure Uniform (d : Draw α) (values : Set α) : Prop where
  forward : d.Forward
  even : EvenOver values d.tally

theorem prefixFree_takes {r : Except Error α} : Bytes.PrefixFree (d.Takes · r) :=
  fun _ _ _ _ hs hs' heq => (hs.eq_of_append hs' heq).1

theorem tally_screened (hd : d.Forward) (passes : α → Prop) [DecidablePred passes] :
    (d.screened passes).tally count (some a) = if passes a then d.tally count a else 0 := by
  simp only [tally, takes_screened_some_iff hd]
  split
  · next h => simp only [h, true_and]
  · next h => simp [h]

theorem Uniform.evenOver_screened {values : Set α} (h : d.Uniform values) (passes : α → Prop)
    [DecidablePred passes] :
    EvenOver {a | a ∈ values ∧ passes a} fun count a => (d.screened passes).tally count (some a) where
  same count a ha b hb := by
    rw [tally_screened h.forward, tally_screened h.forward, if_pos ha.2, if_pos hb.2]
    exact h.even.same count a ha.1 b hb.1
  outside count a ha := by
    rw [tally_screened h.forward]
    split
    · next hpasses => exact h.even.outside count a fun hmem => ha ⟨hmem, hpasses⟩
    · rfl
  possible := by
    obtain ⟨count, hpos⟩ := h.even.possible
    refine ⟨count, fun a ha => ?_⟩
    rw [tally_screened h.forward, if_pos ha.2]
    exact hpos a ha.1

section Retry

variable {attempt : Draw (Option α)} {failure : Error} {n : ℕ}

theorem tally_retry_zero : (retry attempt failure 0).tally count a = 0 := by
  rw [tally, Set.ncard_eq_zero (Bytes.finite_of_length _ _)]
  refine Set.eq_empty_of_forall_notMem ?_
  rintro bytes ⟨-, h⟩
  have hend := h _ (Entropy.next_ofBytes bytes)
  cases hend

theorem tally_retry_succ (h : attempt.Forward) :
    (retry attempt failure (n + 1)).tally count a = attempt.tally count (some a) +
      ∑ i : Fin (count + 1), attempt.tally i none * (retry attempt failure n).tally (count - i) a := by
  let first := {bytes : Bytes | bytes.length = count ∧ attempt.Takes bytes (.ok (some a))}
  let later := {bytes : Bytes | bytes.length = count ∧ ∃ s t, bytes = s ++ t ∧
    attempt.Takes s (.ok none) ∧ (retry attempt failure n).Takes t (.ok a)}
  have hsplit : {bytes : Bytes | bytes.length = count ∧
      (retry attempt failure (n + 1)).Takes bytes (.ok a)} = first ∪ later := by
    ext bytes
    simp only [Set.mem_ofPred_eq, takes_retry_succ_iff h, and_or_left, Set.mem_union, first, later]
  -- A string on which the first attempt gives a value does not start with one on which it gives none.
  have hdisjoint : Disjoint first later := by
    rw [Set.disjoint_left]
    rintro bytes ⟨-, hsome⟩ ⟨-, s, t, hbytes, hnone, -⟩
    obtain ⟨-, -, heq⟩ := hsome.eq_of_append hnone ((List.append_nil bytes).trans hbytes)
    cases heq
  rw [tally, hsplit, Set.ncard_union_eq hdisjoint (Bytes.finite_of_length _ _)
    (Bytes.finite_of_length _ _), Bytes.ncard_append prefixFree_takes]
  rfl

theorem tally_retry_congr {b : α} (h : attempt.Forward)
    (hab : ∀ count, attempt.tally count (some a) = attempt.tally count (some b)) (n count : ℕ) :
    (retry attempt failure n).tally count a = (retry attempt failure n).tally count b := by
  induction n generalizing count with
  | zero => rw [tally_retry_zero, tally_retry_zero]
  | succ n ih => simp only [tally_retry_succ h, hab, ih]

theorem tally_retry_eq_zero (h : attempt.Forward) (ha : ∀ count, attempt.tally count (some a) = 0)
    (n count : ℕ) : (retry attempt failure n).tally count a = 0 := by
  induction n generalizing count with
  | zero => exact tally_retry_zero
  | succ n ih => simp only [tally_retry_succ h, ha, ih, mul_zero, Finset.sum_const_zero, add_zero]

theorem Uniform.retry {values : Set α} (h : attempt.Forward)
    (heven : EvenOver values fun count a => attempt.tally count (some a)) (hn : 0 < n) :
    (retry attempt failure n).Uniform values where
  forward := h.retry failure n
  even.same count a ha b hb := tally_retry_congr h (fun count => heven.same count a ha b hb) n count
  even.outside count a ha := tally_retry_eq_zero h (fun count => heven.outside count a ha) n count
  even.possible := by
    obtain ⟨count, hpos⟩ := heven.possible
    obtain ⟨n, rfl⟩ := Nat.exists_eq_succ_of_ne_zero hn.ne'
    refine ⟨count, fun a ha => ?_⟩
    rw [Nat.succ_eq_add_one, tally_retry_succ h]
    exact Nat.add_pos_left (hpos a ha) _

theorem Uniform.retry_screened {values : Set α} (h : d.Uniform values) (passes : α → Prop)
    [DecidablePred passes] (failure : Error) (hn : 0 < n) :
    (Draw.retry (d.screened passes) failure n).Uniform {a | a ∈ values ∧ passes a} :=
  .retry h.forward.screened (h.evenOver_screened passes) hn

end Retry

end Draw

namespace Entropy

open Draw

section Bits

variable {width v : ℕ} {bytes : Bytes}

theorem le_ceilDiv (width : ℕ) : width ≤ 8 * ceilDiv width 8 := by
  rw [ceilDiv]
  omega

theorem takes_bits (h : bytes.length = ceilDiv width 8) :
    (bits width).Takes bytes (.ok (ofWidth width bytes)) := by
  intro e hnext
  rw [h] at hnext ⊢
  rw [outcome_bits, hnext]
  rfl

theorem takes_bits_iff : (bits width).Takes bytes (.ok v) ↔
    bytes.length = ceilDiv width 8 ∧ ofWidth width bytes = v := by
  constructor
  · intro h
    have hend := (h _ (next_ofBytes bytes)).symm.trans (outcome_bits width _)
    obtain ⟨hvalue, hadvance⟩ := Prod.mk.inj hend
    have hlength : bytes.length = ceilDiv width 8 := eq_of_advance_eq hadvance
    rw [← hlength, next_ofBytes] at hvalue
    cases hvalue
    exact ⟨hlength, rfl⟩
  · rintro ⟨h, rfl⟩
    exact takes_bits h

theorem forward_bits (width : ℕ) : (bits width).Forward :=
  (forward_take _).bind fun _ => forward_pure _

theorem add_mul_lt_pow {count k : ℕ} (hwidth : width ≤ 8 * count) (hv : v < 2 ^ width)
    (hk : k < 2 ^ (8 * count - width)) : v + 2 ^ width * k < 256 ^ count := by
  calc v + 2 ^ width * k
    _ < 2 ^ width * (k + 1) := by rw [mul_add_one, add_comm]; omega
    _ ≤ 2 ^ width * 2 ^ (8 * count - width) := Nat.mul_le_mul_left _ hk
    _ = 256 ^ count := by
      rw [← pow_add, Nat.add_sub_cancel' hwidth, pow_mul]
      norm_num

theorem ofWidth_eq_iff (hv : v < 2 ^ width) :
    bytes.length = ceilDiv width 8 ∧ ofWidth width bytes = v ↔
      ∃ k < 2 ^ (8 * ceilDiv width 8 - width),
        Bytes.ofNat (ceilDiv width 8) (v + 2 ^ width * k) = bytes := by
  have hwidth := le_ceilDiv width
  constructor
  · rintro ⟨hlength, rfl⟩
    refine ⟨bytes.toNat / 2 ^ width, ?_, ?_⟩
    · apply Nat.div_lt_of_lt_mul
      rw [← pow_add, Nat.add_sub_cancel' hwidth, pow_mul, Bytes.toNat_eq_value, ← hlength]
      exact Bytes.value_lt bytes
    · rw [ofWidth_eq hlength, Nat.mod_add_div, ← hlength, Bytes.ofNat_toNat]
  · rintro ⟨k, hk, rfl⟩
    refine ⟨Bytes.length_ofNat _ _, ?_⟩
    rw [ofWidth_eq (Bytes.length_ofNat _ _), Bytes.toNat_ofNat,
      Nat.mod_eq_of_lt (add_mul_lt_pow hwidth hv hk), Nat.add_mul_mod_self_left, Nat.mod_eq_of_lt hv]

theorem ncard_ofWidth (hv : v < 2 ^ width) :
    {bytes : Bytes | bytes.length = ceilDiv width 8 ∧ ofWidth width bytes = v}.ncard =
      2 ^ (8 * ceilDiv width 8 - width) := by
  have hwidth := le_ceilDiv width
  have himage : {bytes : Bytes | bytes.length = ceilDiv width 8 ∧ ofWidth width bytes = v} =
      (fun k => Bytes.ofNat (ceilDiv width 8) (v + 2 ^ width * k)) ''
        Set.Iio (2 ^ (8 * ceilDiv width 8 - width)) := by
    ext bytes
    exact ofWidth_eq_iff hv
  rw [himage, Set.InjOn.ncard_image, Set.ncard_Iio_nat]
  intro k hk k' hk' heq
  have hnat := congrArg Bytes.toNat heq
  simp only [Bytes.toNat_ofNat, Nat.mod_eq_of_lt (add_mul_lt_pow hwidth hv hk),
    Nat.mod_eq_of_lt (add_mul_lt_pow hwidth hv hk')] at hnat
  exact Nat.eq_of_mul_eq_mul_left (Nat.two_pow_pos width) (Nat.add_left_cancel hnat)

theorem tally_bits (hv : v < 2 ^ width) :
    (bits width).tally (ceilDiv width 8) v = 2 ^ (8 * ceilDiv width 8 - width) := by
  rw [tally, ← ncard_ofWidth hv]
  congr 1
  ext bytes
  simp only [Set.mem_ofPred_eq, takes_bits_iff]
  tauto

theorem tally_bits_eq_zero {count : ℕ} (h : ¬ (count = ceilDiv width 8 ∧ v < 2 ^ width)) :
    (bits width).tally count v = 0 := by
  rw [tally, Set.ncard_eq_zero (Bytes.finite_of_length _ _)]
  refine Set.eq_empty_of_forall_notMem ?_
  rintro bytes ⟨rfl, hbytes⟩
  obtain ⟨hlength, rfl⟩ := takes_bits_iff.mp hbytes
  exact h ⟨hlength, ofWidth_lt hlength⟩

theorem uniform_bits (width : ℕ) : (bits width).Uniform {v | v < 2 ^ width} where
  forward := forward_bits width
  even.same count v hv w hw := by
    by_cases h : count = ceilDiv width 8
    · rw [h, tally_bits hv, tally_bits hw]
    · rw [tally_bits_eq_zero (fun h' => h h'.1), tally_bits_eq_zero (fun h' => h h'.1)]
  even.outside count v hv := tally_bits_eq_zero fun h => hv h.2
  even.possible := by
    refine ⟨ceilDiv width 8, fun v hv => ?_⟩
    rw [tally_bits hv]
    exact Nat.two_pow_pos _

end Bits

section Below

variable {bound : ℕ} {e e' : Entropy} {error : Error}

theorem below_eq (h : 0 < bound) : below bound =
    Draw.retry ((bits (bitLength bound)).screened (· < bound))
      (.randomnessExhausted (.below (bitLength bound))) Limits.maxRandomAttempts := if_neg h.ne'

theorem uniform_below (h : 0 < bound) : (below bound).Uniform {v | v < bound} := by
  have hvalues : {v | v < bound} = {v | v ∈ {v | v < 2 ^ bitLength bound} ∧ v < bound} := by
    ext v
    exact (and_iff_right_of_imp fun hv => hv.trans (lt_two_pow_bitLength bound)).symm
  rw [below_eq h, hvalues]
  exact (uniform_bits _).retry_screened (· < bound) _ (by decide)

theorem outcome_below_eq_error (h : 0 < bound) : (below bound).outcome e = (.error error, e') ↔
    error = .randomnessExhausted (.below (bitLength bound)) ∧
      Rejected (bits (bitLength bound)) (· < bound) Limits.maxRandomAttempts e e' := by
  rw [below_eq h, outcome_retry_screened_eq_error]
  refine or_iff_left ?_
  rintro ⟨k, -, e₁, -, herror⟩
  rw [outcome_bits] at herror
  cases herror

end Below

section Unit

variable {n : ℕ} {e e' : Entropy} {error : Error}

theorem unit_eq (n : ℕ) : unit n =
    Draw.retry ((below n).screened fun a => a ≠ 0 ∧ Nat.gcd a n = 1) (.randomnessExhausted .unit)
      Limits.maxRandomAttempts := rfl

theorem uniform_unit (h : 0 < n) : (unit n).Uniform {v | 0 < v ∧ v < n ∧ Nat.Coprime v n} := by
  have hvalues : {v | 0 < v ∧ v < n ∧ Nat.Coprime v n} =
      {v | v ∈ {v | v < n} ∧ v ≠ 0 ∧ Nat.gcd v n = 1} := by
    ext v
    rw [Set.mem_ofPred_eq, Set.mem_ofPred_eq, Nat.pos_iff_ne_zero, Nat.Coprime]
    exact and_left_comm
  rw [unit_eq, hvalues]
  exact (uniform_below h).retry_screened _ _ (by decide)

theorem outcome_unit_eq_error (h : 0 < n) : (unit n).outcome e = (.error error, e') ↔
    (error = .randomnessExhausted .unit ∧
      Rejected (below n) (fun a => a ≠ 0 ∧ Nat.gcd a n = 1) Limits.maxRandomAttempts e e') ∨
    error = .randomnessExhausted (.below (bitLength n)) ∧ ∃ k < Limits.maxRandomAttempts, ∃ e₁,
      Rejected (below n) (fun a => a ≠ 0 ∧ Nat.gcd a n = 1) k e e₁ ∧
        Rejected (bits (bitLength n)) (· < n) Limits.maxRandomAttempts e₁ e' := by
  rw [unit_eq, outcome_retry_screened_eq_error]
  refine or_congr_right ?_
  simp only [outcome_below_eq_error h]
  constructor
  · rintro ⟨k, hk, e₁, hbefore, herror, hrun⟩
    exact ⟨herror, k, hk, e₁, hbefore, hrun⟩
  · rintro ⟨herror, k, hk, e₁, hbefore, hrun⟩
    exact ⟨k, hk, e₁, hbefore, herror, hrun⟩

end Unit

theorem samples_are_uniform :
    (∀ width,
      (bits width).Uniform {v | v < 2 ^ width} ∧
      (∀ bytes : Bytes, bytes.length = ceilDiv width 8 →
        ∃ v < 2 ^ width, (bits width).Takes bytes (.ok v)) ∧
      ∀ v < 2 ^ width, (bits width).tally (ceilDiv width 8) v = 2 ^ (8 * ceilDiv width 8 - width)) ∧
    (∀ bound, 0 < bound →
      (below bound).Uniform {v | v < bound} ∧
      ∀ e e' error, (below bound).outcome e = (.error error, e') ↔
        error = .randomnessExhausted (.below (bitLength bound)) ∧
          Rejected (bits (bitLength bound)) (· < bound) 1000 e e') ∧
    ∀ n, 1 < n →
      (unit n).Uniform {v | 0 < v ∧ v < n ∧ Nat.Coprime v n} ∧
      ∀ e e' error, (unit n).outcome e = (.error error, e') ↔
        (error = .randomnessExhausted .unit ∧
          Rejected (below n) (fun a => a ≠ 0 ∧ Nat.gcd a n = 1) 1000 e e') ∨
        error = .randomnessExhausted (.below (bitLength n)) ∧ ∃ k < 1000, ∃ e₁,
          Rejected (below n) (fun a => a ≠ 0 ∧ Nat.gcd a n = 1) k e e₁ ∧
            Rejected (bits (bitLength n)) (· < n) 1000 e₁ e' := by
  refine ⟨fun width => ⟨uniform_bits width, ?_, fun v => tally_bits⟩, ?_, ?_⟩
  · intro bytes hlength
    exact ⟨_, ofWidth_lt hlength, takes_bits hlength⟩
  · intro bound hbound
    exact ⟨uniform_below hbound, fun e e' error => outcome_below_eq_error hbound⟩
  · intro n hn
    have hpos : 0 < n := Nat.zero_lt_of_lt hn
    exact ⟨uniform_unit hpos, fun e e' error => outcome_unit_eq_error hpos⟩

theorem samples_are_uniform_twelve :
    (bits 9).tally 2 511 = 128 ∧ (below 5).tally 3 0 = (below 5).tally 3 4 ∧
      (below 5).tally 3 5 = 0 ∧ (unit 12).tally 4 5 = (unit 12).tally 4 11 ∧
      (unit 12).tally 4 9 = 0 ∧ ∃ count, 0 < (unit 12).tally count 11 := by
  obtain ⟨hbits, hbelow, hunit⟩ := samples_are_uniform
  have hfive := (hbelow 5 (by decide)).1.even
  have htwelve := (hunit 12 (by decide)).1.even
  obtain ⟨count, hpos⟩ := htwelve.possible
  refine ⟨(hbits 9).2.2 511 (by decide), hfive.same 3 0 ?_ 4 ?_, hfive.outside 3 5 ?_,
    htwelve.same 4 5 ?_ 11 ?_, htwelve.outside 4 9 ?_, count, hpos 11 ?_⟩
  all_goals
    simp only [Set.mem_ofPred_eq]
    decide

end Entropy

end Homomorphic
