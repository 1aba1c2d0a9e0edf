import Homomorphic.Text.Hex
import Mathlib

namespace Homomorphic.Hex

theorem mapM_digitValue? {ds : List ℕ} (h : ∀ d ∈ ds, d < 16) :
    (ds.map digit).mapM digitValue? = some ds := by
  induction ds with
  | nil => rfl
  | cons d ds ih =>
    obtain ⟨hd, hds⟩ := List.forall_mem_cons.mp h
    rw [List.map_cons, List.mapM_cons, digitValue?_digit hd, ih hds]
    rfl

theorem exists_natDigits (n : ℕ) : ∃ d rest, natDigits n = digit d :: rest ∧ d < 16 := by
  obtain ⟨d, ds, hdigits, -⟩ := Digits.ofNat_eq_cons (show 1 < 16 by decide) n
  have hlt : d < 16 := Digits.lt_of_mem_ofNat (by decide) n d (hdigits ▸ List.mem_cons_self)
  exact ⟨d, _, congrArg (List.map digit) hdigits, hlt⟩

theorem readNat?_natDigits (n : ℕ) : readNat? (natDigits n) = some n := by
  obtain ⟨d, rest, hdigits, -⟩ := exists_natDigits n
  have hnonempty : (natDigits n).isEmpty = false := by rw [hdigits]; rfl
  rw [readNat?, hnonempty, natDigits, mapM_digitValue? (Digits.lt_of_mem_ofNat (by decide) n)]
  exact congrArg some (Digits.toNat_ofNat (by decide) n)

theorem toNat?_ofNat (n : ℕ) : toNat? (ofNat n) = some n := by
  rw [toNat?, ofNat, String.toList_ofList, readNat?_natDigits]

theorem digit_ne_minus {d : ℕ} (h : d < 16) : digit d ≠ '-' := by
  revert d
  decide

theorem readInt?_natDigits (n : ℕ) : readInt? (natDigits n) = some (n : ℤ) := by
  obtain ⟨d, rest, hdigits, hd⟩ := exists_natDigits n
  rw [readInt?, readNat?_natDigits]
  · rfl
  · intro digits heq
    rw [hdigits] at heq
    exact digit_ne_minus hd (List.cons.inj heq).1

theorem toInt?_ofInt (x : ℤ) : toInt? (ofInt x) = some x := by
  rw [toInt?, ofInt, String.toList_ofList]
  split_ifs with hneg
  · have hvalue : -(x.natAbs : ℤ) = x := by omega
    rw [readInt?, readNat?_natDigits]
    exact congrArg some hvalue
  · have hvalue : (x.natAbs : ℤ) = x := by omega
    rw [readInt?_natDigits, hvalue]

theorem readBytes?_flatMap (bytes : Bytes) :
    readBytes? (bytes.flatMap fun b => [digit (b.toNat / 16), digit (b.toNat % 16)]) = some bytes := by
  induction bytes with
  | nil => rfl
  | cons b bytes ih =>
    have hb := b.toNat_lt
    have hbyte : 16 * (b.toNat / 16) + b.toNat % 16 = b.toNat := Nat.div_add_mod ..
    rw [List.flatMap_cons]
    simp only [List.cons_append, List.nil_append, readBytes?, ih,
      digitValue?_digit (show b.toNat / 16 < 16 by omega),
      digitValue?_digit (show b.toNat % 16 < 16 by omega), Option.bind_eq_bind, Option.bind_some, hbyte, UInt8.ofNat_toNat]
    rfl

theorem toBytes?_ofBytes (bytes : Bytes) : toBytes? (ofBytes bytes) = some bytes := by
  rw [toBytes?, ofBytes, String.toList_ofList, readBytes?_flatMap]

end Homomorphic.Hex
