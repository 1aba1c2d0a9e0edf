import Homomorphic.ElGamal.BabySteps
import Homomorphic.ElGamal.Bounds
import Homomorphic.Proofs.Curve.PointGroup
import Homomorphic.Proofs.Residue

namespace Homomorphic.ElGamal.BabySteps

open PointGroup

variable {E : PointGroup} {G : Type} [AddCommGroup G] {element : E.Point → G}

structure Correct (t : BabySteps E) (element : E.Point → G) : Prop where
  size_pos : 0 < t.size.toNat
  size_le : t.size.toNat ≤ 2 ^ Limits.maxTableBits
  made_giant : E.Made t.giant
  giant : element t.giant = t.size.toNat • element E.base
  lookup {a : E.Point} {s : ℕ} (ha : E.Made a) (hs : s < E.order)
    (helement : element a = s • element E.base) :
    t.multiplier[E.encode a]? = if s < t.size.toNat then some (UInt64.ofNat s) else none

theorem toNat_size_build {tableBits : UInt32} (hbits : tableBits.toNat ≤ Limits.maxTableBits) :
    (build E tableBits).size.toNat = 2 ^ tableBits.toNat := by
  rw [Limits.maxTableBits] at hbits
  have hpow : 2 ^ tableBits.toNat ≤ 2 ^ 20 := Nat.pow_le_pow_right (by omega) hbits
  change ((1 : UInt64) <<< tableBits.toUInt64).toNat = _
  rw [UInt64.toNat_shiftLeft, UInt32.toNat_toUInt64, Nat.mod_eq_of_lt (by omega : tableBits.toNat < 64),
    UInt64.toNat_one, Nat.one_shiftLeft, Nat.mod_eq_of_lt (by omega)]

section Table

variable (h : E.Represents element)

include h

theorem fill_snd (count j : ℕ) {point : E.Point} (hpoint : E.Made point)
    (table : Std.HashMap Bytes UInt64) :
    E.Made (fill E count j point table).2 ∧
      element (fill E count j point table).2 = element point + count • element E.base := by
  induction count generalizing j point table with
  | zero => exact ⟨hpoint, by rw [fill, zero_nsmul, add_zero]⟩
  | succ count ih =>
    obtain ⟨hmade, helement⟩ :=
      ih (j + 1) (hpoint.add .base) (table.insert (E.encode point) (UInt64.ofNat j))
    refine ⟨hmade, ?_⟩
    rw [fill, helement, h.add hpoint .base, succ_nsmul', add_assoc]

theorem getElem?_fill_fst (count j : ℕ) {point a : E.Point} {s : ℕ} (hpoint : E.Made point)
    (hmultiple : element point = j • element E.base) (hcount : j + count ≤ E.order)
    (ha : E.Made a) (hs : s < E.order) (helement : element a = s • element E.base)
    (table : Std.HashMap Bytes UInt64) :
    (fill E count j point table).1[E.encode a]? =
      if j ≤ s ∧ s < j + count then some (UInt64.ofNat s) else table[E.encode a]? := by
  induction count generalizing j point table with
  | zero => rw [fill, if_neg (by omega)]
  | succ count ih =>
    have hnext : element (E.add point E.base) = (j + 1) • element E.base := by
      rw [h.add hpoint .base, hmultiple, succ_nsmul]
    have hkey : E.encode point = E.encode a ↔ j = s := by
      rw [h.encode hpoint ha, hmultiple, helement, h.nsmul_base_inj (by omega) hs]
    rw [fill, ih (j + 1) (hpoint.add .base) hnext (by omega), Std.HashMap.getElem?_insert]
    by_cases hjs : j = s
    · rw [if_neg (by omega), if_pos (beq_iff_eq.mpr (hkey.mpr hjs)), if_pos (by omega), hjs]
    · have hne : ¬ (E.encode point == E.encode a) = true := fun he => hjs (hkey.mp (beq_iff_eq.mp he))
      rw [if_neg hne]
      congr 1
      exact propext ⟨fun hrange => by omega, fun hrange => by omega⟩

theorem correct_build {tableBits : UInt32} (hbits : tableBits.toNat ≤ Limits.maxTableBits)
    (horder : 2 ^ Limits.maxTableBits ≤ E.order) : (build E tableBits).Correct element := by
  have hsize := toNat_size_build (E := E) hbits
  have hpow : 2 ^ tableBits.toNat ≤ 2 ^ Limits.maxTableBits := Nat.pow_le_pow_right (by omega) hbits
  obtain ⟨hmade, hgiant⟩ := fill_snd h (1 <<< tableBits.toNat) 0 .zero ∅
  rw [h.zero, zero_add] at hgiant
  refine ⟨?_, ?_, hmade, ?_, ?_⟩
  · rw [hsize]
    exact Nat.two_pow_pos _
  · rwa [hsize]
  · rw [hsize, ← Nat.one_shiftLeft]
    exact hgiant
  · intro a s ha hs helement
    have hzero : element E.zero = 0 • element E.base := by rw [h.zero, zero_nsmul]
    have hfill := getElem?_fill_fst h (1 <<< tableBits.toNat) 0 .zero hzero
      (by rw [Nat.one_shiftLeft]; omega) ha hs helement ∅
    rw [hsize]
    change (fill E (1 <<< tableBits.toNat) 0 E.zero ∅).1[E.encode a]? = _
    rw [hfill, Nat.one_shiftLeft]
    simp

end Table

section Words

variable {bound span size i j : UInt64}

theorem toNat_double (hbound : bound.toNat ≤ Limits.maxMaxPlaintext) :
    (2 * bound).toNat = 2 * bound.toNat := by
  have hsmall : bound.toNat ≤ 2 ^ 44 := hbound
  have htwo : (2 : UInt64).toNat = 2 := rfl
  rw [UInt64.toNat_mul, htwo, Nat.mod_eq_of_lt (by omega)]

theorem toNat_succ (hi : i.toNat + 1 < 2 ^ 64) : (i + 1).toNat = i.toNat + 1 := by
  rw [UInt64.toNat_add, UInt64.toNat_one, Nat.mod_eq_of_lt hi]

theorem toNat_succ_of_lt (hi : i < span) : (i + 1).toNat = i.toNat + 1 := by
  have hword := span.toNat_lt
  rw [UInt64.lt_iff_toNat_lt] at hi
  exact toNat_succ (by omega)

theorem shifted_lt (hspan : span.toNat + size.toNat < 2 ^ 64)
    (hi : i.toNat ≤ span.toNat / size.toNat) (hj : j.toNat < size.toNat) :
    i.toNat * size.toNat + j.toNat < 2 ^ 64 := by
  have hreach : i.toNat * size.toNat ≤ span.toNat :=
    (Nat.mul_le_mul_right _ hi).trans (Nat.div_mul_le_self _ _)
  omega

theorem toNat_shifted (hspan : span.toNat + size.toNat < 2 ^ 64)
    (hi : i.toNat ≤ span.toNat / size.toNat) (hj : j.toNat < size.toNat) :
    (i * size + j).toNat = i.toNat * size.toNat + j.toNat := by
  have hlt := shifted_lt hspan hi hj
  rw [UInt64.toNat_add, UInt64.toNat_mul, Nat.mod_add_mod, Nat.mod_eq_of_lt hlt]

theorem search_eq_searchFrom {t : BabySteps E} (hbound : bound.toNat ≤ Limits.maxMaxPlaintext)
    (point : E.Point) :
    t.search point bound = t.searchFrom bound (2 * bound) (2 * bound.toNat / t.size.toNat + 1) 0
      (E.add point (E.mulBase bound.toNat)) 0 := by
  have hsmall : bound.toNat ≤ 2 ^ 44 := hbound
  have hquotient : (2 * bound / t.size).toNat = 2 * bound.toNat / t.size.toNat := by
    rw [UInt64.toNat_div, toNat_double hbound]
  rw [search, if_neg (by rw [UInt64.size]; omega), ← hquotient]

end Words

section Search

variable {t : BabySteps E} {bound span : UInt64} {s : ℕ}

theorem searchFrom_of_nsmul (h : E.Represents element) (ht : t.Correct element) (hs : s < E.order)
    (hspan : span.toNat + t.size.toNat < 2 ^ 64) (left : ℕ) (i : UInt64) {point : E.Point}
    (taken : ℕ) (hpoint : E.Made point) (hi : i.toNat * t.size.toNat ≤ s)
    (hleft : i.toNat + left = span.toNat / t.size.toNat + 1)
    (helement : element point = (s - i.toNat * t.size.toNat) • element E.base) :
    t.searchFrom bound span left i point taken =
      { answer :=
          if s ≤ span.toNat then some ((UInt64.ofNat s).toInt64 - bound.toInt64) else none
        giantSteps := taken + min (s / t.size.toNat - i.toNat) left } := by
  have hsize := ht.size_pos
  induction left generalizing i point taken with
  | zero =>
    have hpast := Nat.lt_mul_div_succ span.toNat hsize
    rw [← hleft, add_zero, mul_comm] at hpast
    rw [searchFrom, if_neg (by omega), Nat.min_zero, add_zero]
  | succ left ih =>
    have hrange : i.toNat ≤ span.toNat / t.size.toNat := by omega
    -- The table is hit just if the rest of the logarithm is less than a giant step.
    have hlookup := ht.lookup hpoint (by omega) helement
    rw [searchFrom]
    by_cases hnear : s - i.toNat * t.size.toNat < t.size.toNat
    · rw [if_pos hnear] at hlookup
      have hrest : (UInt64.ofNat (s - i.toNat * t.size.toNat)).toNat =
          s - i.toNat * t.size.toNat :=
        UInt64.toNat_ofNat_of_lt' (hnear.trans t.size.toNat_lt)
      have hj := hrest.trans_lt hnear
      have hlt := shifted_lt hspan hrange hj
      rw [hrest, Nat.add_sub_cancel' hi] at hlt
      have hshifted : i * t.size + UInt64.ofNat (s - i.toNat * t.size.toNat) = UInt64.ofNat s := by
        apply UInt64.toNat.inj
        rw [toNat_shifted hspan hrange hj, hrest, UInt64.toNat_ofNat_of_lt' hlt,
          Nat.add_sub_cancel' hi]
      have hquotient : s / t.size.toNat = i.toNat :=
        Nat.div_eq_of_lt_le hi (by rw [Nat.add_mul, one_mul]; omega)
      simp only [hlookup, hshifted, UInt64.lt_iff_toNat_lt, UInt64.toNat_ofNat_of_lt' hlt,
        hquotient, Nat.sub_self, Nat.zero_min, add_zero]
      by_cases hpast : span.toNat < s
      · rw [if_pos hpast, if_neg (by omega)]
      · rw [if_neg hpast, if_pos (by omega)]
    · rw [if_neg hnear] at hlookup
      rw [hlookup]
      have hspan' : i.toNat ≤ span.toNat := hrange.trans (Nat.div_le_self _ _)
      have hnext : (i + 1).toNat = i.toNat + 1 := toNat_succ (by omega)
      have hmul : (i + 1).toNat * t.size.toNat = i.toNat * t.size.toNat + t.size.toNat := by
        rw [hnext, Nat.add_mul, one_mul]
      have hquotient : i.toNat + 1 ≤ s / t.size.toNat := by
        rw [Nat.le_div_iff_mul_le hsize, ← hnext, hmul]
        omega
      have helement' : element (E.sub point t.giant) =
          (s - (i + 1).toNat * t.size.toNat) • element E.base := by
        rw [h.sub hpoint ht.made_giant, helement, ht.giant, hmul, Nat.sub_add_eq,
          sub_nsmul _ (Nat.le_of_not_lt hnear), sub_eq_add_neg]
      change t.searchFrom bound span left (i + 1) (E.sub point t.giant) (taken + 1) = _
      rw [ih (i + 1) (taken + 1) (hpoint.sub ht.made_giant) (by omega) (by omega) helement', hnext]
      congr 1
      omega

theorem toInt_toInt64 {x : UInt64} (hx : 2 * x.toNat < 2 ^ 64) : x.toInt64.toInt = x.toNat :=
  BitVec.toInt_eq_toNat_of_lt hx

theorem toInt_sub_toInt64 {x y : UInt64} (hx : 2 * x.toNat < 2 ^ 64) (hy : 2 * y.toNat < 2 ^ 64) :
    (x.toInt64 - y.toInt64).toInt = (x.toNat : ℤ) - y.toNat := by
  rw [Int64.toInt_sub, toInt_toInt64 hx, toInt_toInt64 hy]
  apply Int.bmod_eq_of_le <;> omega

theorem scalar_eq_iff {B : ℕ} (horder : 2 * B < E.order) {v x : ℤ} (hx : x ∈ Set.Icc (-(B : ℤ)) B) :
    x ≡ v [ZMOD E.order] ↔ (E.scalar (v + B) : ℤ) = x + B := by
  obtain ⟨hlow, hhigh⟩ := hx
  have hscalar := scalar_congr (E := E) (v + B)
  constructor
  · intro hxv
    have hlt := scalar_lt (E := E) (v + B)
    exact eq_of_modEq_of_lt (hscalar.trans (hxv.symm.add_right B)) (by omega) (by omega)
  · intro heq
    rw [heq] at hscalar
    exact Int.ModEq.add_right_cancel' B hscalar

theorem search_of_zsmul (h : E.Represents element) (ht : t.Correct element)
    (hbound : bound.toNat ≤ Limits.maxMaxPlaintext) {point : E.Point} (hpoint : E.Made point) {v : ℤ}
    (helement : element point = v • element E.base) :
    t.search point bound =
      { answer :=
          if E.scalar (v + bound.toNat) ≤ 2 * bound.toNat then
            some ((UInt64.ofNat (E.scalar (v + bound.toNat))).toInt64 - bound.toInt64)
          else none
        giantSteps :=
          min (E.scalar (v + bound.toNat) / t.size.toNat) (2 * bound.toNat / t.size.toNat + 1) } := by
  have hsmall : bound.toNat ≤ 2 ^ 44 := hbound
  have hsize : t.size.toNat ≤ 2 ^ 20 := ht.size_le
  have hspan := toNat_double hbound
  have hshifted : element (E.add point (E.mulBase bound.toNat)) =
      (E.scalar (v + bound.toNat) - (0 : UInt64).toNat * t.size.toNat) • element E.base := by
    rw [h.add hpoint (.mulBase _), helement, h.mulBase, ← natCast_zsmul, ← natCast_zsmul, ← add_zsmul,
      h.zsmul_base_eq_iff, UInt64.toNat_zero, zero_mul, Nat.sub_zero]
    exact (scalar_congr _).symm
  rw [search_eq_searchFrom hbound, searchFrom_of_nsmul h ht (scalar_lt _) (by omega) _ 0 0
    (hpoint.add (.mulBase _)) _ _ hshifted, hspan, UInt64.toNat_zero, Nat.sub_zero, zero_add]
  · rw [UInt64.toNat_zero, zero_mul]
    exact Nat.zero_le _
  · rw [UInt64.toNat_zero, zero_add, hspan]

theorem solve_of_zsmul (h : E.Represents element) (ht : t.Correct element)
    (hbound : bound.toNat ≤ Limits.maxMaxPlaintext) (horder : 2 * bound.toNat < E.order)
    {point : E.Point} (hpoint : E.Made point) {v : ℤ} (helement : element point = v • element E.base) :
    (∃ m, t.solve point bound = some m ∧
        IsOnlyIn (Set.Icc (-(bound.toNat : ℤ)) bound.toNat) E.order v m.toInt) ∨
      (t.solve point bound = none ∧
        ∀ x ∈ Set.Icc (-(bound.toNat : ℤ)) bound.toNat, ¬ x ≡ v [ZMOD E.order]) := by
  have hsmall : bound.toNat ≤ 2 ^ 44 := hbound
  rw [solve, search_of_zsmul h ht hbound hpoint helement]
  dsimp only
  by_cases hin : E.scalar (v + bound.toNat) ≤ 2 * bound.toNat
  · left
    rw [if_pos hin]
    have hword : (UInt64.ofNat (E.scalar (v + bound.toNat))).toNat = E.scalar (v + bound.toNat) := by
      apply UInt64.toNat_ofNat_of_lt'
      rw [UInt64.size]
      omega
    refine ⟨_, rfl, fun x => ?_⟩
    rw [toInt_sub_toInt64 (by omega) (by omega), hword]
    constructor
    · rintro ⟨hx, hxv⟩
      have heq := (scalar_eq_iff horder hx).mp hxv
      omega
    · rintro rfl
      have hx : (E.scalar (v + bound.toNat) : ℤ) - bound.toNat ∈
          Set.Icc (-(bound.toNat : ℤ)) bound.toNat := by
        rw [Set.mem_Icc]
        omega
      exact ⟨hx, (scalar_eq_iff horder hx).mpr (by omega)⟩
  · right
    rw [if_neg hin]
    refine ⟨rfl, fun x hx hxv => ?_⟩
    have heq := (scalar_eq_iff horder hx).mp hxv
    rw [Set.mem_Icc] at hx
    omega

end Search

section Congruence

variable {t : BabySteps E} {bound span : UInt64} {a b : E.Point}

theorem searchFrom_congr (h : E.Represents element) (hgiant : E.Made t.giant) (left : ℕ) (i : UInt64)
    (taken : ℕ) (ha : E.Made a) (hb : E.Made b) (hab : element a = element b) :
    t.searchFrom bound span left i a taken = t.searchFrom bound span left i b taken := by
  induction left generalizing i taken a b with
  | zero => rfl
  | succ left ih =>
    have hkey : E.encode a = E.encode b := (h.encode ha hb).mpr hab
    have hnext : element (E.sub a t.giant) = element (E.sub b t.giant) := by
      rw [h.sub ha hgiant, h.sub hb hgiant, hab]
    rw [searchFrom, searchFrom, hkey]
    split
    · rfl
    · exact ih _ _ (ha.sub hgiant) (hb.sub hgiant) hnext

theorem solve_congr (h : E.Represents element) (hgiant : E.Made t.giant) (ha : E.Made a)
    (hb : E.Made b) (hab : element a = element b) : t.solve a bound = t.solve b bound := by
  have hshift : E.Made (E.mulBase bound.toNat) := .mulBase _
  have hsum : element (E.add a (E.mulBase bound.toNat)) =
      element (E.add b (E.mulBase bound.toNat)) := by
    rw [h.add ha hshift, h.add hb hshift, hab]
  rw [solve, solve, search, search, searchFrom_congr h hgiant _ _ _ (ha.add hshift) (hb.add hshift) hsum]

end Congruence

end Homomorphic.ElGamal.BabySteps
