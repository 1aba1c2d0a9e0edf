import Homomorphic.Proofs.ElGamal.Logarithm

/-!
The search on machine words against the same search on integers without bounds. With a bound and a
table of admitted sizes no step of the search leaves the words, so that both answer alike, whatever
the group and the point are.
-/

namespace Homomorphic.ElGamal

/-- Baby steps that are counted by integers without bounds. -/
structure Unbounded (E : PointGroup) where
  tableBits : ℕ
  multiplier : Std.HashMap Bytes ℕ
  giant : E.Point

namespace Unbounded

variable {E : PointGroup}

def fill (E : PointGroup) : ℕ → ℕ → E.Point → Std.HashMap Bytes ℕ → Std.HashMap Bytes ℕ × E.Point
  | 0, _, point, table => (table, point)
  | count + 1, j, point, table =>
    fill E count (j + 1) (E.add point E.base) (table.insert (E.encode point) j)

def build (E : PointGroup) (tableBits : ℕ) : Unbounded E :=
  let (multiplier, giant) := fill E (2 ^ tableBits) 0 E.zero ∅
  { tableBits, multiplier, giant }

variable (u : Unbounded E)

def searchFrom (bound : ℕ) : ℕ → ℕ → E.Point → Option ℤ
  | 0, _, _ => none
  | left + 1, i, point =>
    match u.multiplier[E.encode point]? with
    | some j =>
      let shifted := i * 2 ^ u.tableBits + j
      if 2 * bound < shifted then none else some ((shifted : ℤ) - bound)
    | none => searchFrom bound left (i + 1) (E.sub point u.giant)

def solve (point : E.Point) (bound : ℕ) : Option ℤ :=
  u.searchFrom bound (2 * bound / 2 ^ u.tableBits + 1) 0 (E.add point (E.mulBase bound))

variable {u} {bound : ℕ}

theorem mem_of_searchFrom {left i : ℕ} {point : E.Point} {m : ℤ}
    (h : u.searchFrom bound left i point = some m) : m ∈ Set.Icc (-(bound : ℤ)) bound := by
  induction left generalizing i point with
  | zero => cases h
  | succ left ih =>
    rw [searchFrom] at h
    split at h
    · dsimp only at h
      split at h
      · cases h
      · cases h
        rw [Set.mem_Icc]
        omega
    · exact ih h

end Unbounded

namespace BabySteps

variable {E : PointGroup} {t : BabySteps E} {u : Unbounded E} {bound i j : UInt64} {point : E.Point}
  {tableBits : UInt32}

inductive Reaches (t : BabySteps E) (point : E.Point) (bound : UInt64) : UInt64 → E.Point → Prop
  | start : Reaches t point bound 0 (E.add point (E.mulBase bound.toNat))
  | next {i : UInt64} {current : E.Point} (h : Reaches t point bound i current)
      (hmiss : t.multiplier[E.encode current]? = none) (hrange : i < 2 * bound / t.size) :
      Reaches t point bound (i + 1) (E.sub current t.giant)

/-- The words computed from the index `i` and the multiplier `j` are the integers they stand for. -/
structure Exact (t : BabySteps E) (bound i j : UInt64) : Prop where
  shifted_lt : i.toNat * t.size.toNat + j.toNat < 2 ^ 64
  shifted : (i * t.size + j).toNat = i.toNat * t.size.toNat + j.toNat
  signed : (i * t.size + j).toInt64.toInt = i.toNat * t.size.toNat + j.toNat
  signed_bound : bound.toInt64.toInt = bound.toNat
  difference : ((i * t.size + j).toInt64 - bound.toInt64).toInt =
    i.toNat * t.size.toNat + j.toNat - bound.toNat

structure SameMultiples (count : ℕ) (table : Std.HashMap Bytes UInt64)
    (unbounded : Std.HashMap Bytes ℕ) : Prop where
  lookup (key : Bytes) : unbounded[key]? = table[key]?.map UInt64.toNat
  lt {key : Bytes} {j : UInt64} (h : table[key]? = some j) : j.toNat < count

structure Counts (t : BabySteps E) (u : Unbounded E) : Prop where
  size : t.size.toNat = 2 ^ u.tableBits
  size_le : t.size.toNat ≤ 2 ^ Limits.maxTableBits
  giant : t.giant = u.giant
  multiples : SameMultiples t.size.toNat t.multiplier u.multiplier

section Table

variable {table : Std.HashMap Bytes UInt64} {unbounded : Std.HashMap Bytes ℕ}

theorem SameMultiples.insert {j : ℕ} (h : SameMultiples j table unbounded) (hj : j < 2 ^ 64)
    (key : Bytes) :
    SameMultiples (j + 1) (table.insert key (UInt64.ofNat j)) (unbounded.insert key j) := by
  have hword : (UInt64.ofNat j).toNat = j := UInt64.toNat_ofNat_of_lt' hj
  constructor
  · intro key'
    rw [Std.HashMap.getElem?_insert, Std.HashMap.getElem?_insert]
    split
    · rw [Option.map_some, hword]
    · exact h.lookup key'
  · intro key' k hk
    rw [Std.HashMap.getElem?_insert] at hk
    split at hk
    · cases hk
      omega
    · exact (h.lt hk).trans j.lt_succ_self

theorem sameMultiples_fill (count j : ℕ) (point : E.Point) (hword : j + count ≤ 2 ^ 64)
    (h : SameMultiples j table unbounded) :
    SameMultiples (j + count) (fill E count j point table).1
      (Unbounded.fill E count j point unbounded).1 := by
  induction count generalizing j point table unbounded with
  | zero => exact h
  | succ count ih =>
    have hnext := h.insert (by omega) (E.encode point)
    rw [fill, Unbounded.fill, ← Nat.add_assoc, Nat.add_right_comm]
    exact ih (j + 1) (E.add point E.base) (by omega) hnext

theorem fill_snd_unbounded (count j : ℕ) (point : E.Point) :
    (fill E count j point table).2 = (Unbounded.fill E count j point unbounded).2 := by
  induction count generalizing j point table unbounded with
  | zero => rfl
  | succ count ih => exact ih _ _

theorem counts_build (hbits : tableBits.toNat ≤ Limits.maxTableBits) :
    (build E tableBits).Counts (Unbounded.build E tableBits.toNat) := by
  have hsize := toNat_size_build (E := E) hbits
  have hpow : 2 ^ tableBits.toNat ≤ 2 ^ Limits.maxTableBits := Nat.pow_le_pow_right (by omega) hbits
  have hword : 2 ^ Limits.maxTableBits ≤ 2 ^ 64 := Nat.pow_le_pow_right (by omega) (by decide)
  have hempty : SameMultiples 0 ∅ ∅ := ⟨fun key => by simp, fun {key j} h => by simp at h⟩
  have hfill := sameMultiples_fill (E := E) (2 ^ tableBits.toNat) 0 E.zero (by omega) hempty
  rw [zero_add] at hfill
  refine ⟨hsize, hsize.trans_le hpow, ?_, ?_⟩
  · change (fill E (1 <<< tableBits.toNat) 0 E.zero ∅).2 = _
    rw [Nat.one_shiftLeft]
    exact fill_snd_unbounded _ _ _
  · rw [hsize]
    change SameMultiples _ (fill E (1 <<< tableBits.toNat) 0 E.zero ∅).1 _
    rw [Nat.one_shiftLeft]
    exact hfill

end Table

section Search

theorem exact_of_le (hbound : bound.toNat ≤ Limits.maxMaxPlaintext)
    (hsize : t.size.toNat ≤ 2 ^ Limits.maxTableBits)
    (hi : i.toNat ≤ 2 * bound.toNat / t.size.toNat) (hj : j.toNat < t.size.toNat) :
    t.Exact bound i j := by
  have hsmall : bound.toNat ≤ 2 ^ 44 := hbound
  have hsize' : t.size.toNat ≤ 2 ^ 20 := hsize
  -- The index is at most the last one, whose giant steps do not go beyond the doubled bound.
  have hreach : i.toNat * t.size.toNat ≤ 2 * bound.toNat :=
    (Nat.mul_le_mul_right _ hi).trans (Nat.div_mul_le_self _ _)
  rw [← toNat_double hbound] at hi
  have hshifted := toNat_shifted (by rw [toNat_double hbound]; omega) hi hj
  have hsigned := toInt_toInt64 (x := i * t.size + j) (by omega)
  have hsignedBound := toInt_toInt64 (x := bound) (by omega)
  have hdifference := toInt_sub_toInt64 (x := i * t.size + j) (y := bound) (by omega) (by omega)
  rw [hshifted] at hsigned hdifference
  push_cast at hsigned hdifference
  exact ⟨by omega, hshifted, hsigned, hsignedBound, hdifference⟩

theorem searchFrom_unbounded (hbound : bound.toNat ≤ Limits.maxMaxPlaintext) (h : t.Counts u)
    (left : ℕ) (i : UInt64) (point : E.Point) (taken : ℕ)
    (hleft : i.toNat + left ≤ 2 * bound.toNat / t.size.toNat + 1) :
    (t.searchFrom bound (2 * bound) left i point taken).answer.map Int64.toInt =
      u.searchFrom bound.toNat left i.toNat point := by
  induction left generalizing i point taken with
  | zero => rfl
  | succ left ih =>
    have hi : i.toNat ≤ 2 * bound.toNat / t.size.toNat := by omega
    rw [searchFrom, Unbounded.searchFrom, h.multiples.lookup, ← h.size, ← h.giant]
    rcases hfound : t.multiplier[E.encode point]? with _ | j
    · have hsmall : bound.toNat ≤ 2 ^ 44 := hbound
      have hspan := hi.trans (Nat.div_le_self _ _)
      have hnext : (i + 1).toNat = i.toNat + 1 := toNat_succ (by omega)
      rw [Option.map_none, ← hnext]
      exact ih (i + 1) _ _ (by omega)
    · have hexact := exact_of_le hbound h.size_le hi (h.multiples.lt hfound)
      simp only [Option.map_some, UInt64.lt_iff_toNat_lt, toNat_double hbound, hexact.shifted]
      by_cases hpast : 2 * bound.toNat < i.toNat * t.size.toNat + j.toNat
      · rw [if_pos hpast, if_pos hpast, Option.map_none]
      · rw [if_neg hpast, if_neg hpast, Option.map_some, hexact.difference]
        push_cast
        rfl

theorem solve_unbounded (hbound : bound.toNat ≤ Limits.maxMaxPlaintext) (h : t.Counts u)
    (point : E.Point) :
    (t.solve point bound).map Int64.toInt = u.solve point bound.toNat := by
  rw [solve, search_eq_searchFrom hbound, Unbounded.solve, ← h.size]
  exact searchFrom_unbounded hbound h _ 0 _ 0 (by rw [UInt64.toNat_zero, zero_add])

theorem Reaches.index_le (hbound : bound.toNat ≤ Limits.maxMaxPlaintext) {current : E.Point}
    (h : t.Reaches point bound i current) : i.toNat ≤ 2 * bound.toNat / t.size.toNat := by
  rw [← toNat_double hbound, ← UInt64.toNat_div]
  induction h with
  | start => exact Nat.zero_le _
  | next h hmiss hrange ih =>
    rw [toNat_succ_of_lt hrange]
    exact UInt64.lt_iff_toNat_lt.mp hrange

theorem Reaches.search_eq (hbound : bound.toNat ≤ Limits.maxMaxPlaintext) {current : E.Point}
    (h : t.Reaches point bound i current) :
    t.search point bound = t.searchFrom bound (2 * bound)
      (2 * bound.toNat / t.size.toNat - i.toNat + 1) i current i.toNat := by
  induction h with
  | start => exact search_eq_searchFrom hbound point
  | @next i current h hmiss hrange ih =>
    have hlt := UInt64.lt_iff_toNat_lt.mp hrange
    rw [UInt64.toNat_div, toNat_double hbound] at hlt
    have hleft : 2 * bound.toNat / t.size.toNat - i.toNat =
        2 * bound.toNat / t.size.toNat - (i.toNat + 1) + 1 := by omega
    rw [ih, searchFrom, hmiss, toNat_succ_of_lt hrange, hleft]

theorem exists_reaches (hbound : bound.toNat ≤ Limits.maxMaxPlaintext) {k : ℕ}
    (hlast : k ≤ 2 * bound.toNat / t.size.toNat) (htaken : k ≤ (t.search point bound).giantSteps) :
    ∃ i current, i.toNat = k ∧ t.Reaches point bound i current := by
  induction k with
  | zero => exact ⟨0, _, rfl, .start⟩
  | succ k ih =>
    obtain ⟨i, current, hi, hreaches⟩ := ih (by omega) (by omega)
    have hrange : i < 2 * bound / t.size := by
      rw [UInt64.lt_iff_toNat_lt, UInt64.toNat_div, toNat_double hbound]
      omega
    rcases hfound : t.multiplier[E.encode current]? with _ | j
    · exact ⟨i + 1, _, by rw [toNat_succ_of_lt hrange, hi], hreaches.next hfound hrange⟩
    · -- A hit at the index `k` ends the search after `k` giant steps.
      rw [hreaches.search_eq hbound, searchFrom, hfound] at htaken
      dsimp only at htaken
      split at htaken
      · dsimp only at htaken
        omega
      · dsimp only at htaken
        omega

theorem search_stays_in_words (hvalid : checkTable bound tableBits = .ok ()) (point : E.Point) :
    let t := build E tableBits
    let last := 2 * bound.toNat / 2 ^ tableBits.toNat
    t.size.toNat = 2 ^ tableBits.toNat ∧ 2 * bound.toNat < 2 ^ 64 ∧
      (∀ k ≤ last, k ≤ (t.search point bound).giantSteps →
        ∃ i current, i.toNat = k ∧ t.Reaches point bound i current) ∧
      (∀ i current, t.Reaches point bound i current →
        t.search point bound =
          t.searchFrom bound (2 * bound) (last - i.toNat + 1) i current i.toNat ∧
        ∀ (key : Bytes) (j : UInt64), t.multiplier[key]? = some j → t.Exact bound i j) ∧
      (∀ m, t.solve point bound = some m → m.toInt ∈ Set.Icc (-(bound.toNat : ℤ)) bound.toNat) ∧
      (t.solve point bound).map Int64.toInt =
        (Unbounded.build E tableBits.toNat).solve point bound.toNat := by
  intro t last
  obtain ⟨hmax, -, hbits, -⟩ := checkTable_eq_ok.mp hvalid
  have hbound := (checkMaxPlaintext_eq_ok.mp hmax).2
  have hsmall : bound.toNat ≤ 2 ^ 44 := hbound
  have hcounts := counts_build (E := E) hbits
  have hsolve := solve_unbounded hbound hcounts point
  have hsize : t.size.toNat = 2 ^ tableBits.toNat := toNat_size_build hbits
  have hlast : last = 2 * bound.toNat / t.size.toNat := by rw [hsize]
  rw [hlast]
  refine ⟨hsize, by omega, fun k => exists_reaches hbound, fun i current h => ?_,
    fun m hm => ?_, hsolve⟩
  · refine ⟨h.search_eq hbound, fun key j hj => ?_⟩
    exact exact_of_le hbound hcounts.size_le (h.index_le hbound) (hcounts.multiples.lt hj)
  · rw [hm, Option.map_some] at hsolve
    exact Unbounded.mem_of_searchFrom hsolve.symm

theorem search_stays_in_words_largest :
    ∃ h : 1 < Ristretto.order,
      let E := PointGroup.residues Ristretto.order h
      let answer (tableBits bound : ℕ) (x : ℤ) :=
        (Unbounded.build E tableBits).solve (E.mulBase (E.scalar x)) bound
      checkTable 17592186044416 20 = .ok () ∧ checkTable 33554433 1 = .ok () ∧
        answer 20 17592186044416 (-17592186044416) = some (-17592186044416) ∧
        answer 1 33554433 33554433 = some 33554433 := by
  have h : 1 < Ristretto.order := Ristretto.group.one_lt_order
  have laws := PointGroup.represents_residues h (by decide +kernel)
  have hlarge : checkTable 17592186044416 20 = .ok () := by decide
  have hsmall : checkTable 33554433 1 = .ok () := by decide
  let point (x : ℤ) := (PointGroup.residues _ h).mulBase ((PointGroup.residues _ h).scalar x)
  obtain ⟨-, -, -, -, -, hwide⟩ := search_stays_in_words hlarge (point (-17592186044416))
  obtain ⟨-, -, -, -, -, hnarrow⟩ := search_stays_in_words hsmall (point 33554433)
  refine ⟨h, hlarge, hsmall, hwide.symm.trans ?_, hnarrow.symm.trans ?_⟩
  · exact solve_build_of_mem laws rfl hlarge (.mulBase _) (laws.mulBase_scalar _) (by decide)
  · exact solve_build_of_mem laws rfl hsmall (.mulBase _) (laws.mulBase_scalar _) (by decide)

end Search

end BabySteps

end Homomorphic.ElGamal
