import Homomorphic.Bytes.Laws
import Homomorphic.Curve.PointGroup
import Homomorphic.Proofs.Residue

namespace Homomorphic.PointGroup

inductive Made (E : PointGroup) : E.Point → Prop
  | zero : Made E E.zero
  | base : Made E E.base
  | add {a b : E.Point} (ha : Made E a) (hb : Made E b) : Made E (E.add a b)
  | neg {a : E.Point} (ha : Made E a) : Made E (E.neg a)
  | decode {bytes : Bytes} {a : E.Point} (h : E.decode bytes = some a) : Made E a

variable {E : PointGroup} {G : Type} [AddCommGroup G] {element : E.Point → G} {a b : E.Point}

/-- Points represent the elements of a cyclic group that the base point generates, and each element
has one encoding. -/
structure Represents (E : PointGroup) (element : E.Point → G) : Prop where
  card : Nat.card G = E.order
  generates (g : G) : g ∈ AddSubgroup.zmultiples (element E.base)
  zero : element E.zero = 0
  add {a b : E.Point} (ha : E.Made a) (hb : E.Made b) : element (E.add a b) = element a + element b
  neg {a : E.Point} (ha : E.Made a) : element (E.neg a) = -element a
  same {a b : E.Point} (ha : E.Made a) (hb : E.Made b) :
    E.same a b = true ↔ element a = element b
  encode {a b : E.Point} (ha : E.Made a) (hb : E.Made b) :
    E.encode a = E.encode b ↔ element a = element b

/-- Points have encodings of one width, which decoding takes back to the same point; the same points
have the same encoding. Scalars fit into that width. -/
structure Encodes (E : PointGroup) : Prop where
  order_le : E.order ≤ 256 ^ width
  length_encode {a : E.Point} (ha : E.Made a) : (E.encode a).length = width
  equivalence : Equivalence fun a b : {a // E.Made a} => E.same a b = true
  encode_of_same {a b : E.Point} (ha : E.Made a) (hb : E.Made b) (h : E.same a b = true) :
    E.encode a = E.encode b
  decode_encode {a : E.Point} (ha : E.Made a) :
    ∃ b, E.decode (E.encode a) = some b ∧ E.same b a = true

namespace Encodes

variable {c : E.Point} (h : E.Encodes)

include h

theorem same_symm (ha : E.Made a) (hb : E.Made b) (hab : E.same a b = true) : E.same b a = true :=
  h.equivalence.symm (x := ⟨a, ha⟩) (y := ⟨b, hb⟩) hab

theorem same_trans (ha : E.Made a) (hb : E.Made b) (hc : E.Made c) (hab : E.same a b = true)
    (hbc : E.same b c = true) : E.same a c = true :=
  h.equivalence.trans (x := ⟨a, ha⟩) (y := ⟨b, hb⟩) (z := ⟨c, hc⟩) hab hbc

theorem encode_eq_iff (ha : E.Made a) (hb : E.Made b) :
    E.encode a = E.encode b ↔ E.same a b = true := by
  refine ⟨fun heq => ?_, h.encode_of_same ha hb⟩
  obtain ⟨c, hc, hca⟩ := h.decode_encode ha
  obtain ⟨d, hd, hdb⟩ := h.decode_encode hb
  rw [heq, hd] at hc
  obtain rfl := Option.some.inj hc
  have hmade : E.Made d := .decode hd
  exact h.same_trans ha hmade hb (h.same_symm hmade ha hca) hdb

end Encodes

theorem Made.sub (ha : E.Made a) (hb : E.Made b) : E.Made (E.sub a b) := ha.add hb.neg

theorem Made.mulBits (ha : E.Made a) (bits k : ℕ) : E.Made (E.mulBits a bits k) := by
  induction bits generalizing k with
  | zero => exact .zero
  | succ bits ih =>
    simp only [PointGroup.mulBits]
    split
    · exact .zero
    · split
      · exact ((ih _).add (ih _)).add ha
      · exact (ih _).add (ih _)

theorem Made.mul (ha : E.Made a) (k : ℕ) : E.Made (E.mul k a) := ha.mulBits _ k

theorem Made.mulBase (k : ℕ) : E.Made (E.mulBase k) := Made.base.mul k

theorem order_pos : 0 < E.order := Nat.lt_trans Nat.zero_lt_one E.one_lt_order

theorem scalar_lt (x : ℤ) : E.scalar x < E.order :=
  Modulus.normalize_lt ⟨E.order, E.one_lt_order⟩ x

theorem length_scalarBytes (k : ℕ) : (scalarBytes k).length = width := Bytes.length_ofNat width k

theorem canonicalScalar?_scalarBytes (horder : E.order ≤ 256 ^ width) {k : ℕ} (hk : k < E.order) :
    E.canonicalScalar? (scalarBytes k) = some k := by
  rw [canonicalScalar?, scalarBytes, Bytes.toNat_ofNat, Nat.mod_eq_of_lt (hk.trans_le horder),
    if_pos hk]

theorem scalar_congr (x : ℤ) : (E.scalar x : ℤ) ≡ x [ZMOD E.order] :=
  Modulus.normalize_congr ⟨E.order, E.one_lt_order⟩ x

namespace Represents

variable (h : E.Represents element)

include h

theorem sub (ha : E.Made a) (hb : E.Made b) : element (E.sub a b) = element a - element b := by
  rw [PointGroup.sub, h.add ha hb.neg, h.neg hb, sub_eq_add_neg]

theorem mulBits (ha : E.Made a) (bits k : ℕ) (hk : k < 2 ^ bits) :
    element (E.mulBits a bits k) = k • element a := by
  induction bits generalizing k with
  | zero =>
    have hzero : k = 0 := by simpa using hk
    rw [PointGroup.mulBits, h.zero, hzero, zero_nsmul]
  | succ bits ih =>
    have hhalf := ih (k / 2) (by omega)
    have hmade := ha.mulBits bits (k / 2)
    have hdouble : element (E.add (E.mulBits a bits (k / 2)) (E.mulBits a bits (k / 2))) =
        (k / 2 + k / 2) • element a := by
      rw [h.add hmade hmade, hhalf, add_nsmul]
    simp only [PointGroup.mulBits]
    by_cases hzero : k = 0
    · rw [if_pos hzero, h.zero, hzero, zero_nsmul]
    by_cases hodd : k % 2 = 1
    · rw [if_neg hzero, if_pos hodd, h.add (hmade.add hmade) ha, hdouble, ← succ_nsmul]
      congr 1
      omega
    · rw [if_neg hzero, if_neg hodd, hdouble]
      congr 1
      omega

theorem mul (ha : E.Made a) (k : ℕ) : element (E.mul k a) = k • element a :=
  h.mulBits ha _ k Nat.lt_log2_self

theorem mulBase (k : ℕ) : element (E.mulBase k) = k • element E.base := h.mul .base k

theorem order_zsmul (g : G) : (E.order : ℤ) • g = 0 := by
  rw [natCast_zsmul, ← h.card, card_nsmul_eq_zero']

theorem zsmul_congr {k l : ℤ} (hkl : k ≡ l [ZMOD E.order]) (g : G) : k • g = l • g := by
  obtain ⟨j, hj⟩ := hkl.dvd
  rw [show l = k + j * E.order by linarith, add_zsmul, mul_zsmul, h.order_zsmul, zsmul_zero, add_zero]

theorem mul_scalar (ha : E.Made a) (x : ℤ) : element (E.mul (E.scalar x) a) = x • element a := by
  rw [h.mul ha, ← natCast_zsmul, h.zsmul_congr (scalar_congr x)]

theorem mulBase_scalar (x : ℤ) : element (E.mulBase (E.scalar x)) = x • element E.base :=
  h.mul_scalar .base x

theorem exists_nsmul_base (g : G) : ∃ x : ℕ, g = x • element E.base := by
  obtain ⟨k, rfl⟩ := AddSubgroup.mem_zmultiples_iff.mp (h.generates g)
  refine ⟨E.scalar k, ?_⟩
  rw [← natCast_zsmul, h.zsmul_congr (scalar_congr k)]

theorem zsmul_base_eq_iff {k l : ℤ} :
    k • element E.base = l • element E.base ↔ k ≡ l [ZMOD E.order] := by
  rw [zsmul_eq_zsmul_iff_modEq, addOrderOf_eq_card_of_forall_mem_zmultiples h.generates, h.card]

theorem nsmul_base_inj {k l : ℕ} (hk : k < E.order) (hl : l < E.order) :
    k • element E.base = l • element E.base ↔ k = l := by
  rw [← natCast_zsmul, ← natCast_zsmul, h.zsmul_base_eq_iff, Int.natCast_modEq_iff, Nat.ModEq,
    Nat.mod_eq_of_lt hk, Nat.mod_eq_of_lt hl]

end Represents

def residues (n : ℕ) (h : 1 < n) : PointGroup where
  Point := ZMod n
  order := n
  one_lt_order := h
  zero := 0
  base := 1
  add := (· + ·)
  neg := (-·)
  same a b := a = b
  encode a := Bytes.ofNat width a.val
  decode bytes := if bytes.toNat < n ∧ bytes.length = width then some bytes.toNat else none

theorem represents_residues {n : ℕ} (h : 1 < n) (hn : n ≤ 256 ^ width) :
    (residues n h).Represents (G := ZMod n) id where
  card := Nat.card_zmod n
  generates g := by
    have : NeZero n := ⟨by omega⟩
    have hmultiple : (g.val : ℤ) • (1 : ZMod n) = g := by simp
    exact AddSubgroup.mem_zmultiples_iff.mpr ⟨g.val, hmultiple⟩
  zero := rfl
  add _ _ := rfl
  neg _ := rfl
  same {a b} _ _ := by
    change ZMod n at a b
    exact decide_eq_true_iff (p := a = b)
  encode {a b} _ _ := by
    have : NeZero n := ⟨by omega⟩
    constructor
    · intro heq
      have hvalue := congrArg Bytes.toNat heq
      change Bytes.toNat (Bytes.ofNat width (ZMod.val a)) =
        Bytes.toNat (Bytes.ofNat width (ZMod.val b)) at hvalue
      rw [Bytes.toNat_ofNat, Bytes.toNat_ofNat, Nat.mod_eq_of_lt ((ZMod.val_lt a).trans_le hn),
        Nat.mod_eq_of_lt ((ZMod.val_lt b).trans_le hn)] at hvalue
      exact ZMod.val_injective n hvalue
    · rintro rfl
      rfl

theorem encodes_residues {n : ℕ} (h : 1 < n) (hn : n ≤ 256 ^ width) : (residues n h).Encodes where
  order_le := hn
  length_encode _ := Bytes.length_ofNat _ _
  equivalence := by
    have hsame (a b : (residues n h).Point) : (residues n h).same a b = true ↔ a = b := by
      change ZMod n at a b
      exact decide_eq_true_iff (p := a = b)
    simp only [hsame]
    exact ⟨fun _ => rfl, fun hab => hab.symm, fun hab hbc => hab.trans hbc⟩
  encode_of_same ha hb hab := ((represents_residues h hn).encode ha hb).mpr
    (((represents_residues h hn).same ha hb).mp hab)
  decode_encode {a} ha := by
    have : NeZero n := ⟨by omega⟩
    change ZMod n at a
    have hval : Bytes.toNat (Bytes.ofNat width a.val) = a.val := by
      rw [Bytes.toNat_ofNat, Nat.mod_eq_of_lt ((ZMod.val_lt a).trans_le hn)]
    refine ⟨a, ?_, ((represents_residues h hn).same ha ha).mpr rfl⟩
    change (if Bytes.toNat (Bytes.ofNat width a.val) < n ∧ (Bytes.ofNat width a.val).length = width
      then some ((Bytes.toNat (Bytes.ofNat width a.val) : ℕ) : ZMod n) else none) = some a
    rw [hval, if_pos ⟨ZMod.val_lt a, Bytes.length_ofNat _ _⟩, ZMod.natCast_zmod_val]

def Canonical (E : PointGroup) : Prop :=
  ∀ bytes a, bytes.length = width → E.decode bytes = some a → E.encode a = bytes

def IsEncoding (E : PointGroup) (bytes : Bytes) : Prop :=
  bytes.length = width ∧ (E.decode bytes).isSome = true

theorem canonical_residues {n : ℕ} (h : 1 < n) : (residues n h).Canonical := by
  intro bytes a hlength hdecode
  have : NeZero n := ⟨by omega⟩
  change (if bytes.toNat < n ∧ bytes.length = width then some (bytes.toNat : ZMod n) else none) =
    some a at hdecode
  split at hdecode
  · next hlt =>
    cases hdecode
    change Bytes.ofNat width (ZMod.val (bytes.toNat : ZMod n)) = bytes
    rw [ZMod.val_natCast, Nat.mod_eq_of_lt hlt.1, ← hlength, Bytes.ofNat_toNat]
  · cases hdecode

theorem isEncoding_residues {n : ℕ} (h : 1 < n) {bytes : Bytes} (hlength : bytes.length = width)
    (hlt : bytes.toNat < n) : (residues n h).IsEncoding bytes := by
  refine ⟨hlength, ?_⟩
  have hdecode : (residues n h).decode bytes = some (bytes.toNat : ZMod n) := if_pos ⟨hlt, hlength⟩
  rw [hdecode]
  rfl

end Homomorphic.PointGroup
