import Homomorphic.Proofs.Dispatch
import Homomorphic.Proofs.Sums

namespace Homomorphic

def Bracketing.parts {κ : Type} : Bracketing κ → List (Bracketing κ)
  | leaf _ => []
  | node left right => left :: left.parts ++ right :: right.parts

theorem Bracketing.leaves_subset_of_mem_parts {κ : Type} {t s : Bracketing κ} (h : s ∈ t.parts) :
    s.leaves ⊆ t.leaves := by
  induction t with
  | leaf c => exact absurd h List.not_mem_nil
  | node left right ihl ihr =>
    rw [parts, List.mem_append, List.mem_cons, List.mem_cons] at h
    rcases h with (rfl | hleft) | rfl | hright
    · exact List.subset_append_left _ _
    · exact List.subset_append_of_subset_left _ (ihl hleft)
    · exact List.subset_append_right _ _
    · exact List.subset_append_of_subset_right _ (ihr hright)

theorem Bracketing.forall_node {κ : Type} {left right : Bracketing κ} {P : κ → Prop}
    {Q : Bracketing κ → Prop} :
    (∀ c ∈ (node left right).leaves, P c) ∧ (∀ s ∈ (node left right).parts, Q s) ↔
      ((∀ c ∈ left.leaves, P c) ∧ ∀ s ∈ left :: left.parts, Q s) ∧
        (∀ c ∈ right.leaves, P c) ∧ ∀ s ∈ right :: right.parts, Q s := by
  rw [leaves, parts, List.forall_mem_append, List.forall_mem_append]
  exact and_and_and_comm

section

variable {κ τ : Type} {ops : Operations κ} {Accepts : κ → Prop} {value : κ → ℕ} {m : ℕ}

structure Operations.AddsAccepted (ops : Operations κ) (Accepts : κ → Prop) (value : κ → ℕ) (m : ℕ) :
    Prop where
  exists_add {a b} (ha : Accepts a) (hb : Accepts b) : ∃ c, ops.add a b = .ok c
  accepts {a b c} (h : ops.add a b = .ok c) : Accepts a ∧ Accepts b
  value_add {a b c} (h : ops.add a b = .ok c) : value c = value a * value b % m
  accepts_add {a b c} (h : ops.add a b = .ok c) : Accepts c ↔ value c ≠ 0
  not_dvd {a} (h : Accepts a) : ¬ m ∣ value a

namespace Operations.AddsAccepted

theorem value_reduce (h : ops.AddsAccepted Accepts value m) {t : Bracketing κ} {c : κ}
    (hc : ops.reduce t = .ok c) : value c ≡ (t.leaves.map value).prod [MOD m] := by
  induction t generalizing c with
  | leaf a =>
    cases hc
    rw [Bracketing.leaves, List.map_singleton, List.prod_singleton]
  | node left right ihl ihr =>
    obtain ⟨a, ha, hc⟩ := bind_eq_ok.mp hc
    obtain ⟨b, hb, hc⟩ := bind_eq_ok.mp hc
    rw [h.value_add hc, Bracketing.leaves, List.map_append, List.prod_append]
    exact (Nat.mod_modEq _ _).trans ((ihl ha).mul (ihr hb))

theorem exists_reduce_node_iff (h : ops.AddsAccepted Accepts value m) {left right : Bracketing κ} :
    (∃ c, ops.reduce (.node left right) = .ok c) ↔
      (∃ a, ops.reduce left = .ok a ∧ Accepts a) ∧ ∃ b, ops.reduce right = .ok b ∧ Accepts b := by
  constructor
  · rintro ⟨c, hc⟩
    obtain ⟨a, ha, hc⟩ := bind_eq_ok.mp hc
    obtain ⟨b, hb, hc⟩ := bind_eq_ok.mp hc
    obtain ⟨hacceptsA, hacceptsB⟩ := h.accepts hc
    exact ⟨⟨a, ha, hacceptsA⟩, b, hb, hacceptsB⟩
  · rintro ⟨⟨a, ha, hacceptsA⟩, b, hb, hacceptsB⟩
    obtain ⟨c, hc⟩ := h.exists_add hacceptsA hacceptsB
    refine ⟨c, ?_⟩
    rw [reduce, ha, hb]
    exact hc

theorem accepts_reduce_node_iff (h : ops.AddsAccepted Accepts value m) {left right : Bracketing κ} {c : κ}
    (hc : ops.reduce (.node left right) = .ok c) :
    Accepts c ↔ ¬ m ∣ ((Bracketing.node left right).leaves.map value).prod := by
  have hvalue := h.value_reduce hc
  obtain ⟨a, -, hc⟩ := bind_eq_ok.mp hc
  obtain ⟨b, -, hc⟩ := bind_eq_ok.mp hc
  rw [Nat.ModEq, h.value_add hc, Nat.mod_mod] at hvalue
  rw [h.accepts_add hc, h.value_add hc, hvalue, Nat.dvd_iff_mod_eq_zero]

theorem exists_accepted_iff (h : ops.AddsAccepted Accepts value m) (t : Bracketing κ) :
    (∃ c, ops.reduce t = .ok c ∧ Accepts c) ↔
      (∀ c ∈ t.leaves, Accepts c) ∧ ∀ s ∈ t :: t.parts, ¬ m ∣ (s.leaves.map value).prod := by
  induction t with
  | leaf a =>
    simp only [Bracketing.leaves, Bracketing.parts, List.forall_mem_singleton, List.map_singleton,
      List.prod_singleton]
    constructor
    · rintro ⟨_, ⟨⟩, ha⟩
      exact ⟨ha, h.not_dvd ha⟩
    · rintro ⟨ha, -⟩
      exact ⟨a, rfl, ha⟩
  | node left right ihl ihr =>
    have hnode : (∃ c, ops.reduce (.node left right) = .ok c) ↔ _ := h.exists_reduce_node_iff
    rw [ihl, ihr, ← Bracketing.forall_node] at hnode
    rw [List.forall_mem_cons, and_left_comm, ← hnode]
    constructor
    · rintro ⟨c, hc, haccepts⟩
      exact ⟨(h.accepts_reduce_node_iff hc).mp haccepts, c, hc⟩
    · rintro ⟨hdvd, c, hc⟩
      exact ⟨c, hc, (h.accepts_reduce_node_iff hc).mpr hdvd⟩

theorem exists_reduce_iff (h : ops.AddsAccepted Accepts value m) {t : Bracketing κ}
    (hlength : 2 ≤ t.leaves.length) :
    (∃ c, ops.reduce t = .ok c) ↔
      (∀ c ∈ t.leaves, Accepts c) ∧ ∀ s ∈ t.parts, ¬ m ∣ (s.leaves.map value).prod := by
  cases t with
  | leaf a => exact absurd hlength (Nat.not_succ_le_self 1)
  | node left right =>
    rw [h.exists_reduce_node_iff, h.exists_accepted_iff, h.exists_accepted_iff,
      ← Bracketing.forall_node]

theorem of_residues {modulus : Modulus} {error : Error} (mk : ℕ → κ) (hmk : ∀ a, value (mk a) = a)
    (hcheck : ∀ a, ops.check a = if modulus.contains (value a) then .ok () else .error error)
    (hadd : ∀ a b, ops.add a b = do
      ops.check a
      ops.check b
      return mk (modulus.mul (value a) (value b))) :
    ops.AddsAccepted (fun c => 0 < value c ∧ value c < modulus.value) value modulus.value := by
  have hcheckOk {a : κ} : ops.check a = .ok () ↔ 0 < value a ∧ value a < modulus.value := by
    rw [hcheck, Modulus.check_eq_ok_iff]
  have haddOk {a b c : κ} (h : ops.add a b = .ok c) : ops.check a = .ok () ∧ ops.check b = .ok () ∧
      mk (modulus.mul (value a) (value b)) = c := by
    rw [hadd] at h
    obtain ⟨_, ha, h⟩ := bind_eq_ok.mp h
    obtain ⟨_, hb, h⟩ := bind_eq_ok.mp h
    exact ⟨ha, hb, Except.ok.inj h⟩
  constructor
  · intro a b ha hb
    refine ⟨mk (modulus.mul (value a) (value b)), ?_⟩
    rw [hadd, hcheckOk.mpr ha, hcheckOk.mpr hb]
    rfl
  · intro a b c h
    obtain ⟨ha, hb, -⟩ := haddOk h
    exact ⟨hcheckOk.mp ha, hcheckOk.mp hb⟩
  · intro a b c h
    obtain ⟨-, -, rfl⟩ := haddOk h
    rw [hmk, Modulus.mul]
  · intro a b c h
    obtain ⟨-, -, rfl⟩ := haddOk h
    rw [hmk, Nat.pos_iff_ne_zero, and_iff_left (modulus.mul_lt _ _)]
  · rintro a ⟨hpos, hlt⟩ hdvd
    exact absurd (Nat.le_of_dvd hpos hdvd) (Nat.not_le_of_lt hlt)

theorem lift (h : ops.AddsAccepted Accepts value m) {wrap : κ → τ} {unwrap : τ → Except Error κ}
    (hunwrap : ∀ t c, unwrap t = .ok c ↔ t = wrap c) {Accepts' : τ → Prop} {value' : τ → ℕ}
    (haccepts : ∀ t, Accepts' t ↔ ∃ c, t = wrap c ∧ Accepts c)
    (hvalue : ∀ c, value' (wrap c) = value c) :
    (ops.lift wrap unwrap).AddsAccepted Accepts' value' m := by
  have hadd {a b : κ} : (ops.lift wrap unwrap).add (wrap a) (wrap b) =
      ops.add a b >>= fun c => pure (wrap c) := by
    simp only [Operations.lift, (hunwrap _ _).mpr rfl]
    rfl
  have exists_of_add {t u w : τ} (hw : (ops.lift wrap unwrap).add t u = .ok w) :
      ∃ a b c, t = wrap a ∧ u = wrap b ∧ ops.add a b = .ok c ∧ wrap c = w := by
    obtain ⟨a, ha, hw⟩ := bind_eq_ok.mp hw
    obtain ⟨b, hb, hw⟩ := bind_eq_ok.mp hw
    obtain ⟨c, hc, hw⟩ := bind_eq_ok.mp hw
    exact ⟨a, b, c, (hunwrap t a).mp ha, (hunwrap u b).mp hb, hc, Except.ok.inj hw⟩
  have accepts_wrap {c : κ} : Accepts' (wrap c) ↔ Accepts c := by
    rw [haccepts]
    constructor
    · rintro ⟨c', heq, hc'⟩
      have hok := ((hunwrap _ _).mpr rfl).symm.trans ((hunwrap _ _).mpr heq)
      rwa [Except.ok.inj hok]
    · intro hc
      exact ⟨c, rfl, hc⟩
  constructor
  · intro t u ht hu
    obtain ⟨a, rfl, ha⟩ := (haccepts t).mp ht
    obtain ⟨b, rfl, hb⟩ := (haccepts u).mp hu
    obtain ⟨c, hc⟩ := h.exists_add ha hb
    refine ⟨wrap c, ?_⟩
    rw [hadd, hc]
    rfl
  · intro t u w hw
    obtain ⟨a, b, c, rfl, rfl, hc, rfl⟩ := exists_of_add hw
    rw [accepts_wrap, accepts_wrap]
    exact h.accepts hc
  · intro t u w hw
    obtain ⟨a, b, c, rfl, rfl, hc, rfl⟩ := exists_of_add hw
    rw [hvalue, hvalue, hvalue, h.value_add hc]
  · intro t u w hw
    obtain ⟨a, b, c, rfl, rfl, hc, rfl⟩ := exists_of_add hw
    rw [accepts_wrap, hvalue, h.accepts_add hc]
  · intro t ht
    obtain ⟨c, rfl, hc⟩ := (haccepts t).mp ht
    rw [hvalue]
    exact h.not_dvd hc

end Operations.AddsAccepted

end

variable {E : PointGroup}

theorem ElGamal.PublicKey.check_eq_ok (pk : ElGamal.PublicKey E) (c : ElGamal.Ciphertext E) :
    pk.check c = .ok () := check_of_curve (Subsingleton.elim _ _)

namespace PublicKey

def InRange : (pk : PublicKey E) → pk.schema.Value E → Prop
  | paillier pk, c => 0 < c.value ∧ c.value < pk.n.value ^ 2
  | ou pk, c => 0 < c.value ∧ c.value < pk.n.value
  | elgamal _, _ => True

def Accepts (pk : PublicKey E) (c : Ciphertext E) : Prop :=
  ∃ v, c = pk.schema.wrap v ∧ pk.InRange v

def residue : PublicKey E → Ciphertext E → ℕ
  | paillier _, .paillier c => c.value
  | ou _, .ou c => c.value
  | _, _ => 1

/-- The product of the residues is zero, which no sum of points is. -/
def Annihilates : PublicKey E → List (Ciphertext E) → Prop
  | paillier pk, cs => pk.n.value ^ 2 ∣ (cs.map (paillier pk).residue).prod
  | ou pk, cs => pk.n.value ∣ (cs.map (ou pk).residue).prod
  | elgamal _, _ => False

def IsUnit : PublicKey E → Ciphertext E → Prop
  | paillier pk, c => Nat.Coprime ((paillier pk).residue c) pk.n.value
  | ou pk, c => Nat.Coprime ((ou pk).residue c) pk.n.value
  | elgamal _, _ => True

theorem scheme_check_eq_ok_iff (pk : PublicKey E) (v : pk.schema.Value E) :
    pk.scheme.check v = .ok () ↔ pk.InRange v := by
  cases pk with
  | paillier pk =>
    rw [InRange, sq]
    exact pk.n.square.check_eq_ok_iff
  | ou pk => exact pk.n.check_eq_ok_iff
  | elgamal pk => exact iff_of_true (pk.check_eq_ok v) trivial

theorem check_eq_ok_iff (pk : PublicKey E) (c : Ciphertext E) :
    pk.operations.check c = .ok () ↔ pk.Accepts c := by
  rw [operations_eq_lift]
  apply bind_eq_ok.trans
  apply exists_congr
  intro v
  rw [Schema.unwrap_eq_ok, scheme_check_eq_ok_iff]

theorem addsAccepted (pk : PublicKey E) :
    ∃ m, pk.operations.AddsAccepted pk.Accepts pk.residue m ∧
      ∀ cs, pk.Annihilates cs ↔ m ∣ (cs.map pk.residue).prod := by
  cases pk with
  | paillier pk =>
    have hscheme : pk.operations.AddsAccepted _ Paillier.Ciphertext.value pk.n.square.value :=
      .of_residues .mk (fun _ => rfl) (fun _ => rfl) (fun _ _ => rfl)
    rw [Modulus.square_value, ← sq] at hscheme
    exact ⟨_, hscheme.lift (@Schema.unwrap_eq_ok E .paillier) (fun _ => .rfl) fun _ => rfl, fun _ => .rfl⟩
  | ou pk =>
    have hscheme : pk.operations.AddsAccepted _ OkamotoUchiyama.Ciphertext.value pk.n.value :=
      .of_residues .mk (fun _ => rfl) (fun _ => rfl) (fun _ _ => rfl)
    exact ⟨_, hscheme.lift (@Schema.unwrap_eq_ok E .ou) (fun _ => .rfl) fun _ => rfl, fun _ => .rfl⟩
  | elgamal pk =>
    have hadd (a b : ElGamal.Ciphertext E) : ∃ c, pk.operations.add a b = .ok c := by
      refine ⟨⟨a.curve, E.add a.c1 b.c1, E.add a.c2 b.c2⟩, ?_⟩
      change pk.add a b = _
      rw [ElGamal.PublicKey.add, pk.check_eq_ok, pk.check_eq_ok]
      rfl
    have hscheme : pk.operations.AddsAccepted (fun _ => True) (fun _ => 1) 0 :=
      ⟨fun _ _ => hadd _ _, fun _ => ⟨trivial, trivial⟩, fun _ => rfl,
        fun _ => iff_of_true trivial one_ne_zero, fun _ => by decide⟩
    refine ⟨0, hscheme.lift (@Schema.unwrap_eq_ok E .elgamal) (fun _ => .rfl) fun _ => rfl, ?_⟩
    intro cs
    have hone : (elgamal pk).residue = fun _ => 1 := by
      funext c
      cases c <;> rfl
    rw [hone, List.map_const', List.prod_replicate, one_pow]
    exact iff_of_false id (by decide)

theorem not_annihilates_of_isUnit {pk : PublicKey E} {cs : List (Ciphertext E)}
    (h : ∀ c ∈ cs, pk.IsUnit c) : ¬ pk.Annihilates cs := by
  have not_dvd {n : ℕ} (hn : 1 < n) (hcoprime : ∀ c ∈ cs, Nat.Coprime (pk.residue c) n) :
      ¬ n ∣ (cs.map pk.residue).prod := by
    intro hdvd
    have hprod : Nat.Coprime (cs.map pk.residue).prod n := by
      rw [Nat.coprime_list_prod_left_iff, List.forall_mem_map]
      exact hcoprime
    exact hn.ne' (hprod.symm.eq_one_of_dvd hdvd)
  cases pk with
  | paillier pk =>
    intro hdvd
    exact not_dvd pk.n.one_lt h ((dvd_pow_self _ two_ne_zero).trans hdvd)
  | ou pk => exact not_dvd pk.n.one_lt h
  | elgamal pk => exact id

/-- Of two or more ciphertexts, in whatever way they are bracketed, there is a sum just if each is an
operand of its own and no part has the product zero; there is one if they are units as well. -/
structure SumsOperands (pk : PublicKey E) (cs : List (Ciphertext E)) : Prop where
  exists_bracketing : ∃ t, t.leaves = cs ∧ pk.operations.reduce t = pk.operations.sum cs
  exists_reduce_iff {t} (ht : t.leaves = cs) : (∃ c, pk.operations.reduce t = .ok c) ↔
    (∀ c ∈ cs, pk.Accepts c) ∧ ∀ s ∈ t.parts, ¬ pk.Annihilates s.leaves
  exists_reduce {t} (ht : t.leaves = cs) (h : ∀ c ∈ cs, pk.Accepts c ∧ pk.IsUnit c) :
    ∃ c, pk.operations.reduce t = .ok c

end PublicKey

theorem PublicKey.sumsOperands (pk : PublicKey E) {cs : List (Ciphertext E)} (hlength : 2 ≤ cs.length) :
    pk.SumsOperands cs := by
  obtain ⟨m, hadds, hannihilates⟩ := pk.addsAccepted
  have hiff {t : Bracketing (Ciphertext E)} (ht : t.leaves = cs) :
      (∃ c, pk.operations.reduce t = .ok c) ↔
        (∀ c ∈ cs, pk.Accepts c) ∧ ∀ s ∈ t.parts, ¬ pk.Annihilates s.leaves := by
    subst ht
    simp only [hadds.exists_reduce_iff hlength, hannihilates]
  refine ⟨?_, hiff, ?_⟩
  · apply pk.operations.exists_reduce_eq_sumHalves
    rintro rfl
    exact absurd hlength (Nat.not_succ_le_zero 1)
  · intro t ht h
    rw [hiff ht]
    refine ⟨fun c hc => (h c hc).1, fun s hs => ?_⟩
    apply not_annihilates_of_isUnit
    intro c hc
    exact (h c (ht ▸ Bracketing.leaves_subset_of_mem_parts hs hc)).2

theorem sum_of_operands (pk : PublicKey E) :
    (∀ c, pk.operations.check c = .ok () ↔ pk.Accepts c) ∧
    pk.operations.sum [] = .error (.invalidParameters .emptySum) ∧
    (∀ c, pk.Accepts c → pk.operations.sum [c] = .ok c) ∧
    ∀ cs : List (Ciphertext E), 2 ≤ cs.length → pk.SumsOperands cs := by
  refine ⟨pk.check_eq_ok_iff, rfl, ?_, ?_⟩
  · intro c _
    rfl
  · intro cs hlength
    exact pk.sumsOperands hlength

theorem sum_of_operands_seven_mersenne :
    ∃ (n : ℕ) (key : Paillier.PublicKey) (a b c : Ciphertext Ristretto.group),
      n = 7 * mersenne 521 ∧ Paillier.PublicKey.ofParts n 2 = .ok key ∧
      a = .paillier ⟨3⟩ ∧ b = .paillier ⟨2⟩ ∧ 2 ≤ [a, b].length ∧
      (PublicKey.paillier key).operations.sum [a, b] = .ok c := by
  obtain ⟨n, key, hn, hkey, hvalue, hlarge, htwo, hthree⟩ :=
    Paillier.PublicKey.exists_ofParts_seven_mersenne
  have hsquare : 3 < n ^ 2 := hlarge.trans_le (Nat.le_self_pow two_ne_zero n)
  obtain ⟨-, -, -, hsums⟩ := sum_of_operands (E := Ristretto.group) (.paillier key)
  have hlength : 2 ≤ [Ciphertext.paillier (E := Ristretto.group) ⟨3⟩, .paillier ⟨2⟩].length := le_rfl
  obtain ⟨t, ht, hsum⟩ := (hsums _ hlength).exists_bracketing
  obtain ⟨c, hc⟩ := (hsums _ hlength).exists_reduce ht (by
    subst hvalue
    rw [List.forall_mem_cons, List.forall_mem_singleton]
    exact ⟨⟨⟨⟨3⟩, rfl, by decide, hsquare⟩, hthree⟩,
      ⟨⟨2⟩, rfl, by decide, (Nat.lt_succ_self 2).trans hsquare⟩, htwo⟩)
  exact ⟨n, key, _, _, c, hn, hkey, rfl, rfl, hlength, hsum.symm.trans hc⟩

theorem sum_unchecked_or_refused_seven_mersenne :
    ∃ (n : ℕ) (key : Paillier.PublicKey) (foreign multiple : Ciphertext Ristretto.group),
      n = 7 * mersenne 521 ∧ Paillier.PublicKey.ofParts n 2 = .ok key ∧
      foreign = .ou ⟨5⟩ ∧ multiple = .paillier ⟨n⟩ ∧
      (PublicKey.paillier key).operations.sum [foreign] = .ok foreign ∧
      ¬ (PublicKey.paillier key).Accepts foreign ∧
      (PublicKey.paillier key).Accepts multiple ∧
      (PublicKey.paillier key).operations.sum [multiple, multiple, multiple] =
        .error (.domain .outsideSquare) := by
  obtain ⟨n, key, hn, hkey, hvalue, hlarge, -⟩ := Paillier.PublicKey.exists_ofParts_seven_mersenne
  have hsquare : n < n ^ 2 := lt_self_pow₀ (by omega) one_lt_two
  have haccepts : (PublicKey.paillier key).Accepts (.paillier (E := Ristretto.group) ⟨n⟩) := by
    subst hvalue
    exact ⟨⟨_⟩, rfl, (Nat.zero_lt_succ 2).trans hlarge, hsquare⟩
  have hforeign : ¬ (PublicKey.paillier key).Accepts (.ou (E := Ristretto.group) ⟨5⟩) := by
    rintro ⟨_, ⟨⟩, -⟩
  have hcontains : key.n.square.contains n = true := by
    rw [Modulus.contains_iff, Modulus.square_value, hvalue, ← sq]
    exact ⟨by omega, hsquare⟩
  have hzero : key.n.square.mul n n = 0 := by
    rw [Modulus.mul, Modulus.square_value, hvalue, Nat.mod_self]
  have hcheck : key.check ⟨n⟩ = .ok () := if_pos hcontains
  have hadd : (PublicKey.paillier key).operations.add (.paillier (E := Ristretto.group) ⟨n⟩)
      (.paillier ⟨n⟩) = .ok (.paillier ⟨0⟩) := by
    change (key.add ⟨n⟩ ⟨n⟩ >>= fun c => pure (Ciphertext.paillier c)) = _
    rw [Paillier.PublicKey.add, hcheck, hzero]
    rfl
  have hrefused : (PublicKey.paillier key).operations.add (.paillier (E := Ristretto.group) ⟨n⟩)
      (.paillier ⟨0⟩) = .error (.domain .outsideSquare) := by
    change (key.add ⟨n⟩ ⟨0⟩ >>= fun c => pure (Ciphertext.paillier c)) = _
    rw [Paillier.PublicKey.add, hcheck]
    rfl
  refine ⟨n, key, _, _, hn, hkey, rfl, rfl, rfl, hforeign, haccepts, ?_⟩
  have hsum (c : Ciphertext Ristretto.group) : (PublicKey.paillier key).operations.sum [c, c, c] =
      (PublicKey.paillier key).operations.add c c >>= (PublicKey.paillier key).operations.add c := by
    simp [Operations.sum, Operations.sumHalves, Operations.splitDepth, Operations.sumRun]
  rw [hsum, hadd]
  exact hrefused

end Homomorphic
