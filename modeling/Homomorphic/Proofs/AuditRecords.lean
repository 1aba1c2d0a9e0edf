import Homomorphic.Curve.Ristretto
import Homomorphic.Json.Reader
import Homomorphic.Proofs.ElGamal.Group
import Homomorphic.Proofs.Json.Values
import Homomorphic.Proofs.OkamotoUchiyama.Group
import Homomorphic.Proofs.Paillier.Group
import Homomorphic.Proofs.Text.Hex

namespace Homomorphic

namespace Audit

variable {α : Type}

def field? (text name : String) : Option String :=
  match Json.parse? text with
  | some (.object fields) =>
    match fields.lookup (some name) with
    | some (.string value) => value
    | _ => none
  | _ => none

def read? (parse : String → Option α) (text name : String) : Option α := (field? text name).bind parse

theorem lookup_map (record : Audit) (name : String) :
    ((record.map fun (name, value) => (name, Json.ofText value)).map
      fun (name, value) => ((some name : Json.Text), value)).lookup (some name) =
      (record.lookup name).map Json.ofText := by
  induction record with
  | nil => rfl
  | cons field record ih =>
    have hname : ((some name : Json.Text) == some field.1) = (name == field.1) := rfl
    rw [List.map_cons, List.map_cons, List.lookup_cons, List.lookup_cons, hname, ih]
    cases name == field.1 <;> rfl

theorem field?_text (record : Audit) (name : String) : field? record.text name = record.lookup name := by
  rw [field?, text, Json.parse?_compact, Json.ofFields]
  simp only [lookup_map]
  cases record.lookup name <;> rfl

theorem read?_text {record : Audit} {name value : String} (parse : String → Option α)
    (h : record.lookup name = some value) : read? parse record.text name = parse value := by
  rw [read?, field?_text, h, Option.bind_some]

end Audit

namespace Operations

variable {κ : Type}

/-- Encrypting with a record draws and ends as encrypting does. Within the bound the plaintext and the
randomness are read from the record, and encrypt to the same ciphertext; beyond it both fail with the same
domain fault. -/
structure Reproduces (ops : Operations κ) (bound : ℕ) (random? : String → Option ℕ)
    (shows : κ → ℕ → String → Prop) : Prop where
  within {m : ℤ} (hm : m.natAbs ≤ bound) (e : Entropy) : ∃ c record r e',
    (ops.encrypt m).outcome e = (.ok c, e') ∧
    (ops.encryptAudited m).outcome e = (.ok (c, record), e') ∧
    Audit.read? Hex.toInt? record.text "m" = some m ∧
    Audit.read? random? record.text "r" = some r ∧
    ops.encryptWith m r = .ok c ∧ shows c r record.text
  beyond {m : ℤ} (hm : bound < m.natAbs) (e : Entropy) : ∃ fault e',
    (ops.encrypt m).outcome e = (.error (.domain fault), e') ∧
    (ops.encryptAudited m).outcome e = (.error (.domain fault), e')

variable {ops : Operations κ} {bound : ℕ} {random? : String → Option ℕ} {shows : κ → ℕ → String → Prop}

theorem reproduces (record : ℤ → ℕ → κ → Audit) (Drawn : ℕ → Prop)
    (hdraw : ∀ e, ∃ r e', ops.draw.outcome e = (.ok r, e') ∧ Drawn r)
    (haudit : ∀ m r, ops.audit m r = (ops.encryptWith m r).map fun c => (c, record m r c))
    (hwithin : ∀ m r, m.natAbs ≤ bound → ∃ c, ops.encryptWith m r = .ok c)
    (hbeyond : ∀ m r, bound < m.natAbs → ∃ fault, ops.encryptWith m r = .error (.domain fault))
    (hplain : ∀ m r c, (record m r c).lookup "m" = some (Hex.ofInt m))
    (hrandom : ∀ m r c, Drawn r → Audit.read? random? (record m r c).text "r" = some r)
    (hshows : ∀ m r c, shows c r (record m r c).text) :
    ops.Reproduces bound random? shows := by
  have houtcome (m : ℤ) {e e' : Entropy} {r : ℕ} (hr : ops.draw.outcome e = (.ok r, e')) :
      (ops.encrypt m).outcome e = (ops.encryptWith m r, e') ∧ (ops.encryptAudited m).outcome e =
        ((ops.encryptWith m r).map fun c => (c, record m r c), e') := by
    rw [← haudit]
    exact ⟨(Draw.outcome_bind_of_ok _ hr).trans (Draw.outcome_lift _ _),
      (Draw.outcome_bind_of_ok _ hr).trans (Draw.outcome_lift _ _)⟩
  constructor
  case within =>
    intro m hm e
    obtain ⟨r, e', hr, hdrawn⟩ := hdraw e
    obtain ⟨c, hc⟩ := hwithin m r hm
    obtain ⟨hencrypt, haudited⟩ := houtcome m hr
    rw [hc] at hencrypt haudited
    exact ⟨c, record m r c, r, e', hencrypt, haudited,
      (Audit.read?_text _ (hplain m r c)).trans (Hex.toInt?_ofInt m), hrandom m r c hdrawn, hc,
      hshows m r c⟩
  case beyond =>
    intro m hm e
    obtain ⟨r, e', hr, -⟩ := hdraw e
    obtain ⟨fault, hfault⟩ := hbeyond m r hm
    obtain ⟨hencrypt, haudited⟩ := houtcome m hr
    rw [hfault] at hencrypt haudited
    exact ⟨fault, e', hencrypt, haudited⟩

end Operations

namespace Audit

variable {record : Audit} {name : String}

theorem read?_toNat {n : ℕ} (h : record.lookup name = some (Hex.ofNat n)) :
    read? Hex.toNat? record.text name = some n := (read?_text _ h).trans (Hex.toNat?_ofNat n)

theorem read?_toBytes {bytes : Bytes} (h : record.lookup name = some (Hex.ofBytes bytes)) :
    read? Hex.toBytes? record.text name = some bytes := (read?_text _ h).trans (Hex.toBytes?_ofBytes bytes)

def ofResidue (name : String) (m : ℤ) (r power c : ℕ) : Audit :=
  [("m", Hex.ofInt m), ("r", Hex.ofNat r), (name, Hex.ofNat power), ("c", Hex.ofNat c)]

def ShowsResidue (name : String) (power c : ℕ) (text : String) : Prop :=
  read? Hex.toNat? text name = some power ∧ read? Hex.toNat? text "c" = some c

theorem showsResidue (hname : name ∉ ["m", "r", "c"]) (m : ℤ) (r power c : ℕ) :
    ShowsResidue name power c (ofResidue name m r power c).text := by
  simp only [List.mem_cons, List.not_mem_nil, or_false, not_or] at hname
  have hm : (name == "m") = false := beq_eq_false_iff_ne.mpr hname.1
  have hr : (name == "r") = false := beq_eq_false_iff_ne.mpr hname.2.1
  have hc : ("c" == name) = false := beq_eq_false_iff_ne.mpr (Ne.symm hname.2.2)
  constructor
  · apply read?_toNat
    simp [ofResidue, List.lookup_cons, hm, hr]
  · apply read?_toNat
    simp [ofResidue, List.lookup_cons, hc]

end Audit

theorem Operations.Realizes.reproduces {κ G : Type} [AddCommGroup G] {ops : Operations κ} {bound : ℕ}
    {standsFor : κ → G → Prop} {plain blinding : G} (h : ops.Realizes bound standsFor plain blinding)
    {name : String} {power : ℕ → ℕ} {value : κ → ℕ} (hname : name ∉ ["m", "r", "c"])
    (haudit : ∀ m r, ops.audit m r = (ops.encryptWith m r).map fun c =>
      (c, Audit.ofResidue name m r (power r) (value c))) :
    ops.Reproduces bound Hex.toNat? fun c r => Audit.ShowsResidue name (power r) (value c) := by
  apply Operations.reproduces (fun m r c => Audit.ofResidue name m r (power r) (value c)) fun _ => True
  case hdraw =>
    intro e
    obtain ⟨r, e', hr⟩ := h.draw e
    exact ⟨r, e', hr, trivial⟩
  case haudit => exact haudit
  case hwithin =>
    intro m r hm
    obtain ⟨c, hc, -⟩ := h.encryptWith hm r
    exact ⟨c, hc⟩
  case hbeyond => exact fun m r hm => h.encryptWith_beyond hm r
  case hplain => exact fun m r c => rfl
  case hrandom => exact fun m r c _ => Audit.read?_toNat rfl
  case hshows => exact fun m r c => Audit.showsResidue hname m r (power r) (value c)

theorem Paillier.PublicKey.reproduces (pk : PublicKey) :
    pk.operations.Reproduces pk.bound Hex.toNat? fun c r =>
      Audit.ShowsResidue "hs_r" (pk.hs ^ r % pk.n.value ^ 2) c.value := by
  apply pk.realizes.reproduces (by decide)
  intro m r
  change pk.audit m r = (pk.encryptWith m r).map _
  rw [sq, ← Modulus.square_value, ← powers_pow, audit, encryptWith]
  cases pk.checkPlaintext m <;> rfl

theorem OkamotoUchiyama.PublicKey.reproduces (pk : PublicKey) :
    pk.operations.Reproduces pk.bound Hex.toNat? fun c r =>
      Audit.ShowsResidue "h_r" (pk.h ^ r % pk.n.value) c.value := by
  apply pk.realizes.reproduces (by decide)
  intro m r
  change pk.audit m r = (pk.encryptWith m r).map _
  rw [← hPowers_pow, audit, encryptWith]
  cases pk.checkPlaintext m with
  | error => rfl
  | ok => cases pk.encode m <;> rfl

namespace ElGamal

open PointGroup

variable {E : PointGroup}

def scalar? (E : PointGroup) (text : String) : Option ℕ :=
  match Hex.toBytes? text with
  | some bytes => if bytes.length = width then E.canonicalScalar? bytes else none
  | none => none

theorem scalar?_ofBytes (horder : E.order ≤ 256 ^ width) {r : ℕ} (hr : r < E.order) :
    scalar? E (Hex.ofBytes (scalarBytes r)) = some r := by
  rw [scalar?, Hex.toBytes?_ofBytes]
  simp only [length_scalarBytes, canonicalScalar?_scalarBytes horder hr, if_true]

theorem outcome_drawScalar_lt (e : Entropy) :
    ∃ r e', (drawScalar E).outcome e = (.ok r, e') ∧ r < E.order := by
  rw [drawScalar, Draw.outcome_bind_of_ok _ (Draw.outcome_take 64 e)]
  exact ⟨_, _, rfl, Nat.mod_lt _ E.order_pos⟩

namespace PublicKey

variable (pk : PublicKey E)

def record (m : ℤ) (r : ℕ) (c : Ciphertext E) : Audit :=
  [("m", Hex.ofInt m), ("r", Hex.ofBytes (scalarBytes r)), ("c1", Hex.ofBytes (E.encode c.c1)),
    ("c2", Hex.ofBytes (E.encode c.c2))]

theorem audit_eq (m : ℤ) (r : ℕ) :
    pk.audit m r = (pk.encryptWith m r).map fun c => (c, record m r c) := by
  rw [audit]
  cases pk.encryptWith m r <;> rfl

def Shows (c : Ciphertext E) (_r : ℕ) (text : String) : Prop :=
  Audit.read? Hex.toBytes? text "c1" = some (E.encode c.c1) ∧
    Audit.read? Hex.toBytes? text "c2" = some (E.encode c.c2)

theorem reproduces (horder : E.order ≤ 256 ^ width) :
    pk.operations.Reproduces pk.maxPlaintext.toNat (scalar? E) Shows := by
  apply Operations.reproduces record (· < E.order)
  case hdraw => exact outcome_drawScalar_lt
  case haudit => exact pk.audit_eq
  case hwithin =>
    intro m r hm
    change ∃ c, pk.encryptWith m r = .ok c
    rw [encryptWith, scalar_of_le hm]
    exact ⟨_, rfl⟩
  case hbeyond =>
    intro m r hm
    obtain ⟨fault, hfault⟩ := scalar_of_lt hm
    change ∃ fault, pk.encryptWith m r = .error (.domain fault)
    rw [encryptWith, hfault]
    exact ⟨fault, rfl⟩
  case hplain => exact fun m r c => rfl
  case hrandom =>
    intro m r c hr
    exact (Audit.read?_text _ rfl).trans (scalar?_ofBytes horder hr)
  case hshows => exact fun m r c => ⟨Audit.read?_toBytes rfl, Audit.read?_toBytes rfl⟩

end PublicKey

end ElGamal

theorem audit_reproduces {E : PointGroup} (horder : E.order ≤ 256 ^ PointGroup.width) :
    (∀ pk : Paillier.PublicKey, pk.operations.Reproduces pk.bound Hex.toNat? fun c r =>
      Audit.ShowsResidue "hs_r" (pk.hs ^ r % pk.n.value ^ 2) c.value) ∧
    (∀ pk : OkamotoUchiyama.PublicKey, pk.operations.Reproduces pk.bound Hex.toNat? fun c r =>
      Audit.ShowsResidue "h_r" (pk.h ^ r % pk.n.value) c.value) ∧
    ∀ pk : ElGamal.PublicKey E, pk.operations.Reproduces pk.maxPlaintext.toNat (ElGamal.scalar? E)
      ElGamal.PublicKey.Shows :=
  ⟨fun pk => pk.reproduces, fun pk => pk.reproduces, fun pk => pk.reproduces horder⟩

theorem audit_reproduces_ristretto :
    ∃ pk : ElGamal.PublicKey Ristretto.group,
      ElGamal.PublicKey.ofParts .ristretto255 Ristretto.group.base 1000 = .ok pk ∧
      Ristretto.group.order ≤ 256 ^ PointGroup.width ∧
      (∀ e, ∃ c record r e', (pk.operations.encrypt (-16)).outcome e = (.ok c, e') ∧
        (pk.operations.encryptAudited (-16)).outcome e = (.ok (c, record), e') ∧
        Audit.read? Hex.toInt? record.text "m" = some (-16) ∧
        Audit.read? (ElGamal.scalar? Ristretto.group) record.text "r" = some r ∧
        pk.operations.encryptWith (-16) r = .ok c) ∧
      ∀ e, ∃ fault e', (pk.operations.encryptAudited 1001).outcome e = (.error (.domain fault), e') := by
  have horder : Ristretto.group.order ≤ 256 ^ PointGroup.width := by decide +kernel
  have hne : Ristretto.group.same Ristretto.group.base Ristretto.group.zero = false := by decide +kernel
  obtain ⟨pk, hpk, -, -, hmax⟩ : ∃ pk : ElGamal.PublicKey Ristretto.group,
      ElGamal.PublicKey.ofParts .ristretto255 Ristretto.group.base 1000 = .ok pk ∧
      pk.curve = .ristretto255 ∧ pk.y = Ristretto.group.base ∧ pk.maxPlaintext = 1000 :=
    ElGamal.PublicKey.exists_ofParts hne (by decide)
  obtain ⟨-, -, helgamal⟩ := audit_reproduces horder
  refine ⟨pk, hpk, horder, fun e => ?_, fun e => ?_⟩
  · obtain ⟨c, record, r, e', hencrypt, haudited, hplain, hrandom, hagain, -⟩ :=
      (helgamal pk).within (m := -16) (by rw [hmax]; decide) e
    exact ⟨c, record, r, e', hencrypt, haudited, hplain, hrandom, hagain⟩
  · obtain ⟨fault, e', -, haudited⟩ := (helgamal pk).beyond (m := 1001) (by rw [hmax]; decide) e
    exact ⟨fault, e', haudited⟩

end Homomorphic
