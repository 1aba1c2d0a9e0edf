import Homomorphic.ElGamal.Ciphertext
import Homomorphic.OkamotoUchiyama.Key
import Homomorphic.Paillier.Key
import Homomorphic.Proofs.Reading

namespace Homomorphic

namespace ElGamal

def PublicKey.Record.put (record : PublicKey.Record) : Bytes :=
  Wire.putText record.curve ++ Wire.putText record.library ++ record.y ++
    Bytes.ofNat 8 record.maxPlaintext.toNat

def SecretKey.Record.put (record : SecretKey.Record) : Bytes :=
  Wire.putText record.curve ++ Wire.putText record.library ++ record.x ++
    Bytes.ofNat 8 record.maxPlaintext.toNat ++ Bytes.ofNat 4 record.tableBits.toNat

namespace Record

def readNamed : Wire.Reader Record :=
  return named (← Wire.text) (← Wire.text) (← readPoint) (← readPoint)

def readCompact : Wire.Reader Record :=
  return compact (UInt64.ofNat (← Wire.word 8)) (← readPoint) (← readPoint)

theorem reader_eq :
    reader = Wire.word 4 >>= fun form =>
      if form = 0 then readNamed else if form = 1 then readCompact else throw (.variant form) := rfl

end Record

variable {E : PointGroup}

theorem PublicKey.toBytes_eq (pk : PublicKey E) :
    pk.toBytes = Wire.encode (Record.put {
      curve := pk.curve.curve, library := pk.curve.library
      y := E.encode pk.y, maxPlaintext := pk.maxPlaintext }) := rfl

theorem SecretKey.toBytes_eq (sk : SecretKey E) :
    sk.toBytes = Wire.encode (Record.put {
      curve := sk.curve.curve, library := sk.curve.library
      x := PointGroup.scalarBytes sk.x, maxPlaintext := sk.maxPlaintext
      tableBits := sk.tableBits }) := rfl

end ElGamal

namespace Wire

inductive Form where
  | natural
  | integer
  | pair
  | triple
  | quadruple
  | publicRecord
  | secretRecord
  | ciphertextRecord
  deriving DecidableEq, Repr

namespace Form

def Value : Form → Type
  | natural => ℕ
  | integer => ℤ
  | pair => ℕ × ℕ
  | triple => ℕ × ℕ × ℕ
  | quadruple => ℕ × ℕ × ℕ × ℕ
  | publicRecord => ElGamal.PublicKey.Record
  | secretRecord => ElGamal.SecretKey.Record
  | ciphertextRecord => ElGamal.Record

def reader : (form : Form) → Reader form.Value
  | natural => Wire.natural
  | integer => Wire.integer
  | pair => Paillier.PublicKey.reader
  | triple => OkamotoUchiyama.SecretKey.reader
  | quadruple => Paillier.SecretKey.reader
  | publicRecord => ElGamal.PublicKey.reader
  | secretRecord => ElGamal.SecretKey.reader
  | ciphertextRecord => ElGamal.Record.reader

def put : (form : Form) → form.Value → Bytes
  | natural => putNatural
  | integer => putInteger
  | pair => fun (a, b) => putNaturals [a, b]
  | triple => fun (a, b, c) => putNaturals [a, b, c]
  | quadruple => fun (a, b, c, d) => putNaturals [a, b, c, d]
  | publicRecord => ElGamal.PublicKey.Record.put
  | secretRecord => ElGamal.SecretKey.Record.put
  | ciphertextRecord => ElGamal.Record.put

end Form

theorem takes_pair :
    Takes Paillier.PublicKey.reader fun v written => written = Form.pair.put v := by
  have hread := takes_natural.bind fun a => takes_natural.bind fun b => takes_pure (a, b)
  apply hread.mono
  rintro _ _ ⟨a, _, _, rfl, ⟨-, rfl⟩, b, _, _, rfl, ⟨-, rfl⟩, rfl, rfl⟩
  rfl

theorem takes_triple :
    Takes OkamotoUchiyama.SecretKey.reader fun v written => written = Form.triple.put v := by
  have hread := takes_natural.bind fun a => takes_natural.bind fun b =>
    takes_natural.bind fun c => takes_pure (a, b, c)
  apply hread.mono
  rintro _ _ ⟨a, _, _, rfl, ⟨-, rfl⟩, b, _, _, rfl, ⟨-, rfl⟩, c, _, _, rfl, ⟨-, rfl⟩, rfl, rfl⟩
  rfl

theorem takes_quadruple :
    Takes Paillier.SecretKey.reader fun v written => written = Form.quadruple.put v := by
  have hread := takes_natural.bind fun a => takes_natural.bind fun b =>
    takes_natural.bind fun c => takes_natural.bind fun d => takes_pure (a, b, c, d)
  apply hread.mono
  rintro _ _ ⟨a, _, _, rfl, ⟨-, rfl⟩, b, _, _, rfl, ⟨-, rfl⟩, c, _, _, rfl, ⟨-, rfl⟩,
    d, _, _, rfl, ⟨-, rfl⟩, rfl, rfl⟩
  rfl

theorem takes_point :
    Takes ElGamal.Record.readPoint fun a written => a.length = PointGroup.width ∧ written = a :=
  takes_take PointGroup.width (.inl rfl)

theorem takes_word64 :
    Takes (word 8) fun n written => written = Bytes.ofNat 8 (UInt64.ofNat n).toNat := by
  apply (takes_word 8).mono
  rintro n _ ⟨hn, rfl⟩
  rw [UInt64.toNat_ofNat_of_lt' hn]

theorem takes_word32 :
    Takes (word 4) fun n written => written = Bytes.ofNat 4 (UInt32.ofNat n).toNat := by
  apply (takes_word 4).mono
  rintro n _ ⟨hn, rfl⟩
  rw [UInt32.toNat_ofNat_of_lt' hn]

theorem takes_publicRecord :
    Takes ElGamal.PublicKey.reader fun v written => written = v.put := by
  have hread := takes_text.bind fun curve => takes_text.bind fun library =>
    takes_point.bind fun y => takes_word64.bind fun maxPlaintext =>
      takes_pure (⟨curve, library, y, UInt64.ofNat maxPlaintext⟩ : ElGamal.PublicKey.Record)
  apply hread.mono
  rintro _ _ ⟨curve, _, _, rfl, rfl, library, _, _, rfl, rfl, y, _, _, rfl, ⟨-, rfl⟩,
    maxPlaintext, _, _, rfl, rfl, rfl, rfl⟩
  simp [ElGamal.PublicKey.Record.put]

theorem takes_secretRecord :
    Takes ElGamal.SecretKey.reader fun v written => written = v.put := by
  have hread := takes_text.bind fun curve => takes_text.bind fun library =>
    takes_point.bind fun x => takes_word64.bind fun maxPlaintext =>
      takes_word32.bind fun tableBits => takes_pure (⟨curve, library, x, UInt64.ofNat maxPlaintext,
        UInt32.ofNat tableBits⟩ : ElGamal.SecretKey.Record)
  apply hread.mono
  rintro _ _ ⟨curve, _, _, rfl, rfl, library, _, _, rfl, rfl, x, _, _, rfl, ⟨-, rfl⟩,
    maxPlaintext, _, _, rfl, rfl, tableBits, _, _, rfl, rfl, rfl, rfl⟩
  simp [ElGamal.SecretKey.Record.put]

theorem takes_named :
    Takes ElGamal.Record.readNamed fun v written => Bytes.ofNat 4 0 ++ written = v.put := by
  have hread := takes_text.bind fun curve => takes_text.bind fun library =>
    takes_point.bind fun c1 => takes_point.bind fun c2 =>
      takes_pure (ElGamal.Record.named curve library c1 c2)
  apply hread.mono
  rintro _ _ ⟨curve, _, _, rfl, rfl, library, _, _, rfl, rfl, c1, _, _, rfl, ⟨-, rfl⟩,
    c2, _, _, rfl, ⟨-, rfl⟩, rfl, rfl⟩
  simp [ElGamal.Record.put]

theorem takes_compact :
    Takes ElGamal.Record.readCompact fun v written => Bytes.ofNat 4 1 ++ written = v.put := by
  have hread := takes_word64.bind fun id => takes_point.bind fun c1 => takes_point.bind fun c2 =>
    takes_pure (ElGamal.Record.compact (UInt64.ofNat id) c1 c2)
  apply hread.mono
  rintro _ _ ⟨id, _, _, rfl, rfl, c1, _, _, rfl, ⟨-, rfl⟩, c2, _, _, rfl, ⟨-, rfl⟩, rfl, rfl⟩
  simp [ElGamal.Record.put]

theorem takes_ciphertextRecord :
    Takes ElGamal.Record.reader fun v written => written = v.put := by
  have hform (form : ℕ) : Takes
      (if form = 0 then ElGamal.Record.readNamed
        else if form = 1 then ElGamal.Record.readCompact else throw (.variant form))
      fun v written => Bytes.ofNat 4 form ++ written = v.put := by
    split_ifs with hnamed hcompact
    · rw [hnamed]
      exact takes_named
    · rw [hcompact]
      exact takes_compact
    · exact takes_throw _
  rw [ElGamal.Record.reader_eq]
  apply ((takes_word 4).bind hform).mono
  rintro _ _ ⟨form, _, _, rfl, ⟨-, rfl⟩, h⟩
  exact h

theorem Form.takes (form : Form) : Takes form.reader fun v written => written = form.put v := by
  cases form with
  | natural => exact takes_natural.mono fun _ _ h => h.2
  | integer => exact takes_integer.mono fun _ _ h => h.2
  | pair => exact takes_pair
  | triple => exact takes_triple
  | quadruple => exact takes_quadruple
  | publicRecord => exact takes_publicRecord
  | secretRecord => exact takes_secretRecord
  | ciphertextRecord => exact takes_ciphertextRecord

end Wire

end Homomorphic
