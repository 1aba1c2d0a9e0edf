import Homomorphic.Key
import Homomorphic.Program

namespace Homomorphic

inductive Call (E : PointGroup) where
  | compute (pk : PublicKey E) (step : Step)
  | encryptAudited (pk : PublicKey E) (target : String) (m : Int)
  | decrypt (sk : SecretKey E) (name : String)

inductive Reply (E : PointGroup) where
  | missing
  | failed (error : Error)
  | stored (c : Ciphertext E)
  | audited (c : Ciphertext E) (record : Audit)
  | plaintext (m : Int)

variable {E : PointGroup}

def Reply.ofOutcome : Outcome (Ciphertext E) → Reply E
  | .missing => .missing
  | .failed error => .failed error
  | .stored c => .stored c

namespace Store

def call (s : Store (Ciphertext E)) : Call E → StateM Entropy (Store (Ciphertext E) × Reply E)
  | .compute pk step => do
    let (s, outcome) ← s.step pk.operations step
    return (s, .ofOutcome outcome)
  | .encryptAudited pk target m => do
    match ← (pk.operations.encryptAudited m).run with
    | .ok (c, record) => return (s.insert target c, .audited c record)
    | .error error => return (s, .failed error)
  | .decrypt sk name =>
    match s.find? name with
    | none => return (s, .missing)
    | some c =>
      match sk.decrypt c with
      | .ok m => return (s, .plaintext m)
      | .error error => return (s, .failed error)

def session : Store (Ciphertext E) → List (Call E) →
    StateM Entropy (Store (Ciphertext E) × List (Reply E))
  | s, [] => return (s, [])
  | s, first :: rest => do
    let (s, reply) ← s.call first
    let (s, replies) ← s.session rest
    return (s, reply :: replies)

end Store

end Homomorphic
