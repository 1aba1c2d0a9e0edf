import Homomorphic.Operations

/-!
Runs of operations over named ciphertexts. A step that fails leaves every name as it was; one whose
target is its own first operand computes in place.
-/

namespace Homomorphic

inductive Operation (α : Type) where
  | encrypt (m : Int)
  | encryptWith (m : Int) (r : Nat)
  | add (a b : α)
  | sub (a b : α)
  | negate (a : α)
  | addPlain (a : α) (m : Int)
  | subPlain (a : α) (m : Int)
  | mul (a : α) (k : Int)
  | randomize (a : α)
  deriving DecidableEq, Repr

namespace Operation

def mapM? {α β : Type} (f : α → Option β) : Operation α → Option (Operation β)
  | .encrypt m => some (.encrypt m)
  | .encryptWith m r => some (.encryptWith m r)
  | .add a b => do return .add (← f a) (← f b)
  | .sub a b => do return .sub (← f a) (← f b)
  | .negate a => do return .negate (← f a)
  | .addPlain a m => do return .addPlain (← f a) m
  | .subPlain a m => do return .subPlain (← f a) m
  | .mul a k => do return .mul (← f a) k
  | .randomize a => do return .randomize (← f a)

def value : Operation Int → Int
  | .encrypt m => m
  | .encryptWith m _ => m
  | .add a b => a + b
  | .sub a b => a - b
  | .negate a => -a
  | .addPlain a m => a + m
  | .subPlain a m => a - m
  | .mul a k => k * a
  | .randomize a => a

end Operation

def Operations.perform {κ : Type} (ops : Operations κ) : Operation κ → Draw κ
  | .encrypt m => ops.encrypt m
  | .encryptWith m r => ops.encryptWith m r
  | .add a b => ops.add a b
  | .sub a b => ops.sub a b
  | .negate a => ops.negate a
  | .addPlain a m => ops.addPlain a m
  | .subPlain a m => ops.subPlain a m
  | .mul a k => ops.mul a k
  | .randomize a => ops.randomize a

/-- Values by name; of two with one name the first counts. -/
structure Store (κ : Type) where
  entries : List (String × κ)

namespace Store

variable {κ : Type}

def empty : Store κ := ⟨[]⟩

def find? (s : Store κ) (name : String) : Option κ := s.entries.lookup name

def insert (s : Store κ) (name : String) (value : κ) : Store κ :=
  ⟨(name, value) :: s.entries.filter fun entry => entry.1 != name⟩

end Store

structure Step where
  target : String
  operation : Operation String
  deriving DecidableEq, Repr

inductive Outcome (κ : Type) where
  | missing
  | failed (error : Error)
  | stored (value : κ)

namespace Store

variable {κ : Type}

def step (ops : Operations κ) (s : Store κ) (step : Step) : StateM Entropy (Store κ × Outcome κ) := do
  match step.operation.mapM? s.find? with
  | none => return (s, .missing)
  | some operation =>
    match ← (ops.perform operation).run with
    | .ok value => return (s.insert step.target value, .stored value)
    | .error error => return (s, .failed error)

def run (ops : Operations κ) : Store κ → List Step → StateM Entropy (Store κ × List (Outcome κ))
  | s, [] => return (s, [])
  | s, first :: rest => do
    let (s, outcome) ← s.step ops first
    let (s, outcomes) ← run ops s rest
    return (s, outcome :: outcomes)

end Store

end Homomorphic
