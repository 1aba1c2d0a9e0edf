import Homomorphic.Proofs.Runs
import Homomorphic.Session

/-!
A session on ciphertexts of any schemes is one on the ciphertexts of each scheme. A call whose operands
are all of the scheme of its key does what the key of the scheme does with what is in them; any other
call fails for the first operand of another scheme, and does nothing.
-/

namespace Homomorphic

variable {E : PointGroup}

namespace Schema

def Value (E : PointGroup) : Schema → Type
  | paillier => Paillier.Ciphertext
  | ou => OkamotoUchiyama.Ciphertext
  | elgamal => ElGamal.Ciphertext E

def wrap : (schema : Schema) → schema.Value E → Ciphertext E
  | paillier => .paillier
  | ou => .ou
  | elgamal => .elgamal

def unwrap : (schema : Schema) → Ciphertext E → Except Error (schema.Value E)
  | paillier => Ciphertext.toPaillier
  | ou => Ciphertext.toOu
  | elgamal => Ciphertext.toElGamal

variable {schema : Schema}

theorem unwrap_wrap (v : schema.Value E) : schema.unwrap (schema.wrap v) = .ok v := by
  cases schema <;> rfl

theorem exists_wrap {c : Ciphertext E} (h : c.schema = schema) : ∃ v, c = schema.wrap v := by
  cases c <;> cases h <;> exact ⟨_, rfl⟩

theorem unwrap_of_ne {c : Ciphertext E} (h : c.schema ≠ schema) :
    schema.unwrap c = .error (.schemaMismatch schema c.schema) := by
  cases schema <;> cases c <;> first | rfl | exact absurd rfl h

theorem unwrap_eq_ok {c : Ciphertext E} {v : schema.Value E} :
    schema.unwrap c = .ok v ↔ c = schema.wrap v := by
  constructor
  · intro h
    by_cases hc : c.schema = schema
    · obtain ⟨v', rfl⟩ := exists_wrap hc
      rw [unwrap_wrap] at h
      rw [Except.ok.inj h]
    · rw [unwrap_of_ne hc] at h
      cases h
  · rintro rfl
    exact unwrap_wrap v

theorem find?_singleton_eq_some {a c : Ciphertext E} :
    [a].find? (fun c => c.schema ≠ schema) = some c ↔ a = c ∧ a.schema ≠ schema := by
  rw [List.find?_singleton, Option.ite_none_right_eq_some, decide_eq_true_iff, Option.some_inj,
    and_comm]

end Schema

namespace PublicKey

def scheme : (pk : PublicKey E) → Operations (pk.schema.Value E)
  | paillier pk => pk.operations
  | ou pk => pk.operations
  | elgamal pk => pk.operations

theorem operations_eq_lift (pk : PublicKey E) :
    pk.operations = pk.scheme.lift pk.schema.wrap pk.schema.unwrap := by
  cases pk <;> rfl

end PublicKey

namespace SecretKey

def scheme : (sk : SecretKey E) → sk.schema.Value E → Except Error Int
  | paillier sk => sk.decrypt
  | ou sk => sk.decrypt
  | elgamal sk => sk.decrypt

theorem decrypt_eq_bind (sk : SecretKey E) (c : Ciphertext E) :
    sk.decrypt c = sk.schema.unwrap c >>= sk.scheme := by
  cases sk <;> rfl

theorem decrypt_wrap (sk : SecretKey E) (v : sk.schema.Value E) :
    sk.decrypt (sk.schema.wrap v) = sk.scheme v := by
  rw [decrypt_eq_bind, Schema.unwrap_wrap]
  rfl

theorem decrypt_of_ne {sk : SecretKey E} {c : Ciphertext E} (h : c.schema ≠ sk.schema) :
    sk.decrypt c = .error (.schemaMismatch sk.schema c.schema) := by
  rw [decrypt_eq_bind, Schema.unwrap_of_ne h]
  rfl

end SecretKey

namespace Operations

variable {κ τ : Type} {wrap : κ → τ} {unwrap : τ → Except Error κ}

theorem liftM_bind_pure (x : Except Error κ) :
    (liftM (x >>= fun c => pure (wrap c)) : Draw τ) = wrap <$> liftM x := by
  cases x <;> rfl

theorem perform_lift (ops : Operations κ) (hwrap : ∀ c, unwrap (wrap c) = .ok c) {op : Operation τ}
    {op' : Operation κ} (h : op.Related (fun t c => t = wrap c) op') :
    (ops.lift wrap unwrap).perform op = wrap <$> ops.perform op' := by
  have unwrapped {β : Type} (c : κ) (f : κ → Except Error β) : unwrap (wrap c) >>= f = f c := by
    rw [hwrap]
    rfl
  cases h with
  | encrypt m => simp only [perform, encrypt, lift, liftM_bind_pure, map_bind]
  | encryptWith m r => exact liftM_bind_pure _
  | add ha hb | sub ha hb =>
    subst ha hb
    simp only [perform, lift, unwrapped, liftM_bind_pure]
  | negate ha | addPlain ha m | mul ha k =>
    subst ha
    simp only [perform, lift, unwrapped, liftM_bind_pure]
  | subPlain ha m =>
    subst ha
    simp only [perform, subPlain, lift, unwrapped, liftM_bind_pure]
  | randomize ha =>
    subst ha
    simp only [perform, randomize, lift, unwrapped, liftM_bind_pure, map_bind]

theorem encryptAudited_lift (ops : Operations κ) (m : ℤ) :
    (ops.lift wrap unwrap).encryptAudited m =
      (fun a : κ × Audit => (wrap a.1, a.2)) <$> ops.encryptAudited m := by
  simp only [encryptAudited, lift, liftM_bind_pure, map_bind]

theorem perform_lift_of_foreign {schema : Schema} (ops : Operations (schema.Value E))
    {op : Operation (Ciphertext E)} {c : Ciphertext E}
    (h : op.operands.find? (fun c => c.schema ≠ schema) = some c) :
    (ops.lift schema.wrap schema.unwrap).perform op =
      liftM (.error (.schemaMismatch schema c.schema) : Except Error (Ciphertext E)) := by
  have own {β : Type} {a : Ciphertext E} (ha : a.schema = schema)
      (f : schema.Value E → Except Error β) : ∃ v, schema.unwrap a >>= f = f v := by
    obtain ⟨v, rfl⟩ := Schema.exists_wrap ha
    rw [Schema.unwrap_wrap]
    exact ⟨v, rfl⟩
  have foreign {β : Type} {a : Ciphertext E} (ha : a.schema ≠ schema)
      (f : schema.Value E → Except Error β) :
      schema.unwrap a >>= f = .error (.schemaMismatch schema a.schema) := by
    rw [Schema.unwrap_of_ne ha]
    rfl
  have binary {a b : Ciphertext E} (h : [a, b].find? (fun c => c.schema ≠ schema) = some c)
      (f : schema.Value E → schema.Value E → Except Error (Ciphertext E)) :
      (do f (← schema.unwrap a) (← schema.unwrap b)) = .error (.schemaMismatch schema c.schema) := by
    by_cases ha : a.schema = schema
    · rw [List.find?_cons_of_neg (by simpa using ha)] at h
      obtain ⟨rfl, hb⟩ := Schema.find?_singleton_eq_some.mp h
      obtain ⟨v, hv⟩ := own ha fun a => schema.unwrap b >>= fun b => f a b
      rw [hv, foreign hb]
    · rw [List.find?_cons_of_pos (by simpa using ha)] at h
      cases h
      rw [foreign ha]
  cases op with
  | encrypt m | encryptWith m r => cases h
  | add a b | sub a b => exact congrArg liftM (binary h _)
  | negate a | addPlain a m | mul a k | subPlain a m =>
    obtain ⟨rfl, ha⟩ := Schema.find?_singleton_eq_some.mp h
    exact congrArg liftM (foreign ha _)
  | randomize a =>
    obtain ⟨rfl, ha⟩ := Schema.find?_singleton_eq_some.mp h
    simp only [perform, randomize, lift]
    rw [foreign ha]
    rfl

end Operations

namespace Call

def schema : Call E → Schema
  | compute pk _ | encryptAudited pk _ _ => pk.schema
  | decrypt sk _ => sk.schema

def operands : Call E → List String
  | compute _ step => step.operation.operands
  | encryptAudited .. => []
  | decrypt _ name => [name]

def foreign? (call : Call E) (s : Store (Ciphertext E)) : Option (Ciphertext E) :=
  (call.operands.filterMap s.find?).find? (fun c => c.schema ≠ call.schema)

variable (s : Store (Ciphertext E)) (e : Entropy)

/-- How a call ends, with which store and with what is left of the randomness: with nothing done if an
operand is missing or of another scheme, and else as the key does with what is in the operands. -/
inductive Ends : Call E → Reply E → Store (Ciphertext E) → Entropy → Prop
  | missing {call : Call E} (h : ∃ name ∈ call.operands, s.find? name = none) :
    Ends call .missing s e
  | foreign {call : Call E} {c : Ciphertext E} (h : ∀ name ∈ call.operands, s.find? name ≠ none)
    (hc : call.foreign? s = some c) : Ends call (.failed (.schemaMismatch call.schema c.schema)) s e
  | computed {pk : PublicKey E} {step : Step} {op : Operation (Ciphertext E)}
    {op' : Operation (pk.schema.Value E)} {v : pk.schema.Value E} {e' : Entropy}
    (hop : step.operation.mapM? s.find? = some op)
    (hop' : op.Related (fun c v => c = pk.schema.wrap v) op')
    (hv : (pk.scheme.perform op').outcome e = (.ok v, e')) :
    Ends (.compute pk step) (.stored (pk.schema.wrap v)) (s.insert step.target (pk.schema.wrap v)) e'
  | notComputed {pk : PublicKey E} {step : Step} {op : Operation (Ciphertext E)}
    {op' : Operation (pk.schema.Value E)} {error : Error} {e' : Entropy}
    (hop : step.operation.mapM? s.find? = some op)
    (hop' : op.Related (fun c v => c = pk.schema.wrap v) op')
    (herror : (pk.scheme.perform op').outcome e = (.error error, e')) :
    Ends (.compute pk step) (.failed error) s e'
  | audited {pk : PublicKey E} {target : String} {m : ℤ} {v : pk.schema.Value E} {record : Audit}
    {e' : Entropy} (hv : (pk.scheme.encryptAudited m).outcome e = (.ok (v, record), e')) :
    Ends (.encryptAudited pk target m) (.audited (pk.schema.wrap v) record)
      (s.insert target (pk.schema.wrap v)) e'
  | notAudited {pk : PublicKey E} {target : String} {m : ℤ} {error : Error} {e' : Entropy}
    (herror : (pk.scheme.encryptAudited m).outcome e = (.error error, e')) :
    Ends (.encryptAudited pk target m) (.failed error) s e'
  | decrypted {sk : SecretKey E} {name : String} {v : sk.schema.Value E} {m : ℤ}
    (hname : s.find? name = some (sk.schema.wrap v)) (hm : sk.scheme v = .ok m) :
    Ends (.decrypt sk name) (.plaintext m) s e
  | notDecrypted {sk : SecretKey E} {name : String} {v : sk.schema.Value E} {error : Error}
    (hname : s.find? name = some (sk.schema.wrap v)) (herror : sk.scheme v = .error error) :
    Ends (.decrypt sk name) (.failed error) s e

end Call

namespace Store

variable {s s' : Store (Ciphertext E)} {e e' : Entropy} {call : Call E} {reply : Reply E}

theorem call_compute (s : Store (Ciphertext E)) (pk : PublicKey E) (step : Step) (e : Entropy) :
    s.call (.compute pk step) e =
      (((s.step pk.operations step e).1.1, .ofOutcome (s.step pk.operations step e).1.2),
        (s.step pk.operations step e).2) := rfl

theorem call_encryptAudited (s : Store (Ciphertext E)) (pk : PublicKey E) (target : String) (m : ℤ)
    (e : Entropy) :
    s.call (.encryptAudited pk target m) e =
      match (pk.operations.encryptAudited m).outcome e with
      | (.ok (c, record), e') => ((s.insert target c, .audited c record), e')
      | (.error error, e') => ((s, .failed error), e') := by
  rw [Store.call]
  change StateT.bind (pk.operations.encryptAudited m).run _ e = _
  simp only [StateT.bind, Draw.outcome]
  rcases (pk.operations.encryptAudited m).run e with ⟨_ | ⟨_, _⟩, _⟩ <;> rfl

theorem call_decrypt {c : Ciphertext E} {sk : SecretKey E} {name : String}
    (h : s.find? name = some c) :
    s.call (.decrypt sk name) e =
      match sk.decrypt c with
      | .ok m => ((s, .plaintext m), e)
      | .error error => ((s, .failed error), e) := by
  rw [Store.call, h]
  dsimp only
  cases sk.decrypt c <;> rfl

theorem call_of_missing (h : ∃ name ∈ call.operands, s.find? name = none) :
    s.call call e = ((s, .missing), e) := by
  cases call with
  | compute pk step =>
    rw [call_compute, step_of_missing (Operation.mapM?_eq_none_iff.mpr h)]
    rfl
  | encryptAudited pk target m =>
    obtain ⟨_, hmem, -⟩ := h
    exact absurd hmem List.not_mem_nil
  | decrypt sk name =>
    obtain ⟨name', hmem, hname⟩ := h
    obtain rfl := List.mem_singleton.mp hmem
    rw [Store.call, hname]
    rfl

theorem call_of_foreign {c : Ciphertext E} (h : ∀ name ∈ call.operands, s.find? name ≠ none)
    (hc : call.foreign? s = some c) :
    s.call call e = ((s, .failed (.schemaMismatch call.schema c.schema)), e) := by
  cases call with
  | compute pk step =>
    obtain ⟨op, hop⟩ : ∃ op, step.operation.mapM? s.find? = some op := by
      apply Option.ne_none_iff_exists'.mp
      rw [Ne, Operation.mapM?_eq_none_iff]
      rintro ⟨name, hmem, hname⟩
      exact h name hmem hname
    have hforeign : op.operands.find? (fun c => c.schema ≠ pk.schema) = some c := by
      rwa [Operation.operands_of_mapM? hop]
    rw [call_compute, step_of_operation hop, PublicKey.operations_eq_lift,
      Operations.perform_lift_of_foreign _ hforeign, Draw.outcome_lift]
    rfl
  | encryptAudited pk target m => cases hc
  | decrypt sk name =>
    obtain ⟨c', hname⟩ := Option.ne_none_iff_exists'.mp (h name (List.mem_singleton_self name))
    rw [Call.foreign?, Call.operands, List.filterMap_cons_some hname, List.filterMap_nil] at hc
    obtain ⟨rfl, hne⟩ := Schema.find?_singleton_eq_some.mp hc
    rw [call_decrypt hname, SecretKey.decrypt_of_ne hne]
    rfl

theorem call_of_ends (h : call.Ends s e reply s' e') : s.call call e = ((s', reply), e') := by
  cases h with
  | missing h => exact call_of_missing h
  | foreign h hc => exact call_of_foreign h hc
  | computed hop hop' hv =>
    rw [call_compute, step_of_operation hop, PublicKey.operations_eq_lift,
      Operations.perform_lift _ Schema.unwrap_wrap hop', Draw.outcome_map, hv]
    rfl
  | notComputed hop hop' herror =>
    rw [call_compute, step_of_operation hop, PublicKey.operations_eq_lift,
      Operations.perform_lift _ Schema.unwrap_wrap hop', Draw.outcome_map, herror]
    rfl
  | audited hv =>
    rw [call_encryptAudited, PublicKey.operations_eq_lift, Operations.encryptAudited_lift,
      Draw.outcome_map, hv]
    rfl
  | notAudited herror =>
    rw [call_encryptAudited, PublicKey.operations_eq_lift, Operations.encryptAudited_lift,
      Draw.outcome_map, herror]
    rfl
  | decrypted hname hm =>
    rw [call_decrypt hname, SecretKey.decrypt_wrap, hm]
  | notDecrypted hname herror =>
    rw [call_decrypt hname, SecretKey.decrypt_wrap, herror]

theorem exists_ends (s : Store (Ciphertext E)) (e : Entropy) (call : Call E) :
    ∃ reply s' e', call.Ends s e reply s' e' := by
  by_cases hmissing : ∃ name ∈ call.operands, s.find? name = none
  · exact ⟨_, _, _, .missing hmissing⟩
  have hfound : ∀ name ∈ call.operands, s.find? name ≠ none := by
    intro name hmem hname
    exact hmissing ⟨name, hmem, hname⟩
  cases hforeign : call.foreign? s with
  | some c => exact ⟨_, _, _, .foreign hfound hforeign⟩
  | none =>
    have hown (c : Ciphertext E) (hc : c ∈ call.operands.filterMap s.find?) :
        ∃ v, c = call.schema.wrap v := by
      apply Schema.exists_wrap
      simpa using List.find?_eq_none.mp hforeign c hc
    cases call with
    | compute pk step =>
      obtain ⟨op, hop⟩ := Option.ne_none_iff_exists'.mp (mt Operation.mapM?_eq_none_iff.mp hmissing)
      rw [Call.operands, ← Operation.operands_of_mapM? hop] at hown
      obtain ⟨op', hop'⟩ := Operation.exists_related hown
      rcases hv : (pk.scheme.perform op').outcome e with ⟨error | v, e'⟩
      · exact ⟨_, _, _, .notComputed hop hop' hv⟩
      · exact ⟨_, _, _, .computed hop hop' hv⟩
    | encryptAudited pk target m =>
      rcases hv : (pk.scheme.encryptAudited m).outcome e with ⟨error | ⟨v, record⟩, e'⟩
      · exact ⟨_, _, _, .notAudited hv⟩
      · exact ⟨_, _, _, .audited hv⟩
    | decrypt sk name =>
      have hmem : name ∈ (Call.decrypt sk name).operands := List.mem_singleton_self name
      obtain ⟨c, hname⟩ := Option.ne_none_iff_exists'.mp (hfound name hmem)
      obtain ⟨v, rfl⟩ := hown c (List.mem_filterMap.mpr ⟨name, hmem, hname⟩)
      cases hm : sk.scheme v with
      | error error => exact ⟨_, _, _, .notDecrypted hname hm⟩
      | ok m => exact ⟨_, _, _, .decrypted hname hm⟩

theorem call_eq_iff : s.call call e = ((s', reply), e') ↔ call.Ends s e reply s' e' := by
  constructor
  · intro h
    obtain ⟨_, _, _, hends⟩ := exists_ends s e call
    cases (call_of_ends hends).symm.trans h
    exact hends
  · exact call_of_ends

inductive Follows : Store (Ciphertext E) → Entropy → List (Call E) → List (Reply E) →
    Store (Ciphertext E) → Entropy → Prop
  | nil (s : Store (Ciphertext E)) (e : Entropy) : Follows s e [] [] s e
  | cons {s s₁ s' : Store (Ciphertext E)} {e e₁ e' : Entropy} {call : Call E} {calls : List (Call E)}
    {reply : Reply E} {replies : List (Reply E)} (first : call.Ends s e reply s₁ e₁)
    (rest : Follows s₁ e₁ calls replies s' e') : Follows s e (call :: calls) (reply :: replies) s' e'

theorem session_cons {s₁ : Store (Ciphertext E)} {e₁ : Entropy} (h : s.call call e = ((s₁, reply), e₁))
    (calls : List (Call E)) :
    s.session (call :: calls) e =
      (((s₁.session calls e₁).1.1, reply :: (s₁.session calls e₁).1.2), (s₁.session calls e₁).2) := by
  rw [session]
  change StateT.bind (s.call call) _ e = _
  simp only [StateT.bind, h]
  rfl

theorem session_refines_schemes (s : Store (Ciphertext E)) (e : Entropy) (calls : List (Call E))
    (s' : Store (Ciphertext E)) (replies : List (Reply E)) (e' : Entropy) :
    s.session calls e = ((s', replies), e') ↔ Follows s e calls replies s' e' := by
  induction calls generalizing s e replies with
  | nil =>
    constructor
    · intro h
      cases h
      exact .nil _ _
    · intro h
      cases h
      rfl
  | cons call calls ih =>
    constructor
    · intro h
      rcases hcall : s.call call e with ⟨⟨s₁, reply⟩, e₁⟩
      rw [session_cons hcall] at h
      cases h
      exact .cons (call_eq_iff.mp hcall) ((ih ..).mp rfl)
    · intro h
      cases h with
      | cons first rest => rw [session_cons (call_eq_iff.mpr first), (ih ..).mpr rest]

end Store

end Homomorphic
