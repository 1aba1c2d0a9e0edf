import Homomorphic.Proofs.Runs

namespace Homomorphic

variable {κ τ : Type} {P : κ → Prop} {ops : Operations κ}

structure Operations.Preserves (ops : Operations κ) (P : κ → Prop) : Prop where
  encryptWith {m : ℤ} {r : ℕ} {c} (h : ops.encryptWith m r = .ok c) : P c
  add {a b c} (ha : P a) (hb : P b) (h : ops.add a b = .ok c) : P c
  sub {a b c} (ha : P a) (hb : P b) (h : ops.sub a b = .ok c) : P c
  negate {a c} (ha : P a) (h : ops.negate a = .ok c) : P c
  addPlain {a c} {m : ℤ} (ha : P a) (h : ops.addPlain a m = .ok c) : P c
  mul {a c} {k : ℤ} (ha : P a) (h : ops.mul a k = .ok c) : P c
  blind {a c} {r : ℕ} (ha : P a) (h : ops.blind a r = .ok c) : P c

def Store.All (P : κ → Prop) (s : Store κ) : Prop := ∀ name c, s.find? name = some c → P c

namespace Store

variable {s : Store κ}

theorem all_empty : All P (empty : Store κ) := by
  intro name c h
  cases h

theorem All.insert (hs : All P s) (name : String) {c : κ} (hc : P c) : All P (s.insert name c) := by
  intro x c' h
  rw [find?_insert] at h
  by_cases hx : x = name
  · rw [if_pos hx] at h
    cases h
    exact hc
  · rw [if_neg hx] at h
    exact hs x c' h

end Store

namespace Operations.Preserves

open Store

theorem of_true (ops : Operations κ) : ops.Preserves fun _ => True := by
  constructor <;> intros <;> trivial

theorem congr {Q : κ → Prop} (h : ops.Preserves P) (hPQ : ∀ c, P c ↔ Q c) : ops.Preserves Q := by
  rwa [← funext fun c => propext (hPQ c)]

theorem perform (h : ops.Preserves P) {op : Operation κ} (hop : ∀ a ∈ op.operands, P a) {c : κ}
    {e e' : Entropy} (hc : (ops.perform op).outcome e = (.ok c, e')) : P c := by
  have result {x : Except Error κ} {e : Entropy}
      (hx : (liftM x : Draw κ).outcome e = (.ok c, e')) : x = .ok c := by
    rw [Draw.outcome_lift] at hx
    exact congrArg Prod.fst hx
  cases op with
  | encrypt m =>
    obtain ⟨r, e₁, -, hc⟩ := Draw.outcome_bind_eq_ok.mp hc
    exact h.encryptWith (result hc)
  | encryptWith m r => exact h.encryptWith (result hc)
  | add a b =>
    have hb : P b := hop b (List.mem_cons_of_mem a List.mem_cons_self)
    exact h.add (hop a List.mem_cons_self) hb (result hc)
  | sub a b =>
    have hb : P b := hop b (List.mem_cons_of_mem a List.mem_cons_self)
    exact h.sub (hop a List.mem_cons_self) hb (result hc)
  | negate a => exact h.negate (hop a List.mem_cons_self) (result hc)
  | addPlain a m => exact h.addPlain (hop a List.mem_cons_self) (result hc)
  | subPlain a m => exact h.addPlain (hop a List.mem_cons_self) (result hc)
  | mul a k => exact h.mul (hop a List.mem_cons_self) (result hc)
  | randomize a =>
    obtain ⟨-, e₁, -, hc⟩ := Draw.outcome_bind_eq_ok.mp hc
    obtain ⟨r, e₂, -, hc⟩ := Draw.outcome_bind_eq_ok.mp hc
    exact h.blind (hop a List.mem_cons_self) (result hc)

theorem step (h : ops.Preserves P) {s : Store κ} (hs : All P s) (step : Step) (e : Entropy) :
    All P (s.step ops step e).1.1 := by
  rcases hop : step.operation.mapM? s.find? with _ | op
  · rw [step_of_missing hop]
    exact hs
  have hoperands : ∀ a ∈ op.operands, P a := by
    intro a ha
    obtain ⟨name, hname⟩ := Operation.exists_of_mem_operands hop ha
    exact hs name a hname
  rw [step_of_operation hop]
  rcases hc : (ops.perform op).outcome e with ⟨error | c, e'⟩
  · exact hs
  · exact hs.insert step.target (h.perform hoperands hc)

theorem run (h : ops.Preserves P) {s : Store κ} (hs : All P s) (steps : List Step) (e : Entropy) :
    All P (after ops s steps e) := by
  induction steps generalizing s e with
  | nil => exact hs
  | cons first rest ih =>
    rw [after, run_cons]
    exact ih (h.step hs first e) _

theorem lift (h : ops.Preserves P) {wrap : κ → τ} {unwrap : τ → Except Error κ}
    (hwrap : ∀ c, unwrap (wrap c) = .ok c) :
    (ops.lift wrap unwrap).Preserves fun t => ∃ c, t = wrap c ∧ P c := by
  have result {x : Except Error κ} {t : τ} (hx : (x >>= fun c => pure (wrap c)) = .ok t)
      (hP : ∀ c, x = .ok c → P c) : ∃ c, t = wrap c ∧ P c := by
    obtain ⟨c, hc, ht⟩ := bind_eq_ok.mp hx
    exact ⟨c, (Except.ok.inj ht).symm, hP c hc⟩
  have unwrapped {c : κ} {β : Type} {f : κ → Except Error β} {b : β}
      (hx : (unwrap (wrap c) >>= f) = .ok b) : f c = .ok b := by
    rw [hwrap] at hx
    exact hx
  constructor
  case encryptWith =>
    intro m r t ht
    exact result ht fun c => h.encryptWith
  case add =>
    rintro _ _ t ⟨a, rfl, ha⟩ ⟨b, rfl, hb⟩ ht
    exact result (unwrapped (unwrapped ht)) fun c => h.add ha hb
  case sub =>
    rintro _ _ t ⟨a, rfl, ha⟩ ⟨b, rfl, hb⟩ ht
    exact result (unwrapped (unwrapped ht)) fun c => h.sub ha hb
  case negate =>
    rintro _ t ⟨a, rfl, ha⟩ ht
    exact result (unwrapped ht) fun c => h.negate ha
  case addPlain =>
    rintro _ t m ⟨a, rfl, ha⟩ ht
    exact result (unwrapped ht) fun c => h.addPlain ha
  case mul =>
    rintro _ t k ⟨a, rfl, ha⟩ ht
    exact result (unwrapped ht) fun c => h.mul ha
  case blind =>
    rintro _ t r ⟨a, rfl, ha⟩ ht
    exact result (unwrapped ht) fun c => h.blind ha

end Operations.Preserves

theorem Operations.Simulates.preserves {bound : ℕ} {R : κ → ℤ → Prop} (h : ops.Simulates bound R) :
    ops.Preserves fun c => ∃ v, R c v := by
  have related {x : Except Error κ} {c : κ} {v : ℤ} (hx : ∃ c, x = .ok c ∧ R c v)
      (hc : x = .ok c) : ∃ v, R c v := by
    obtain ⟨c', rfl, hR⟩ := hx
    cases hc
    exact ⟨v, hR⟩
  have refused {x : Except Error κ} {c : κ} (hx : ∃ fault, x = .error (.domain fault))
      (hc : x = .ok c) : ∃ v, R c v := by
    obtain ⟨fault, rfl⟩ := hx
    cases hc
  constructor
  case encryptWith =>
    intro m r c hc
    rcases Nat.lt_or_ge bound m.natAbs with hm | hm
    · exact refused (h.encryptWith_beyond hm r) hc
    · exact related (h.encryptWith hm r) hc
  case add =>
    rintro a b c ⟨v, ha⟩ ⟨w, hb⟩ hc
    exact related (h.add ha hb) hc
  case sub =>
    rintro a b c ⟨v, ha⟩ ⟨w, hb⟩ hc
    exact related (h.sub ha hb) hc
  case negate =>
    rintro a c ⟨v, ha⟩ hc
    exact related (h.negate ha) hc
  case addPlain =>
    rintro a c m ⟨v, ha⟩ hc
    rcases Nat.lt_or_ge bound m.natAbs with hm | hm
    · exact refused (h.addPlain_beyond ha hm) hc
    · exact related (h.addPlain ha hm) hc
  case mul =>
    rintro a c k ⟨v, ha⟩ hc
    rcases Nat.lt_or_ge bound k.natAbs with hk | hk
    · exact refused (h.mul_beyond ha hk) hc
    · exact related (h.mul ha hk) hc
  case blind =>
    rintro a c r ⟨v, ha⟩ hc
    exact related (h.blind ha r) hc

end Homomorphic
