import Homomorphic.Program
import Homomorphic.Proofs.Draw

namespace Homomorphic

variable {α β κ : Type}

namespace Operation

def magnitude : Operation α → ℕ
  | .encrypt m | .encryptWith m _ | .addPlain _ m | .subPlain _ m | .mul _ m => m.natAbs
  | .add _ _ | .sub _ _ | .negate _ | .randomize _ => 0

def operands : Operation α → List α
  | .encrypt _ | .encryptWith _ _ => []
  | .add a b | .sub a b => [a, b]
  | .negate a | .addPlain a _ | .subPlain a _ | .mul a _ | .randomize a => [a]

inductive Related (R : α → β → Prop) : Operation α → Operation β → Prop
  | encrypt (m : ℤ) : Related R (.encrypt m) (.encrypt m)
  | encryptWith (m : ℤ) (r : ℕ) : Related R (.encryptWith m r) (.encryptWith m r)
  | add {a b a' b'} (ha : R a a') (hb : R b b') : Related R (.add a b) (.add a' b')
  | sub {a b a' b'} (ha : R a a') (hb : R b b') : Related R (.sub a b) (.sub a' b')
  | negate {a a'} (ha : R a a') : Related R (.negate a) (.negate a')
  | addPlain {a a'} (ha : R a a') (m : ℤ) : Related R (.addPlain a m) (.addPlain a' m)
  | subPlain {a a'} (ha : R a a') (m : ℤ) : Related R (.subPlain a m) (.subPlain a' m)
  | mul {a a'} (ha : R a a') (k : ℤ) : Related R (.mul a k) (.mul a' k)
  | randomize {a a'} (ha : R a a') : Related R (.randomize a) (.randomize a')

theorem related_mapM? {γ : Type} {R : α → β → Prop} {f : γ → Option α} {g : γ → Option β}
    (h : ∀ x, Option.Rel R (f x) (g x)) (op : Operation γ) :
    Option.Rel (Related R) (op.mapM? f) (op.mapM? g) := by
  have unary (x : γ) {F : α → Operation α} {G : β → Operation β}
      (hFG : ∀ a b, R a b → Related R (F a) (G b)) :
      Option.Rel (Related R) (f x >>= fun a => some (F a)) (g x >>= fun b => some (G b)) := by
    have hx := h x
    generalize f x = y, g x = z at hx
    cases hx with
    | some hab => exact .some (hFG _ _ hab)
    | none => exact .none
  have binary (x y : γ) {F : α → α → Operation α} {G : β → β → Operation β}
      (hFG : ∀ a a' b b', R a b → R a' b' → Related R (F a a') (G b b')) :
      Option.Rel (Related R) (f x >>= fun a => f y >>= fun a' => some (F a a'))
        (g x >>= fun b => g y >>= fun b' => some (G b b')) := by
    have hx := h x
    have hy := h y
    generalize f x = y₁, g x = z₁ at hx
    generalize f y = y₂, g y = z₂ at hy
    cases hx with
    | none => exact .none
    | some hab =>
      cases hy with
      | none => exact .none
      | some hab' => exact .some (hFG _ _ _ _ hab hab')
  cases op with
  | encrypt m => exact .some (.encrypt m)
  | encryptWith m r => exact .some (.encryptWith m r)
  | add a b => exact binary a b fun _ _ _ _ ha hb => .add ha hb
  | sub a b => exact binary a b fun _ _ _ _ ha hb => .sub ha hb
  | negate a => exact unary a fun _ _ ha => .negate ha
  | addPlain a m => exact unary a fun _ _ ha => .addPlain ha m
  | subPlain a m => exact unary a fun _ _ ha => .subPlain ha m
  | mul a k => exact unary a fun _ _ ha => .mul ha k
  | randomize a => exact unary a fun _ _ ha => .randomize ha

theorem Related.magnitude_eq {R : α → β → Prop} {op : Operation α} {op' : Operation β}
    (h : Related R op op') : op.magnitude = op'.magnitude := by
  cases h <;> rfl

theorem Related.exists_of_mem_operands {R : α → β → Prop} {op : Operation α} {op' : Operation β}
    (h : Related R op op') {a : α} (ha : a ∈ op.operands) : ∃ b, R a b := by
  cases h with
  | encrypt | encryptWith => exact absurd ha List.not_mem_nil
  | add h₁ h₂ | sub h₁ h₂ =>
    rcases List.mem_pair.mp ha with rfl | rfl
    · exact ⟨_, h₁⟩
    · exact ⟨_, h₂⟩
  | negate h₁ | addPlain h₁ | subPlain h₁ | mul h₁ | randomize h₁ =>
    obtain rfl := List.mem_singleton.mp ha
    exact ⟨_, h₁⟩

theorem exists_related {R : α → β → Prop} {op : Operation α}
    (h : ∀ a ∈ op.operands, ∃ b, R a b) : ∃ op' : Operation β, op.Related R op' := by
  cases op with
  | encrypt m => exact ⟨_, .encrypt m⟩
  | encryptWith m r => exact ⟨_, .encryptWith m r⟩
  | add a b =>
    obtain ⟨⟨c, hc⟩, hb⟩ := List.forall_mem_cons.mp h
    obtain ⟨d, hd⟩ := List.forall_mem_singleton.mp hb
    exact ⟨_, .add hc hd⟩
  | sub a b =>
    obtain ⟨⟨c, hc⟩, hb⟩ := List.forall_mem_cons.mp h
    obtain ⟨d, hd⟩ := List.forall_mem_singleton.mp hb
    exact ⟨_, .sub hc hd⟩
  | negate a =>
    obtain ⟨c, hc⟩ := List.forall_mem_singleton.mp h
    exact ⟨_, .negate hc⟩
  | addPlain a m =>
    obtain ⟨c, hc⟩ := List.forall_mem_singleton.mp h
    exact ⟨_, .addPlain hc m⟩
  | subPlain a m =>
    obtain ⟨c, hc⟩ := List.forall_mem_singleton.mp h
    exact ⟨_, .subPlain hc m⟩
  | mul a k =>
    obtain ⟨c, hc⟩ := List.forall_mem_singleton.mp h
    exact ⟨_, .mul hc k⟩
  | randomize a =>
    obtain ⟨c, hc⟩ := List.forall_mem_singleton.mp h
    exact ⟨_, .randomize hc⟩

theorem mapM?_eq_none_iff {f : α → Option β} {op : Operation α} :
    op.mapM? f = none ↔ ∃ a ∈ op.operands, f a = none := by
  cases op with
  | encrypt m | encryptWith m r => simp [mapM?, operands]
  | add a b | sub a b =>
    cases ha : f a <;> cases hb : f b <;> simp [mapM?, operands, ha, hb]
  | negate a | addPlain a m | subPlain a m | mul a k | randomize a =>
    cases ha : f a <;> simp [mapM?, operands, ha]

theorem operands_of_mapM? {f : α → Option β} {op : Operation α} {op' : Operation β}
    (h : op.mapM? f = some op') :
    op'.operands = op.operands.filterMap f := by
  cases op <;> simp only [mapM?, Option.bind_eq_bind, Option.pure_def, Option.bind_eq_some_iff,
    Option.some.injEq] at h
  case encrypt | encryptWith =>
    subst h
    rfl
  case add | sub =>
    obtain ⟨a, ha, b, hb, rfl⟩ := h
    simp only [operands, List.filterMap_cons, ha, hb, List.filterMap_nil]
  all_goals
    obtain ⟨a, ha, rfl⟩ := h
    simp only [operands, List.filterMap_cons, ha, List.filterMap_nil]

theorem exists_of_mem_operands {f : α → Option β} {op : Operation α} {op' : Operation β}
    (h : op.mapM? f = some op') {b : β} (hb : b ∈ op'.operands) : ∃ a, f a = some b := by
  rw [operands_of_mapM? h, List.mem_filterMap] at hb
  obtain ⟨a, -, ha⟩ := hb
  exact ⟨a, ha⟩

theorem magnitude_of_mapM? {f : α → Option β} {op : Operation α} {op' : Operation β}
    (h : op.mapM? f = some op') : op'.magnitude = op.magnitude := by
  cases op <;> simp only [mapM?, Option.bind_eq_bind, Option.pure_def, Option.bind_eq_some_iff,
    Option.some.injEq] at h
  case encrypt | encryptWith => subst h; rfl
  case add | sub => obtain ⟨_, _, _, _, rfl⟩ := h; rfl
  all_goals obtain ⟨_, _, rfl⟩ := h; rfl

end Operation

namespace Store

theorem find?_insert (s : Store κ) (name : String) (value : κ) (x : String) :
    (s.insert name value).find? x = if x = name then some value else s.find? x := by
  have hfilter (entries : List (String × κ)) (hx : x ≠ name) :
      (entries.filter fun entry => entry.1 != name).lookup x = entries.lookup x := by
    induction entries with
    | nil => rfl
    | cons entry rest ih =>
      obtain ⟨k, v⟩ := entry
      by_cases hk : k = name
      · have hne : (x == k) = false := by simpa [hk] using hx
        rw [List.filter_cons_of_neg (by simpa using hk), ih, List.lookup_cons, hne]
      · rw [List.filter_cons_of_pos (by simpa using hk), List.lookup_cons, List.lookup_cons, ih]
  by_cases hx : x = name
  · simp [find?, insert, hx]
  · have hne : (x == name) = false := by simpa using hx
    simp only [find?, insert, List.lookup_cons, hne, hfilter _ hx, if_neg hx]

def plainStep (bound : ℕ) (t : Store ℤ) (step : Step) : Store ℤ :=
  if step.operation.magnitude ≤ bound then
    match step.operation.mapM? t.find? with
    | some operation => t.insert step.target operation.value
    | none => t
  else t

def plainRun (bound : ℕ) (steps : List Step) : Store ℤ := steps.foldl (plainStep bound) empty

def after (ops : Operations κ) (s : Store κ) (steps : List Step) (e : Entropy) : Store κ :=
  (run ops s steps e).1.1

/-- How a step may end: with a domain error, just if the integer it is given is beyond the bound, and
with the store as it was; or with its result stored. -/
inductive Ends (bound : ℕ) (s : Store κ) (step : Step) : Store κ × Outcome κ → Prop
  | missing (h : step.operation.mapM? s.find? = none) : Ends bound s step (s, .missing)
  | rejected (h : bound < step.operation.magnitude) (fault : DomainFault) :
    Ends bound s step (s, .failed (.domain fault))
  | stored (h : step.operation.magnitude ≤ bound) (c : κ) :
    Ends bound s step (s.insert step.target c, .stored c)

theorem Ends.exists_stored {bound : ℕ} {s : Store κ} {step : Step} {result : Store κ × Outcome κ}
    (h : Ends bound s step result) {op : Operation κ} (hop : step.operation.mapM? s.find? = some op)
    (hm : step.operation.magnitude ≤ bound) :
    ∃ c, result = (s.insert step.target c, .stored c) := by
  cases h with
  | missing hmissing => exact absurd (hop.symm.trans hmissing) (Option.some_ne_none op)
  | rejected hlt => exact absurd hm (Nat.not_le_of_lt hlt)
  | stored _ c => exact ⟨c, rfl⟩

theorem Ends.exists_failed {bound : ℕ} {s : Store κ} {step : Step} {result : Store κ × Outcome κ}
    (h : Ends bound s step result) {op : Operation κ} (hop : step.operation.mapM? s.find? = some op)
    (hm : bound < step.operation.magnitude) : ∃ fault, result = (s, .failed (.domain fault)) := by
  cases h with
  | missing hmissing => exact absurd (hop.symm.trans hmissing) (Option.some_ne_none op)
  | rejected _ fault => exact ⟨fault, rfl⟩
  | stored hle => exact absurd hm (Nat.not_lt_of_le hle)

def Tracks (R : κ → ℤ → Prop) (s : Store κ) (t : Store ℤ) : Prop :=
  ∀ name, Option.Rel R (s.find? name) (t.find? name)

variable {R : κ → ℤ → Prop} {s : Store κ} {t : Store ℤ}

theorem tracks_empty : Tracks R empty empty := fun _ => .none

theorem Tracks.insert (h : Tracks R s t) (name : String) {c : κ} {v : ℤ} (hcv : R c v) :
    Tracks R (s.insert name c) (t.insert name v) := by
  intro x
  rw [find?_insert, find?_insert]
  by_cases hx : x = name
  · simpa [hx] using Option.Rel.some hcv
  · simpa [hx] using h x

theorem Tracks.mono {R' : κ → ℤ → Prop} (h : Tracks R s t) (hR : ∀ c v, R c v → R' c v) :
    Tracks R' s t := by
  intro x
  have hx := h x
  generalize s.find? x = y, t.find? x = z at hx
  cases hx with
  | some hcv => exact .some (hR _ _ hcv)
  | none => exact .none

theorem Tracks.exists_of_find? (h : Tracks R s t) {name : String} {v : ℤ}
    (hv : t.find? name = some v) : ∃ c, s.find? name = some c ∧ R c v := by
  have hname := h name
  rw [hv] at hname
  generalize s.find? name = found at hname
  cases hname with
  | @some c _ hc => exact ⟨c, rfl, hc⟩

theorem Tracks.exists_value (h : Tracks R s t) {name : String} {c : κ}
    (hc : s.find? name = some c) : ∃ v, t.find? name = some v ∧ R c v := by
  have hname := h name
  rw [hc] at hname
  generalize t.find? name = found at hname
  cases hname with
  | @some _ v hv => exact ⟨v, rfl, hv⟩

theorem step_of_missing {ops : Operations κ} {step : Step} {e : Entropy}
    (h : step.operation.mapM? s.find? = none) : s.step ops step e = ((s, .missing), e) := by
  rw [Store.step, h]
  rfl

theorem step_of_operation {ops : Operations κ} {step : Step} {e : Entropy} {op : Operation κ}
    (h : step.operation.mapM? s.find? = some op) :
    s.step ops step e =
      match (ops.perform op).outcome e with
      | (.ok c, e') => ((s.insert step.target c, .stored c), e')
      | (.error error, e') => ((s, .failed error), e') := by
  rw [Store.step, h]
  change StateT.bind (ops.perform op).run _ e = _
  simp only [StateT.bind, Draw.outcome]
  rcases (ops.perform op).run e with ⟨_ | _, _⟩ <;> rfl

theorem run_cons (ops : Operations κ) (s : Store κ) (first : Step) (rest : List Step) (e : Entropy) :
    (run ops s (first :: rest) e).1.1 =
      (run ops (s.step ops first e).1.1 rest (s.step ops first e).2).1.1 := rfl

end Store

structure Operations.Refuses (ops : Operations κ) (bound : ℕ) (P : κ → Prop) (Q : Error → Prop) :
    Prop where
  draw (e : Entropy) : ∃ r e', ops.draw.outcome e = (.ok r, e')
  encryptWith {m : ℤ} (hm : bound < m.natAbs) (r : ℕ) :
    ∃ error, ops.encryptWith m r = .error error ∧ Q error
  addPlain {a} (ha : P a) {m : ℤ} (hm : bound < m.natAbs) :
    ∃ error, ops.addPlain a m = .error error ∧ Q error
  mul {a} (ha : P a) {k : ℤ} (hk : bound < k.natAbs) :
    ∃ error, ops.mul a k = .error error ∧ Q error

theorem Operations.Refuses.perform {ops : Operations κ} {bound : ℕ} {P : κ → Prop}
    {Q : Error → Prop} (h : ops.Refuses bound P Q) {op : Operation κ} (hop : ∀ a ∈ op.operands, P a)
    (hm : bound < op.magnitude) (e : Entropy) :
    ∃ error e', (ops.perform op).outcome e = (.error error, e') ∧ Q error := by
  have pure {x : Except Error κ} (hx : ∃ error, x = .error error ∧ Q error) :
      ∃ error e', (liftM x : Draw κ).outcome e = (.error error, e') ∧ Q error := by
    obtain ⟨error, rfl, herror⟩ := hx
    exact ⟨error, e, rfl, herror⟩
  cases op with
  | encrypt m =>
    obtain ⟨r, e', hr⟩ := h.draw e
    obtain ⟨error, hc, herror⟩ := h.encryptWith hm r
    refine ⟨error, e', ?_, herror⟩
    rw [Operations.perform, Operations.encrypt, Draw.outcome_bind_of_ok _ hr, hc]
    rfl
  | encryptWith m r => exact pure (h.encryptWith hm r)
  | addPlain a m => exact pure (h.addPlain (hop a List.mem_cons_self) hm)
  | subPlain a m =>
    have hneg : bound < (-m).natAbs := by rwa [Int.natAbs_neg]
    exact pure (h.addPlain (hop a List.mem_cons_self) hneg)
  | mul a k => exact pure (h.mul (hop a List.mem_cons_self) hm)
  | add | sub | negate | randomize => exact absurd hm (Nat.not_lt_zero bound)

/-- On ciphertexts that are related to integers the operations give ciphertexts that are related to
what the same operations give on the integers, up to integers beyond the bound. -/
structure Operations.Simulates (ops : Operations κ) (bound : ℕ) (R : κ → ℤ → Prop) : Prop where
  draw (e : Entropy) : ∃ r e', ops.draw.outcome e = (.ok r, e')
  check {a v} (ha : R a v) : ops.check a = .ok ()
  encryptWith {m : ℤ} (hm : m.natAbs ≤ bound) (r : ℕ) : ∃ c, ops.encryptWith m r = .ok c ∧ R c m
  encryptWith_beyond {m : ℤ} (hm : bound < m.natAbs) (r : ℕ) :
    ∃ fault, ops.encryptWith m r = .error (.domain fault)
  add {a b v w} (ha : R a v) (hb : R b w) : ∃ c, ops.add a b = .ok c ∧ R c (v + w)
  sub {a b v w} (ha : R a v) (hb : R b w) : ∃ c, ops.sub a b = .ok c ∧ R c (v - w)
  negate {a v} (ha : R a v) : ∃ c, ops.negate a = .ok c ∧ R c (-v)
  addPlain {a v} {m : ℤ} (ha : R a v) (hm : m.natAbs ≤ bound) :
    ∃ c, ops.addPlain a m = .ok c ∧ R c (v + m)
  addPlain_beyond {a v} {m : ℤ} (ha : R a v) (hm : bound < m.natAbs) :
    ∃ fault, ops.addPlain a m = .error (.domain fault)
  mul {a v} {k : ℤ} (ha : R a v) (hk : k.natAbs ≤ bound) : ∃ c, ops.mul a k = .ok c ∧ R c (k * v)
  mul_beyond {a v} {k : ℤ} (ha : R a v) (hk : bound < k.natAbs) :
    ∃ fault, ops.mul a k = .error (.domain fault)
  blind {a v} (ha : R a v) (r : ℕ) : ∃ c, ops.blind a r = .ok c ∧ R c v

namespace Operations.Simulates

open Operation Store

variable {ops : Operations κ} {bound : ℕ} {R : κ → ℤ → Prop}

theorem perform (h : ops.Simulates bound R) {op : Operation κ} {op' : Operation ℤ}
    (hrel : Related R op op') (hm : op'.magnitude ≤ bound) (e : Entropy) :
    ∃ c e', (ops.perform op).outcome e = (.ok c, e') ∧ R c op'.value := by
  have pure {x : Except Error κ} {v : ℤ} (hx : ∃ c, x = .ok c ∧ R c v) :
      ∃ c e', (liftM x : Draw κ).outcome e = (.ok c, e') ∧ R c v := by
    obtain ⟨c, rfl, hc⟩ := hx
    exact ⟨c, e, rfl, hc⟩
  cases hrel with
  | encrypt m =>
    obtain ⟨r, e', hr⟩ := h.draw e
    obtain ⟨c, hc, hcm⟩ := h.encryptWith hm r
    refine ⟨c, e', ?_, hcm⟩
    rw [Operations.perform, Operations.encrypt, Draw.outcome_bind_of_ok _ hr, hc]
    rfl
  | encryptWith m r => exact pure (h.encryptWith hm r)
  | add ha hb => exact pure (h.add ha hb)
  | sub ha hb => exact pure (h.sub ha hb)
  | negate ha => exact pure (h.negate ha)
  | addPlain ha m => exact pure (h.addPlain ha hm)
  | subPlain ha m =>
    have hneg : (-m).natAbs ≤ bound := by rwa [Int.natAbs_neg]
    exact pure (h.addPlain ha hneg)
  | mul ha k => exact pure (h.mul ha hm)
  | @randomize a a' ha =>
    obtain ⟨r, e', hr⟩ := h.draw e
    obtain ⟨c, hc, hca⟩ := h.blind ha r
    refine ⟨c, e', ?_, hca⟩
    have hcheck : (liftM (ops.check a) : Draw Unit).outcome e = (.ok (), e) := by rw [h.check ha]; rfl
    rw [Operations.perform, Operations.randomize, Draw.outcome_bind_of_ok _ hcheck,
      Draw.outcome_bind_of_ok _ hr, hc]
    rfl

theorem refuses (h : ops.Simulates bound R) :
    ops.Refuses bound (fun a => ∃ v, R a v) (fun error => ∃ fault, error = .domain fault) where
  draw := h.draw
  encryptWith hm r := by
    obtain ⟨fault, hfault⟩ := h.encryptWith_beyond hm r
    exact ⟨_, hfault, fault, rfl⟩
  addPlain ha m hm := by
    obtain ⟨v, hv⟩ := ha
    obtain ⟨fault, hfault⟩ := h.addPlain_beyond hv hm
    exact ⟨_, hfault, fault, rfl⟩
  mul ha k hk := by
    obtain ⟨v, hv⟩ := ha
    obtain ⟨fault, hfault⟩ := h.mul_beyond hv hk
    exact ⟨_, hfault, fault, rfl⟩

theorem perform_beyond (h : ops.Simulates bound R) {op : Operation κ} {op' : Operation ℤ}
    (hrel : Related R op op') (hm : bound < op'.magnitude) (e : Entropy) :
    ∃ fault e', (ops.perform op).outcome e = (.error (.domain fault), e') := by
  obtain ⟨_, e', herror, fault, rfl⟩ :=
    h.refuses.perform (fun _ => hrel.exists_of_mem_operands) (hrel.magnitude_eq ▸ hm) e
  exact ⟨fault, e', herror⟩

theorem step (h : ops.Simulates bound R) {s : Store κ} {t : Store ℤ} (hst : Tracks R s t)
    (step : Step) (e : Entropy) :
    Tracks R (s.step ops step e).1.1 (t.plainStep bound step) ∧
      Ends bound s step (s.step ops step e).1 := by
  have hops := related_mapM? hst step.operation
  rcases hs : step.operation.mapM? s.find? with _ | op
  · rw [hs] at hops
    have ht : step.operation.mapM? t.find? = none := by
      generalize step.operation.mapM? t.find? = y at hops
      cases hops
      rfl
    rw [step_of_missing hs, plainStep, ht, ite_self]
    exact ⟨hst, .missing hs⟩
  · rw [hs] at hops
    obtain ⟨op', ht, hrel⟩ : ∃ op', step.operation.mapM? t.find? = some op' ∧ Related R op op' := by
      generalize step.operation.mapM? t.find? = y at hops
      cases hops with
      | some hrel => exact ⟨_, rfl, hrel⟩
    have hmagnitude := magnitude_of_mapM? ht
    rw [step_of_operation hs]
    by_cases hm : step.operation.magnitude ≤ bound
    · obtain ⟨c, e', hc, hR⟩ := h.perform hrel (hmagnitude ▸ hm) e
      rw [hc, plainStep, if_pos hm, ht]
      exact ⟨hst.insert _ hR, .stored hm c⟩
    · obtain ⟨fault, e', hf⟩ := h.perform_beyond hrel (hmagnitude ▸ Nat.lt_of_not_le hm) e
      rw [hf, plainStep, if_neg hm]
      exact ⟨hst, .rejected (Nat.lt_of_not_le hm) fault⟩

theorem run (h : ops.Simulates bound R) {s : Store κ} {t : Store ℤ} (hst : Tracks R s t)
    (steps : List Step) (e : Entropy) :
    Tracks R (after ops s steps e) (steps.foldl (plainStep bound) t) := by
  induction steps generalizing s t e with
  | nil => exact hst
  | cons first rest ih =>
    rw [after, run_cons, List.foldl_cons]
    exact ih (h.step hst first e).1 _

theorem run_empty (h : ops.Simulates bound R) (steps : List Step) (e : Entropy) :
    Tracks R (after ops empty steps e) (plainRun bound steps) ∧
      ∀ (next : Step) (e' : Entropy),
        Ends bound (after ops empty steps e) next ((after ops empty steps e).step ops next e').1 :=
  ⟨h.run tracks_empty steps e, fun next e' => (h.step (h.run tracks_empty steps e) next e').2⟩

theorem run_refuses (h : ops.Simulates bound R) {P : κ → Prop} {Q : Error → Prop}
    (hrefuses : ops.Refuses bound P Q) (hP : ∀ c v, R c v → P c) (steps : List Step) (e : Entropy) :
    let s := after ops empty steps e
    (∀ name c, s.find? name = some c → P c) ∧
      ∀ (next : Step) (e' : Entropy),
        let result := (s.step ops next e').1
        Ends bound s next result ∧ ∀ error, result.2 = .failed error → Q error := by
  intro s
  have hs : ∀ name c, s.find? name = some c → P c := by
    intro name c hc
    obtain ⟨v, -, hv⟩ := (h.run_empty steps e).1.exists_value hc
    exact hP c v hv
  refine ⟨hs, fun next e' => ?_⟩
  have hends : Ends bound s next (s.step ops next e').1 := (h.run_empty steps e).2 next e'
  refine ⟨hends, fun error herror => ?_⟩
  rcases hop : next.operation.mapM? s.find? with _ | op
  · rw [step_of_missing hop] at herror
    cases herror
  have hbeyond : bound < op.magnitude := by
    rw [magnitude_of_mapM? hop]
    generalize (s.step ops next e').1 = result at hends herror
    cases hends with
    | rejected hm => exact hm
    | missing | stored => cases herror
  have hoperands : ∀ a ∈ op.operands, P a := by
    intro a ha
    obtain ⟨name, hname⟩ := exists_of_mem_operands hop ha
    exact hs name a hname
  obtain ⟨error', e₁, hperform, hQ⟩ := hrefuses.perform hoperands hbeyond e'
  rw [step_of_operation hop, hperform] at herror
  cases herror
  exact hQ

end Operations.Simulates

end Homomorphic
