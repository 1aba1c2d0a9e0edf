import Homomorphic.Curve.Registry
import Homomorphic.Proofs.Outcome

namespace Homomorphic

variable {α β : Type}

theorem eq_iff_of_decode {encode : α → Except Error Bytes} (decode : Bytes → Except Error α)
    (h : ∀ {a : α} {x : Bytes}, encode a = .ok x → decode x = .ok a) {a b : α} {x y : Bytes}
    (ha : encode a = .ok x) (hb : encode b = .ok y) : x = y ↔ a = b := by
  constructor
  · rintro rfl
    exact Except.ok.inj ((h ha).symm.trans (h hb))
  · rintro rfl
    exact Except.ok.inj (ha.symm.trans hb)

instance : Subsingleton NamedCurve where
  allEq a b := by
    cases a
    cases b
    rfl

namespace Registry

variable {r r' : Registry} {c : NamedCurve}

theorem mem_enable (r : Registry) (c : NamedCurve) : c ∈ (r.enable c).enabled := by
  rw [enable]
  split
  · assumption
  · exact List.mem_cons_self

theorem enable_of_mem (h : c ∈ r.enabled) : r.enable c = r := by
  rw [enable, if_pos h]

theorem contains_iff {id : UInt64} :
    r.contains id = true ↔ ∃ c ∈ r.enabled, c.id = id := by
  simp only [contains, List.any_eq_true, decide_eq_true_eq]

theorem contains_of_mem (h : c ∈ r.enabled) : r.contains c.id = true := by
  rw [contains_iff]
  exact ⟨c, h, rfl⟩

theorem contains_enable {id : UInt64} :
    (r.enable c).contains id = true ↔ r.contains id = true ∨ c.id = id := by
  rw [contains_iff, contains_iff, enable]
  split
  · next hmem =>
    constructor
    · exact .inl
    · rintro (h | rfl)
      · exact h
      · exact ⟨c, hmem, rfl⟩
  · rw [List.exists_mem_cons_iff, or_comm]

theorem exists_lookup_of_contains {id : UInt64} (h : r.contains id = true) :
    ∃ c, r.lookup id = .ok c := by
  obtain ⟨c, hc, hid⟩ := contains_iff.mp h
  rw [lookup]
  cases hfound : r.enabled.find? (·.id = id) with
  | some found => exact ⟨found, rfl⟩
  | none => exact absurd (decide_eq_true hid) (List.find?_eq_none.mp hfound c hc)

theorem lookup_of_contains (h : r.contains c.id = true) : r.lookup c.id = .ok c := by
  obtain ⟨c', hc'⟩ := exists_lookup_of_contains h
  rw [hc', Subsingleton.elim c' c]

theorem lookup_of_not_contains {id : UInt64} (h : ¬ r.contains id = true) :
    r.lookup id = .error (.unknownCurve id) := by
  rw [lookup]
  split
  · next c hc =>
    have hid := List.find?_some hc
    exact absurd (contains_iff.mpr ⟨c, List.mem_of_find?_eq_some hc, of_decide_eq_true hid⟩) h
  · rfl

theorem lookup_eq_ok {id : UInt64} :
    r.lookup id = .ok c ↔ r.contains id = true ∧ c.id = id := by
  constructor
  · intro h
    by_cases hr : r.contains id = true
    · obtain ⟨c', -, hid⟩ := contains_iff.mp hr
      exact ⟨hr, Subsingleton.elim c' c ▸ hid⟩
    · rw [lookup_of_not_contains hr] at h
      cases h
  · rintro ⟨hr, rfl⟩
    exact lookup_of_contains hr

theorem lookup_congr {id : UInt64} (h : r.contains id = r'.contains id) :
    r.lookup id = r'.lookup id := by
  by_cases hr : r.contains id = true
  · obtain ⟨c, hc⟩ := exists_lookup_of_contains hr
    obtain ⟨c', hc'⟩ := exists_lookup_of_contains (h ▸ hr)
    rw [hc, hc', Subsingleton.elim c c']
  · rw [lookup_of_not_contains hr, lookup_of_not_contains (h ▸ hr)]

end Registry

namespace Loading

def outcome (l : Loading α) (r : Registry) : Except Error α × Registry := l.run r

theorem outcome_bind_of_ok {l : Loading α} {a : α} {r r' : Registry} (f : α → Loading β)
    (h : l.outcome r = (.ok a, r')) : (l >>= f).outcome r = (f a).outcome r' :=
  Stateful.outcome_bind_of_ok f h

theorem outcome_bind_of_error {l : Loading α} {error : Error} {r r' : Registry} (f : α → Loading β)
    (h : l.outcome r = (.error error, r')) : (l >>= f).outcome r = (.error error, r') :=
  Stateful.outcome_bind_of_error f h

theorem outcome_lift (x : Except Error α) (r : Registry) : (liftM x : Loading α).outcome r = (x, r) :=
  Stateful.outcome_lift x r

theorem outcome_lift_bind_of_ok {x : Except Error α} {a : α} (f : α → Loading β) (h : x = .ok a)
    (r : Registry) : ((liftM x : Loading α) >>= f).outcome r = (f a).outcome r := by
  rw [outcome_bind_of_ok f ((outcome_lift x r).trans (congrArg (·, r) h))]

theorem outcome_lift_bind_of_error {x : Except Error α} {error : Error} (f : α → Loading β)
    (h : x = .error error) (r : Registry) :
    ((liftM x : Loading α) >>= f).outcome r = (.error error, r) := by
  rw [outcome_bind_of_error f ((outcome_lift x r).trans (congrArg (·, r) h))]

theorem outcome_lift_bind_fst (x : Except Error α) (f : α → Loading β) (r : Registry) :
    (((liftM x : Loading α) >>= f).outcome r).1 = x >>= fun a => ((f a).outcome r).1 := by
  cases h : x with
  | error error =>
    rw [outcome_lift_bind_of_error f rfl]
    rfl
  | ok a =>
    rw [outcome_lift_bind_of_ok f rfl]
    rfl

theorem outcome_bind_eq_ok {l : Loading α} {f : α → Loading β} {b : β} {r r' : Registry} :
    (l >>= f).outcome r = (.ok b, r') ↔
      ∃ a r₁, l.outcome r = (.ok a, r₁) ∧ (f a).outcome r₁ = (.ok b, r') :=
  Stateful.outcome_bind_eq_ok

theorem outcome_lift_bind_eq_ok {x : Except Error α} {f : α → Loading β} {b : β} {r r' : Registry} :
    ((liftM x : Loading α) >>= f).outcome r = (.ok b, r') ↔
      ∃ a, x = .ok a ∧ (f a).outcome r = (.ok b, r') :=
  Stateful.outcome_lift_bind_eq_ok

theorem outcome_enable (c : NamedCurve) (r : Registry) :
    (enable c).outcome r = (.ok (), r.enable c) := rfl

theorem outcome_lookup (id : UInt64) (r : Registry) :
    (lookup id).outcome r = (r.lookup id, r) := by
  have hget : (get : Loading Registry).outcome r = (.ok r, r) := rfl
  rw [lookup, outcome_bind_of_ok _ hget]
  cases r.lookup id <;> rfl

end Loading

end Homomorphic
