import Homomorphic.Proofs.Draw

namespace Homomorphic

namespace Entropy

def advance (e : Entropy) (count : ℕ) : Entropy := { e with used := e.used + count }

theorem advance_advance (e : Entropy) (i j : ℕ) : (e.advance i).advance j = e.advance (i + j) := by
  simp only [advance, Nat.add_assoc]

theorem eq_of_advance_eq {e : Entropy} {i j : ℕ} (h : e.advance i = e.advance j) : i = j :=
  Nat.add_left_cancel (congrArg used h)

theorem length_next (e : Entropy) (count : ℕ) : (e.next count).length = count := by
  simp [next]

theorem next_add (e : Entropy) (i j : ℕ) : e.next (i + j) = e.next i ++ (e.advance i).next j := by
  simp [next, advance, List.range_add, Function.comp_def, Nat.add_assoc]

theorem next_ofBytes (bytes : Bytes) : (ofBytes bytes).next bytes.length = bytes := by
  apply List.ext_getElem (length_next _ _)
  intro i _ hi
  simp [next, ofBytes, ofStream, List.getElem?_eq_getElem hi]

theorem next_ofBytes_append (s t : Bytes) : (ofBytes (s ++ t)).next s.length = s := by
  have hnext := next_ofBytes (s ++ t)
  rw [List.length_append, next_add] at hnext
  exact (List.append_inj hnext (length_next _ _)).1

end Entropy

namespace Draw

variable {α β : Type} {d : Draw α} {f : α → Draw β} {a : α} {b : β} {bytes s t : Bytes}
  {e e' : Entropy}

/-- On every stream that goes on with these bytes the draw takes just them, and ends so. -/
def Takes (d : Draw α) (bytes : Bytes) (result : Except Error α) : Prop :=
  ∀ e : Entropy, e.next bytes.length = bytes → d.outcome e = (result, e.advance bytes.length)

def Forward (d : Draw α) : Prop := ∀ e, ∃ count, d.Takes (e.next count) (d.outcome e).1

theorem Takes.unique {r r' : Except Error α} (h : d.Takes s r) (h' : d.Takes t r')
    (hs : e.next s.length = s) (ht : e.next t.length = t) : s = t ∧ r = r' := by
  have heq := (h e hs).symm.trans (h' e ht)
  obtain ⟨hr, hadvance⟩ := Prod.mk.inj heq
  exact ⟨by rw [← hs, ← ht, Entropy.eq_of_advance_eq hadvance], hr⟩

theorem Takes.eq_of_append {r r' : Except Error α} {s' t' : Bytes} (h : d.Takes s r)
    (h' : d.Takes s' r') (heq : s ++ t = s' ++ t') : s = s' ∧ t = t' ∧ r = r' := by
  obtain ⟨rfl, hr⟩ :=
    h.unique h' (Entropy.next_ofBytes_append s t) (heq ▸ Entropy.next_ofBytes_append s' t')
  exact ⟨rfl, List.append_cancel_left heq, hr⟩

theorem Forward.outcome_eq_iff (hd : d.Forward) {r : Except Error α} :
    d.outcome e = (r, e') ↔
      ∃ bytes, d.Takes bytes r ∧ e.next bytes.length = bytes ∧ e' = e.advance bytes.length := by
  constructor
  · intro h
    obtain ⟨count, htakes⟩ := hd e
    have hnext : e.next (e.next count).length = e.next count := by rw [Entropy.length_next]
    have hend := htakes e hnext
    rw [h] at htakes hend
    exact ⟨_, htakes, hnext, (Prod.mk.inj hend).2⟩
  · rintro ⟨bytes, htakes, hnext, rfl⟩
    exact htakes e hnext

theorem takes_pure (a : α) : (pure a : Draw α).Takes [] (.ok a) := fun _ _ => rfl

theorem takes_throw (error : Error) : (throw error : Draw α).Takes [] (.error error) := fun _ _ => rfl

theorem forward_pure (a : α) : (pure a : Draw α).Forward := fun _ => ⟨0, takes_pure a⟩

theorem forward_throw (error : Error) : (throw error : Draw α).Forward :=
  fun _ => ⟨0, takes_throw error⟩

theorem takes_take (bytes : Bytes) : (Entropy.take bytes.length).Takes bytes (.ok bytes) := by
  intro e hnext
  rw [outcome_take, hnext]
  rfl

theorem forward_take (count : ℕ) : (Entropy.take count).Forward := by
  intro e
  refine ⟨count, ?_⟩
  have htakes := takes_take (e.next count)
  rwa [Entropy.length_next] at htakes

theorem Takes.bind {r : Except Error β} (hd : d.Takes s (.ok a)) (hf : (f a).Takes t r) :
    (d >>= f).Takes (s ++ t) r := by
  intro e hnext
  rw [List.length_append, Entropy.next_add] at hnext
  obtain ⟨hs, ht⟩ := List.append_inj hnext (Entropy.length_next _ _)
  rw [outcome_bind_of_ok f (hd e hs), hf _ ht, Entropy.advance_advance, List.length_append]

theorem Takes.bind_error {error : Error} (hd : d.Takes s (.error error)) :
    (d >>= f).Takes s (.error error) :=
  fun e hnext => outcome_bind_of_error f (hd e hnext)

theorem Forward.bind (hd : d.Forward) (hf : ∀ a, (f a).Forward) : (d >>= f).Forward := by
  intro e
  obtain ⟨i, hi⟩ := hd e
  have hstart := hi e (by rw [Entropy.length_next])
  rw [Entropy.length_next] at hstart
  rcases hr : (d.outcome e).1 with error | a
  · rw [hr] at hi hstart
    rw [outcome_bind_of_error f hstart]
    exact ⟨i, hi.bind_error⟩
  · rw [hr] at hi hstart
    obtain ⟨j, hj⟩ := hf a (e.advance i)
    rw [outcome_bind_of_ok f hstart]
    refine ⟨i + j, ?_⟩
    rw [Entropy.next_add]
    exact hi.bind hj

theorem takes_bind_ok_iff (hd : d.Forward) (hf : ∀ a, (f a).Forward) :
    (d >>= f).Takes bytes (.ok b) ↔
      ∃ a s t, bytes = s ++ t ∧ d.Takes s (.ok a) ∧ (f a).Takes t (.ok b) := by
  constructor
  · intro h
    -- A stream that starts with the bytes shows which of them each of the two draws takes.
    have hnext := Entropy.next_ofBytes bytes
    obtain ⟨a, e₁, hfirst, hsecond⟩ := outcome_bind_eq_ok.mp (h _ hnext)
    obtain ⟨s, hs, hsnext, rfl⟩ := hd.outcome_eq_iff.mp hfirst
    obtain ⟨t, ht, htnext, -⟩ := (hf a).outcome_eq_iff.mp hsecond
    have hboth : (Entropy.ofBytes bytes).next (s ++ t).length = s ++ t := by
      rw [List.length_append, Entropy.next_add, hsnext, htnext]
    exact ⟨a, s, t, (h.unique (hs.bind ht) hnext hboth).1, hs, ht⟩
  · rintro ⟨a, s, t, rfl, hs, ht⟩
    exact hs.bind ht

theorem takes_pure_ok_iff {a' : α} :
    (pure a : Draw α).Takes bytes (.ok a') ↔ bytes = [] ∧ a = a' := by
  constructor
  · intro h
    obtain ⟨hbytes, hvalue⟩ := h.unique (takes_pure a) (Entropy.next_ofBytes bytes) rfl
    cases hvalue
    exact ⟨hbytes, rfl⟩
  · rintro ⟨rfl, rfl⟩
    exact takes_pure a

section Retry

variable {attempt : Draw (Option α)} {failure : Error} {n : ℕ}

theorem retry_succ (attempt : Draw (Option α)) (failure : Error) (n : ℕ) :
    retry attempt failure (n + 1) = attempt >>= fun x => x.elim (retry attempt failure n) pure := by
  rw [retry]
  congr 1
  funext x
  cases x <;> rfl

theorem Forward.elim (hd : d.Forward) (x : Option α) : (x.elim d pure).Forward := by
  cases x with
  | none => exact hd
  | some a => exact forward_pure a

theorem Forward.retry (h : attempt.Forward) (failure : Error) (n : ℕ) :
    (retry attempt failure n).Forward := by
  induction n with
  | zero => exact forward_throw failure
  | succ n ih =>
    rw [retry_succ]
    exact h.bind ih.elim

theorem takes_retry_succ_iff (h : attempt.Forward) :
    (retry attempt failure (n + 1)).Takes bytes (.ok a) ↔
      attempt.Takes bytes (.ok (some a)) ∨
        ∃ s t, bytes = s ++ t ∧ attempt.Takes s (.ok none) ∧
          (retry attempt failure n).Takes t (.ok a) := by
  rw [retry_succ, takes_bind_ok_iff h (h.retry failure n).elim]
  constructor
  · rintro ⟨_ | a', s, t, rfl, hs, ht⟩
    · exact .inr ⟨s, t, rfl, hs, ht⟩
    · obtain ⟨rfl, rfl⟩ := takes_pure_ok_iff.mp ht
      rw [List.append_nil]
      exact .inl hs
  · rintro (h | ⟨s, t, rfl, hs, ht⟩)
    · exact ⟨some a, bytes, [], (List.append_nil bytes).symm, h, takes_pure a⟩
    · exact ⟨none, s, t, rfl, hs, ht⟩

end Retry

end Draw

end Homomorphic
