namespace Homomorphic.Digits

def before (base n : Nat) (tail : List Nat) : List Nat :=
  if _h : n = 0 ∨ base < 2 then tail else before base (n / base) (n % base :: tail)
termination_by n
decreasing_by exact Nat.div_lt_self (by omega) (by omega)

def ofNat (base n : Nat) : List Nat := if n = 0 then [0] else before base n []

def toNat (base : Nat) (digits : List Nat) : Nat := digits.foldl (fun n d => base * n + d) 0

theorem foldl_before {base : Nat} (h : 1 < base) (n : Nat) (tail : List Nat) :
    (before base n tail).foldl (fun n d => base * n + d) 0
      = tail.foldl (fun n d => base * n + d) n := by
  fun_induction before base n tail with
  | case1 n tail hn => rw [show n = 0 by omega]
  | case2 n tail hn ih => rw [ih, List.foldl_cons, Nat.div_add_mod]

theorem toNat_ofNat {base : Nat} (h : 1 < base) (n : Nat) : toNat base (ofNat base n) = n := by
  unfold ofNat toNat
  split
  · simp_all
  · exact foldl_before h n []

theorem lt_of_mem_before {base : Nat} (n : Nat) (tail : List Nat)
    (h : ∀ d ∈ tail, d < base) : ∀ d ∈ before base n tail, d < base := by
  fun_induction before base n tail with
  | case1 => exact h
  | case2 n tail hn ih =>
    refine ih fun d hd => ?_
    rcases List.mem_cons.1 hd with rfl | hd
    · exact Nat.mod_lt _ (by omega)
    · exact h d hd

theorem lt_of_mem_ofNat {base : Nat} (h : 1 < base) (n : Nat) : ∀ d ∈ ofNat base n, d < base := by
  unfold ofNat
  split
  · simp
    omega
  · exact lt_of_mem_before n [] (by simp)

theorem before_eq_cons {base n : Nat} (hbase : 1 < base) (hn : n ≠ 0) (tail : List Nat) :
    ∃ first rest, before base n tail = first :: rest ∧ first ≠ 0 := by
  fun_induction before base n tail with
  | case1 n tail h => omega
  | case2 n tail h ih =>
    by_cases hlast : n / base = 0
    · have hsmall : n < base := (Nat.div_eq_zero_iff.1 hlast).resolve_left (by omega)
      rw [hlast, Nat.mod_eq_of_lt hsmall, before, dif_pos (.inl rfl)]
      exact ⟨n, tail, rfl, hn⟩
    · exact ih hlast

theorem ofNat_eq_cons {base : Nat} (hbase : 1 < base) (n : Nat) :
    ∃ first rest, ofNat base n = first :: rest ∧ (n ≠ 0 → first ≠ 0) := by
  unfold ofNat
  split
  · next hn => exact ⟨0, [], rfl, fun h => absurd hn h⟩
  · next hn =>
    obtain ⟨first, rest, hbefore, hfirst⟩ := before_eq_cons hbase hn []
    exact ⟨first, rest, hbefore, fun _ => hfirst⟩

end Homomorphic.Digits
