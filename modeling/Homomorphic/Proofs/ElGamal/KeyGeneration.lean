import Homomorphic.ElGamal.KeyGeneration
import Homomorphic.Proofs.Draw
import Homomorphic.Proofs.ElGamal.Key

namespace Homomorphic.ElGamal

open Draw

variable {E : PointGroup} {curve : NamedCurve} {bound : UInt64} {tableBits : UInt32}
  {sk : SecretKey E} {pk : PublicKey E} {e e' : Entropy}

theorem outcome_generateWith_of_scalar {x : ℕ} (hx : E.scalarOfBytes (e.next 64) = x) (hne : x ≠ 0)
    (hsk : SecretKey.ofParts curve x bound tableBits = .ok sk) (hpk : sk.publicKey = .ok pk) :
    (generateWith curve bound tableBits).outcome e =
      (.ok (sk, pk), { e with used := e.used + 64 }) := by
  apply outcome_retry_of_some (by decide) (.none e)
  rw [keyCandidate, drawScalar, bind_assoc, outcome_bind_of_ok _ (outcome_take 64 e), pure_bind, hx,
    if_neg hne, hsk, outcome_bind_of_ok _ (outcome_lift _ _), hpk]
  rfl

theorem publicKey_of_outcome_generateWith
    (h : (generateWith curve bound tableBits).outcome e = (.ok (sk, pk), e')) :
    sk.publicKey = .ok pk := by
  obtain ⟨e₁, hattempt⟩ := exists_of_outcome_retry h
  rw [keyCandidate] at hattempt
  obtain ⟨x, e₂, -, hattempt⟩ := outcome_bind_eq_ok.mp hattempt
  by_cases hzero : x = 0
  · rw [if_pos hzero] at hattempt
    cases hattempt
  rw [if_neg hzero] at hattempt
  obtain ⟨sk', -, hattempt⟩ := outcome_lift_bind_eq_ok.mp hattempt
  obtain ⟨pk', hpk, hattempt⟩ := outcome_lift_bind_eq_ok.mp hattempt
  cases hattempt
  exact hpk

theorem made_of_outcome_generateWith
    (h : (generateWith curve bound tableBits).outcome e = (.ok (sk, pk), e')) : E.Made pk.y := by
  obtain ⟨-, hy, -⟩ := PublicKey.ofParts_eq_ok (publicKey_of_outcome_generateWith h)
  exact hy ▸ .mulBase sk.x

end Homomorphic.ElGamal
