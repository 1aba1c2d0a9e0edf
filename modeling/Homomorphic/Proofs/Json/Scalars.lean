import Homomorphic.Json.Reader
import Mathlib

namespace Homomorphic.Json

variable {rest : List Char}

section Text

def Piece.Names (piece : Piece) (c : Char) : Prop :=
  ∀ pieces, joinPieces (piece :: pieces) = (joinPieces pieces).map (c :: ·)

theorem Piece.char_names (c : Char) : (Piece.char c).Names c := by
  intro pieces
  rw [joinPieces]

theorem Piece.unit_names {c : Char} (h : c.toNat < 32) : (Piece.unit c.toNat).Names c := by
  have hhigh : isHighSurrogate c.toNat = false := by
    rw [isHighSurrogate]
    grind
  have hlow : isLowSurrogate c.toNat = false := by
    rw [isLowSurrogate]
    grind
  rintro (_ | ⟨_ | _, _⟩) <;> simp [joinPieces, hhigh, hlow]

theorem hexValue?_digit {n : ℕ} (h : n < 16) : hexValue? (Hex.digit n) = some n := by
  revert n
  decide

theorem readUnit?_digits {n : ℕ} (h : n < 32) :
    readUnit? '0' '0' (Hex.digit (n / 16)) (Hex.digit (n % 16)) = some n := by
  have hzero : hexValue? '0' = some 0 := rfl
  rw [readUnit?, hexValue?_digit (by omega), hexValue?_digit (by omega), hzero]
  simp
  omega

def Spells (literal : List Char) (c : Char) : Prop :=
  ∃ piece : Piece, piece.Names c ∧
    ∀ rest read, readPieces (literal ++ rest) read = readPieces rest (piece :: read)

theorem spells_escape {c letter : Char} (hletter : letter ≠ 'u') (h : escape? letter = some c) :
    Spells ['\\', letter] c := by
  refine ⟨_, Piece.char_names c, fun rest read => ?_⟩
  simp [readPieces, hletter, h]

theorem spells_writeChar (c : Char) : Spells (writeChar c) c := by
  rw [writeChar]
  split_ifs with h h h h h h h hcontrol
  -- the characters that have an escape of one letter
  any_goals exact spells_escape (by decide) (by rw [h]; rfl)
  · refine ⟨_, Piece.unit_names hcontrol, fun rest read => ?_⟩
    simp [readPieces, readUnit?_digits hcontrol]
  · refine ⟨_, Piece.char_names c, fun rest read => ?_⟩
    simp_all [readPieces]

theorem readPieces_flatMap (cs : List Char) : ∃ pieces, joinPieces pieces = some cs ∧
    ∀ rest read, readPieces (cs.flatMap writeChar ++ '"' :: rest) read =
      some (read.reverse ++ pieces, rest) := by
  induction cs with
  | nil => exact ⟨[], by rw [joinPieces], fun rest read => by simp [readPieces]⟩
  | cons c cs ih =>
    obtain ⟨piece, hpiece, hread⟩ := spells_writeChar c
    obtain ⟨pieces, hjoin, hreads⟩ := ih
    refine ⟨piece :: pieces, by rw [hpiece, hjoin, Option.map_some], fun rest read => ?_⟩
    rw [List.flatMap_cons, List.append_assoc, hread, hreads]
    simp

theorem exists_writeText (text : Text) : ∃ literal, writeText text = '"' :: literal ∧
    ∀ rest, readText (literal ++ rest) = some (text, rest) := by
  cases text with
  | none => exact ⟨_, rfl, fun rest => rfl⟩
  | some text =>
    obtain ⟨pieces, hjoin, hread⟩ := readPieces_flatMap text.toList
    refine ⟨_, rfl, fun rest => ?_⟩
    rw [readText, List.append_assoc, List.singleton_append, hread]
    simp [hjoin]

end Text

section Numeral

def NoDigit (cs : List Char) : Prop := ∀ c ∈ cs.head?, c.isDigit = false

theorem digit?_writeDigit (d : Fin 10) : digit? (writeDigit d.val) = some d := by
  revert d
  decide

theorem isDigit_writeDigit {d : ℕ} (h : d < 10) : (writeDigit d).isDigit = true := by
  revert d
  decide

theorem writeDigit_eq_zero {d : ℕ} (h : d < 10) (hzero : writeDigit d = '0') : d = 0 := by
  revert d
  decide

theorem readDigits_map (ds : List (Fin 10)) (h : NoDigit rest) :
    readDigits ((ds.map Fin.val).map writeDigit ++ rest) = (ds, rest) := by
  have hdigits : ∀ c ∈ (ds.map Fin.val).map writeDigit, c.isDigit = true := by
    intro c hc
    simp only [List.mem_map] at hc
    obtain ⟨_, ⟨d, -, rfl⟩, rfl⟩ := hc
    exact isDigit_writeDigit d.isLt
  have htake : rest.takeWhile Char.isDigit = [] := by
    cases rest with
    | nil => rfl
    | cons c rest => exact List.takeWhile_cons_of_neg (by simp [h c rfl])
  have hdrop : rest.dropWhile Char.isDigit = rest := by
    cases rest with
    | nil => rfl
    | cons c rest => exact List.dropWhile_cons_of_neg (by simp [h c rfl])
  rw [readDigits, List.takeWhile_append_of_pos hdigits, List.dropWhile_append_of_pos hdigits, htake,
    hdrop, List.append_nil, List.filterMap_map, List.filterMap_map]
  have hid : (digit? ∘ writeDigit) ∘ Fin.val = some := funext digit?_writeDigit
  rw [hid, List.filterMap_some]

theorem readSomeDigits_write (d : DecimalDigits) (h : NoDigit rest) :
    readSomeDigits (d.write ++ rest) = some (d, rest) := by
  have hread := readDigits_map (d.first :: d.rest) h
  rw [readSomeDigits, DecimalDigits.write, DecimalDigits.toList, ← List.map_cons, hread]

theorem DecimalDigits.exists_toList {ds : List ℕ} {first : ℕ} (h : ∀ d ∈ first :: ds, d < 10) :
    ∃ d : DecimalDigits, d.toList = first :: ds := by
  obtain ⟨hfirst, hds⟩ := List.forall_mem_cons.mp h
  refine ⟨⟨⟨first, hfirst⟩, ds.attach.map fun d => ⟨d.1, hds d.1 d.2⟩⟩, ?_⟩
  simp [toList, Function.comp_def]

theorem readWhole_write (n : ℕ) (h : NoDigit rest) :
    readWhole ((Digits.ofNat 10 n).map writeDigit ++ rest) = some (n, rest) := by
  have ten : 1 < 10 := by decide
  by_cases hn : n = 0
  · subst hn
    rfl
  · obtain ⟨first, ds, hdigits, hfirst⟩ := Digits.ofNat_eq_cons ten n
    have hlt := Digits.lt_of_mem_ofNat ten n
    rw [hdigits] at hlt
    obtain ⟨d, hd⟩ := DecimalDigits.exists_toList hlt
    have hvalue : d.toNat = n := by
      rw [DecimalDigits.toNat, hd, ← hdigits, Digits.toNat_ofNat ten]
    have hchar : writeDigit first ≠ '0' :=
      fun hzero => hfirst hn (writeDigit_eq_zero (hlt first List.mem_cons_self) hzero)
    have hread := readSomeDigits_write d h
    rw [DecimalDigits.write, hd] at hread
    rw [hdigits, readWhole, hread, ← hvalue]
    · rfl
    · exact fun _ hcons => hchar (List.cons.inj hcons).1

def Ends (cs : List Char) : Prop := ∀ c ∈ cs.head?, c ∈ [' ', '\n', '\t', '\r', ',', ']', '\x7d']

def fractionText : Option DecimalDigits → List Char
  | some digits => '.' :: digits.write
  | none => []

def exponentText : Option (Bool × DecimalDigits) → List Char
  | some (negative, digits) => 'e' :: ((if negative then ['-'] else []) ++ digits.write)
  | none => []

theorem Numeral.write_eq (n : Numeral) : n.write =
    (if n.negative then ['-'] else []) ++ (Digits.ofNat 10 n.whole).map writeDigit
      ++ fractionText n.fraction ++ exponentText n.exponent := rfl

theorem Ends.noDigit (h : Ends rest) : NoDigit rest := by
  intro c hc
  have hmem := h c hc
  fin_cases hmem <;> rfl

theorem Ends.ne {c : Char} (h : Ends (c :: rest)) : c ≠ '.' ∧ c ≠ 'e' ∧ c ≠ 'E' := by
  have hmem := h c rfl
  fin_cases hmem <;> decide

theorem DecimalDigits.exists_write (d : DecimalDigits) :
    ∃ c cs, d.write = c :: cs ∧ c.isDigit = true :=
  ⟨_, _, rfl, isDigit_writeDigit d.first.isLt⟩

theorem readSign_write (negative : Bool) (d : DecimalDigits) :
    readSign ((if negative then ['-'] else []) ++ d.write ++ rest) = (negative, d.write ++ rest) := by
  cases negative with
  | true => rfl
  | false =>
    obtain ⟨c, cs, hd, hc⟩ := d.exists_write
    rw [hd]
    change readSign (c :: (cs ++ rest)) = _
    rw [readSign]
    · rfl
    · rintro _ ⟨⟩
      cases hc
    · rintro _ ⟨⟩
      cases hc

theorem readExponent_write (exponent : Option (Bool × DecimalDigits)) (h : Ends rest) :
    readExponent (exponentText exponent ++ rest) = some (exponent, rest) := by
  rcases exponent with _ | ⟨negative, d⟩
  · cases rest with
    | nil => rfl
    | cons c rest =>
      have hne := h.ne
      rw [exponentText, List.nil_append, readExponent, if_neg (by tauto)]
  · rw [exponentText, List.cons_append, readExponent, if_pos (.inl rfl), readSign_write]
    change Option.map _ (readSomeDigits (d.write ++ rest)) = _
    rw [readSomeDigits_write d h.noDigit]
    rfl

def NoFraction (cs : List Char) : Prop := ∀ c ∈ cs.head?, c ≠ '.' ∧ c.isDigit = false

theorem Ends.noFraction (h : Ends rest) (exponent : Option (Bool × DecimalDigits)) :
    NoFraction (exponentText exponent ++ rest) := by
  intro c hc
  cases exponent with
  | none =>
    cases rest with
    | nil => cases hc
    | cons d rest =>
      cases hc
      exact ⟨h.ne.1, h.noDigit c rfl⟩
  | some =>
    cases hc
    decide

theorem readFraction_write (fraction : Option DecimalDigits) (h : NoFraction rest) :
    readFraction (fractionText fraction ++ rest) = some (fraction, rest) := by
  cases fraction with
  | none =>
    rw [fractionText, List.nil_append, readFraction]
    rintro cs rfl
    exact (h '.' rfl).1 rfl
  | some d =>
    rw [fractionText, List.cons_append, readFraction, readSomeDigits_write d fun c hc => (h c hc).2]
    rfl

theorem NoFraction.noDigit (h : NoFraction rest) (fraction : Option DecimalDigits) :
    NoDigit (fractionText fraction ++ rest) := by
  cases fraction with
  | none => exact fun c hc => (h c hc).2
  | some d =>
    rintro c ⟨⟩
    decide

theorem readUnsigned_write (n : Numeral) (h : Ends rest) :
    readUnsigned n.negative ((Digits.ofNat 10 n.whole).map writeDigit ++
      (fractionText n.fraction ++ (exponentText n.exponent ++ rest))) = some (.number n, rest) := by
  have hexponent := h.noFraction n.exponent
  rw [readUnsigned, readWhole_write n.whole (hexponent.noDigit n.fraction)]
  simp only [Option.bind_eq_bind, Option.bind_some, readFraction_write n.fraction hexponent,
    readExponent_write n.exponent h]
  rfl

theorem exists_whole (n : ℕ) : ∃ c cs, (Digits.ofNat 10 n).map writeDigit = c :: cs ∧ c.isDigit = true := by
  obtain ⟨first, ds, hdigits, -⟩ := Digits.ofNat_eq_cons (show 1 < 10 by decide) n
  have hlt : first < 10 := Digits.lt_of_mem_ofNat (by decide) n first (hdigits ▸ List.mem_cons_self)
  exact ⟨_, _, congrArg (List.map writeDigit) hdigits, isDigit_writeDigit hlt⟩

theorem readScalar_number (n : Numeral) (h : Ends rest) :
    readScalar (n.write ++ rest) = some (.number n, rest) := by
  have hread := readUnsigned_write n h
  rw [Numeral.write_eq, List.append_assoc, List.append_assoc, List.append_assoc]
  cases hnegative : n.negative with
  | true =>
    rw [hnegative] at hread
    exact hread
  | false =>
    obtain ⟨c, cs, hwhole, hc⟩ := exists_whole n.whole
    rw [hnegative, hwhole] at hread
    rw [hwhole, ← hread]
    change readScalar (c :: _) = readUnsigned false (c :: _)
    rw [readScalar]
    all_goals
      intro _ hcons
      rw [(List.cons.inj hcons).1] at hc
      cases hc

theorem Numeral.exists_write (n : Numeral) : ∃ c cs, n.write = c :: cs ∧ (c = '-' ∨ c.isDigit = true) := by
  rw [write_eq]
  cases n.negative with
  | true => exact ⟨'-', _, rfl, .inl rfl⟩
  | false =>
    obtain ⟨c, cs, hwhole, hc⟩ := exists_whole n.whole
    rw [hwhole]
    exact ⟨c, _, rfl, .inr hc⟩

end Numeral

end Homomorphic.Json
