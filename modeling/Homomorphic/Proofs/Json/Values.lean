import Homomorphic.Proofs.Json.Scalars

namespace Homomorphic.Json

variable {cs rest blanks : List Char} {layout : Layout}

def Blanks (cs : List Char) : Prop := ∀ c ∈ cs, isBlank c = true

theorem Blanks.nil : Blanks [] := by simp [Blanks]

structure Layout.Blank (layout : Layout) : Prop where
  lineBreak : ∀ depth, Blanks (layout.lineBreak depth)
  afterColon : Blanks layout.afterColon

theorem Layout.compact_blank : compact.Blank := ⟨fun _ => Blanks.nil, Blanks.nil⟩

theorem Layout.indented_blank : indented.Blank where
  lineBreak depth := by
    rintro c (_ | ⟨_, hc⟩)
    · rfl
    · rw [List.eq_of_mem_replicate hc]
      rfl
  afterColon := by simp [indented, Blanks, isBlank]

theorem Blanks.skipBlanks_append (h : Blanks blanks) (cs : List Char) :
    skipBlanks (blanks ++ cs) = skipBlanks cs := List.dropWhile_append_of_pos h

theorem skipBlanks_cons {c : Char} (h : isBlank c = false) : skipBlanks (c :: cs) = c :: cs :=
  List.dropWhile_cons_of_neg (by simp [h])

theorem readValue_congr (fuel : ℕ) {cs cs' : List Char} (h : skipBlanks cs = skipBlanks cs') :
    readValue fuel cs = readValue fuel cs' := by
  cases fuel with
  | zero => rw [readValue, readValue]
  | succ fuel => rw [readValue, readValue, h]

theorem skipBlanks_writeText (name : Text) (h : Blanks blanks) :
    skipBlanks (blanks ++ (writeText name ++ cs)) = writeText name ++ cs := by
  obtain ⟨literal, hname, -⟩ := exists_writeText name
  rw [h.skipBlanks_append, hname]
  exact skipBlanks_cons rfl

theorem readName_write (name : Text) (h : Blanks blanks) :
    readName (blanks ++ (writeText name ++ ':' :: cs)) = some (name, cs) := by
  obtain ⟨literal, hname, hread⟩ := exists_writeText name
  rw [readName, skipBlanks_writeText name h, hname, List.cons_append]
  have hcolon : skipBlanks (':' :: cs) = ':' :: cs := skipBlanks_cons rfl
  simp only [hread, Option.bind_eq_bind, Option.bind_some, hcolon]
  rfl

theorem Blanks.ends {c : Char} (h : Blanks blanks) (hc : c ∈ [' ', '\n', '\t', '\r', ',', ']', '\x7d']) :
    Ends (blanks ++ c :: rest) := by
  cases blanks with
  | nil =>
    rintro _ ⟨⟩
    exact hc
  | cons d blanks =>
    rintro _ ⟨⟩
    have hd := h d List.mem_cons_self
    simp only [isBlank, Bool.or_eq_true, decide_eq_true_eq] at hd
    simp only [List.mem_cons]
    tauto

def Begins (c : Char) : Prop := isBlank c = false ∧ c ≠ ']' ∧ c ≠ '\x7d'

instance (c : Char) : Decidable (Begins c) := inferInstanceAs (Decidable (_ ∧ _))

theorem begins_of_isDigit {c : Char} (h : c.isDigit = true) : Begins c := by
  refine ⟨?_, ?_, ?_⟩
  · by_contra hblank
    simp only [isBlank, Bool.not_eq_false, Bool.or_eq_true, decide_eq_true_eq] at hblank
    rcases hblank with ((rfl | rfl) | rfl) | rfl <;> cases h
  all_goals
    rintro rfl
    cases h

theorem exists_write (layout : Layout) (depth : ℕ) (value : Json) :
    ∃ c cs, write layout depth value = c :: cs ∧ Begins c := by
  cases value with
  | null => exact ⟨_, _, rfl, by decide⟩
  | bool value => cases value <;> exact ⟨_, _, rfl, by decide⟩
  | number n =>
    obtain ⟨c, cs, hn, rfl | hc⟩ := n.exists_write
    · exact ⟨_, _, hn, by decide⟩
    · exact ⟨c, cs, hn, begins_of_isDigit hc⟩
  | string text =>
    obtain ⟨literal, htext, -⟩ := exists_writeText text
    exact ⟨_, _, htext, by decide⟩
  | array items => cases items <;> exact ⟨_, _, rfl, by decide⟩
  | object fields => rcases fields with _ | ⟨⟨name, value⟩, fields⟩ <;> exact ⟨_, _, rfl, by decide⟩

theorem Layout.Blank.ends_writeItems (h : layout.Blank) (depth : ℕ) (items : List Json) (rest : List Char) :
    Ends (writeItems layout depth items ++ rest) := by
  cases items with
  | nil =>
    rw [writeItems, List.append_assoc]
    exact (h.lineBreak depth).ends (by simp)
  | cons item items =>
    rw [writeItems]
    rintro _ ⟨⟩
    simp

theorem Layout.Blank.ends_writeFields (h : layout.Blank) (depth : ℕ) (fields : List (Text × Json))
    (rest : List Char) : Ends (writeFields layout depth fields ++ rest) := by
  cases fields with
  | nil =>
    rw [writeFields, List.append_assoc]
    exact (h.lineBreak depth).ends (by simp)
  | cons field fields =>
    rw [writeFields]
    rintro _ ⟨⟩
    simp

theorem readValue_scalar {c : Char} (fuel : ℕ) (hblank : isBlank c = false) (harray : c ≠ '[')
    (hobject : c ≠ '\x7b') : readValue (fuel + 1) (c :: cs) = readScalar (c :: cs) := by
  rw [readValue, skipBlanks_cons hblank]
  split
  · next h => exact absurd (List.cons.inj h).1 harray
  · next h => exact absurd (List.cons.inj h).1 hobject
  · rfl

theorem exists_skipBlanks_write (hblanks : Blanks blanks) (depth : ℕ) (value : Json) (rest : List Char) :
    ∃ c cs, skipBlanks (blanks ++ (write layout depth value ++ rest)) = c :: cs ∧ Begins c := by
  obtain ⟨c, cs, hvalue, hc⟩ := exists_write layout depth value
  refine ⟨c, cs ++ rest, ?_, hc⟩
  rw [hblanks.skipBlanks_append, hvalue]
  exact skipBlanks_cons hc.1

section Steps

variable {fuel : ℕ} {item value : Json} {items : List Json} {fields : List (Text × Json)}

theorem readValue_array (hcs : ∃ c cs', skipBlanks cs = c :: cs' ∧ Begins c)
    (h : readValue fuel cs = some (item, rest)) :
    readValue (fuel + 1) ('[' :: cs) = readItems fuel rest [item] := by
  obtain ⟨c, cs', hskip, hc⟩ := hcs
  have hread : readValue fuel (c :: cs') = some (item, rest) := by
    rw [← h]
    exact readValue_congr fuel (by rw [hskip, skipBlanks_cons hc.1])
  rw [readValue, skipBlanks_cons rfl]
  simp only [hskip]
  split
  · next heq => exact absurd (List.cons.inj heq).1 hc.2.1
  · rw [hread]
    rfl

theorem readItems_close (fuel : ℕ) (hblanks : Blanks blanks) :
    readItems (fuel + 1) (blanks ++ ']' :: rest) items = some (.array items.reverse, rest) := by
  rw [readItems, hblanks.skipBlanks_append, skipBlanks_cons rfl]
  rfl

theorem readItems_comma (h : readValue fuel cs = some (item, rest)) :
    readItems (fuel + 1) (',' :: cs) items = readItems fuel rest (item :: items) := by
  rw [readItems, skipBlanks_cons rfl]
  simp only [h]
  rfl

theorem readValue_object (name : Text) (hblanks : Blanks blanks)
    (h : readValue fuel cs = some (value, rest)) :
    readValue (fuel + 1) ('\x7b' :: (blanks ++ (writeText name ++ ':' :: cs))) =
      readFields fuel rest [(name, value)] := by
  obtain ⟨literal, hname, -⟩ := exists_writeText name
  have hread : readName ([] ++ (writeText name ++ ':' :: cs)) = some (name, cs) :=
    readName_write name Blanks.nil
  rw [readValue, skipBlanks_cons rfl]
  simp only [skipBlanks_writeText name hblanks]
  split
  · next heq =>
    rw [hname] at heq
    cases heq
  · rw [List.nil_append] at hread
    rw [hread]
    simp only [Option.bind_eq_bind, Option.bind_some, h]

theorem readFields_close (fuel : ℕ) (hblanks : Blanks blanks) :
    readFields (fuel + 1) (blanks ++ '\x7d' :: rest) fields = some (.object fields.reverse, rest) := by
  rw [readFields, hblanks.skipBlanks_append, skipBlanks_cons rfl]
  rfl

theorem readFields_comma (name : Text) (hblanks : Blanks blanks)
    (h : readValue fuel cs = some (value, rest)) :
    readFields (fuel + 1) (',' :: (blanks ++ (writeText name ++ ':' :: cs))) fields =
      readFields fuel rest ((name, value) :: fields) := by
  rw [readFields, skipBlanks_cons rfl]
  simp only [readName_write name hblanks, h, Option.bind_eq_bind, Option.bind_some]

theorem readValue_number (n : Numeral) (hrest : Ends rest) :
    readValue (fuel + 1) (n.write ++ rest) = some (.number n, rest) := by
  obtain ⟨c, cs, hn, hc⟩ := n.exists_write
  have hread := readScalar_number n hrest
  rw [hn] at hread ⊢
  rw [List.cons_append] at hread ⊢
  rcases hc with rfl | hc
  · rwa [readValue_scalar fuel rfl (by decide) (by decide)]
  · rwa [readValue_scalar fuel (begins_of_isDigit hc).1 (by rintro rfl; cases hc) (by rintro rfl; cases hc)]

theorem readValue_text (text : Text) :
    readValue (fuel + 1) (writeText text ++ rest) = some (.string text, rest) := by
  obtain ⟨literal, htext, hread⟩ := exists_writeText text
  rw [htext]
  rw [List.cons_append, readValue_scalar fuel rfl (by decide) (by decide), readScalar, hread]
  rfl

end Steps

-- Each bracket and each comma takes one of the fuel, and is a character of the text.
mutual

theorem readValue_write (h : layout.Blank) (value : Json) (depth fuel : ℕ) {blanks rest : List Char}
    (hblanks : Blanks blanks) (hfuel : (write layout depth value).length < fuel) (hrest : Ends rest) :
    readValue fuel (blanks ++ (write layout depth value ++ rest)) = some (value, rest) := by
  obtain ⟨fuel, rfl⟩ := Nat.exists_eq_succ_of_ne_zero (Nat.ne_zero_of_lt hfuel)
  rw [readValue_congr _ (hblanks.skipBlanks_append _)]
  match value with
  | .null =>
    rw [write]
    exact readValue_scalar fuel rfl (by decide) (by decide)
  | .bool value =>
    rw [write]
    cases value <;> exact readValue_scalar fuel rfl (by decide) (by decide)
  | .number n =>
    rw [write]
    exact readValue_number n hrest
  | .string text =>
    rw [write]
    exact readValue_text text
  | .array [] => rfl
  | .array (item :: items) =>
    rw [write] at hfuel ⊢
    simp only [List.length_cons, List.length_append, List.cons_append, List.append_assoc] at hfuel ⊢
    have hread := readValue_write h item (depth + 1) fuel (h.lineBreak (depth + 1)) (by omega)
      (h.ends_writeItems depth items rest)
    rw [readValue_array (exists_skipBlanks_write (h.lineBreak _) ..) hread]
    exact readItems_write h items depth fuel [item] (by omega)
  | .object [] => rfl
  | .object ((name, value) :: fields) =>
    rw [write] at hfuel ⊢
    simp only [List.length_cons, List.length_append, List.cons_append, List.append_assoc] at hfuel ⊢
    have hread := readValue_write h value (depth + 1) fuel h.afterColon (by omega)
      (h.ends_writeFields depth fields rest)
    rw [readValue_object name (h.lineBreak _) hread]
    exact readFields_write h fields depth fuel [(name, value)] (by omega)

theorem readItems_write (h : layout.Blank) (items : List Json) (depth fuel : ℕ) (read : List Json)
    {rest : List Char} (hfuel : (writeItems layout depth items).length < fuel) :
    readItems fuel (writeItems layout depth items ++ rest) read =
      some (.array (read.reverse ++ items), rest) := by
  obtain ⟨fuel, rfl⟩ := Nat.exists_eq_succ_of_ne_zero (Nat.ne_zero_of_lt hfuel)
  match items with
  | [] =>
    rw [writeItems, List.append_assoc, List.append_nil]
    exact readItems_close fuel (h.lineBreak depth)
  | item :: items =>
    rw [writeItems] at hfuel ⊢
    simp only [List.length_cons, List.length_append, List.cons_append, List.append_assoc] at hfuel ⊢
    have hread := readValue_write h item (depth + 1) fuel (h.lineBreak (depth + 1)) (by omega)
      (h.ends_writeItems depth items rest)
    rw [readItems_comma hread, readItems_write h items depth fuel _ (by omega), List.reverse_cons,
      List.append_assoc, List.singleton_append]

theorem readFields_write (h : layout.Blank) (fields : List (Text × Json)) (depth fuel : ℕ)
    (read : List (Text × Json)) {rest : List Char}
    (hfuel : (writeFields layout depth fields).length < fuel) :
    readFields fuel (writeFields layout depth fields ++ rest) read =
      some (.object (read.reverse ++ fields), rest) := by
  obtain ⟨fuel, rfl⟩ := Nat.exists_eq_succ_of_ne_zero (Nat.ne_zero_of_lt hfuel)
  match fields with
  | [] =>
    rw [writeFields, List.append_assoc, List.append_nil]
    exact readFields_close fuel (h.lineBreak depth)
  | (name, value) :: fields =>
    rw [writeFields] at hfuel ⊢
    simp only [List.length_cons, List.length_append, List.cons_append, List.append_assoc] at hfuel ⊢
    have hread := readValue_write h value (depth + 1) fuel h.afterColon (by omega)
      (h.ends_writeFields depth fields rest)
    rw [readFields_comma name (h.lineBreak _) hread, readFields_write h fields depth fuel _ (by omega),
      List.reverse_cons, List.append_assoc, List.singleton_append]

end

theorem parse?_write (h : layout.Blank) (value : Json) :
    parse? (String.ofList (write layout 0 value)) = some value := by
  have hread : readValue _ ([] ++ (write layout 0 value ++ [])) = some (value, []) :=
    readValue_write h value 0 _ Blanks.nil (Nat.lt_succ_self _) (by rintro _ ⟨⟩)
  rw [List.nil_append, List.append_nil] at hread
  rw [parse?, String.toList_ofList]
  simp only [hread]
  rfl

theorem parse?_compact (value : Json) : parse? value.compact = some value :=
  parse?_write Layout.compact_blank value

theorem parse?_pretty (value : Json) : parse? value.pretty = some value :=
  parse?_write Layout.indented_blank value

end Homomorphic.Json
