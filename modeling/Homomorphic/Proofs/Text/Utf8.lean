import Homomorphic.Text.Utf8
import Mathlib

namespace Homomorphic.Utf8

def InRange (b : UInt8) (range : Range) : Prop := range.1 ≤ b ∧ b ≤ range.2

/-- The bytes `front`, with the bits `value`, begin a character: with whatever bytes in the pending
ranges they are the encoding of the character that has the bits of them all. -/
def Begins (front : Bytes) (value : ℕ) (pending : List Range) : Prop :=
  ∀ tail, List.Forall₂ InRange tail pending →
    String.utf8EncodeChar (Char.ofNat (tail.foldl (fun v b => 64 * v + b.toNat % 64) value)) =
      front ++ tail

theorem inRange_iff {b low high : UInt8} :
    InRange b (low, high) ↔ low.toNat ≤ b.toNat ∧ b.toNat ≤ high.toNat := Iff.rfl

theorem inRange_continuing {b : UInt8} : InRange b continuing ↔ 128 ≤ b.toNat ∧ b.toNat ≤ 191 := Iff.rfl

theorem val_ofNat {v : ℕ} (h : v.isValidChar) : (Char.ofNat v).val.toNat = v := by
  have hval := Char.toNat_ofNat v
  rwa [if_pos h] at hval

theorem ofNat_eq {b : UInt8} {n : ℕ} (h : b.toNat = n) : UInt8.ofNat n = b := by
  rw [← h, UInt8.ofNat_toNat]

variable {b : UInt8} {value : ℕ}

theorem begins_one (h : b.toNat < 128) : Begins [b] b.toNat [] := by
  intro tail htail
  cases htail
  have hvalid : b.toNat.isValidChar := .inl (by omega)
  simp only [List.foldl_nil, String.utf8EncodeChar, val_ofNat hvalid]
  rw [if_pos (by omega), UInt8.ofNat_toNat]
  rfl

theorem begins_two (hb : b.toNat = value + 192) (hlow : 2 ≤ value) (hhigh : value < 32) :
    Begins [b] value [continuing] := by
  intro tail htail
  cases htail with
  | @cons c _ _ _ hc htail =>
    cases htail
    rw [inRange_continuing] at hc
    have hvalid : (64 * value + c.toNat % 64).isValidChar := .inl (by omega)
    simp only [List.foldl_cons, List.foldl_nil, String.utf8EncodeChar, val_ofNat hvalid]
    rw [if_neg (by omega), if_pos (by omega), ofNat_eq (b := b) (by omega),
      ofNat_eq (b := c) (by omega)]
    rfl

theorem begins_three {low high : UInt8} (hb : b.toNat = value + 224) (hvalue : value < 16)
    (hlow : 128 ≤ low.toNat) (hhigh : high.toNat ≤ 191) (hlong : 32 ≤ 64 * value + low.toNat - 128)
    (hscalar : 64 * value + high.toNat - 128 < 864 ∨ 896 ≤ 64 * value + low.toNat - 128) :
    Begins [b] value [(low, high), continuing] := by
  intro tail htail
  cases htail with
  | @cons c _ _ _ hc htail =>
    cases htail with
    | @cons d _ _ _ hd htail =>
      cases htail
      rw [inRange_iff] at hc
      rw [inRange_continuing] at hd
      have hvalid : (64 * (64 * value + c.toNat % 64) + d.toNat % 64).isValidChar := by
        rw [Nat.isValidChar]
        omega
      simp only [List.foldl_cons, List.foldl_nil, String.utf8EncodeChar, val_ofNat hvalid]
      rw [if_neg (by omega), if_neg (by omega), if_pos (by omega), ofNat_eq (b := b) (by omega),
        ofNat_eq (b := c) (by omega), ofNat_eq (b := d) (by omega)]
      rfl

theorem begins_four {low high : UInt8} (hb : b.toNat = value + 240) (hlow : 128 ≤ low.toNat)
    (hhigh : high.toNat ≤ 191) (hlong : 16 ≤ 64 * value + low.toNat - 128)
    (hlast : 64 * value + high.toNat - 128 < 272) :
    Begins [b] value [(low, high), continuing, continuing] := by
  intro tail htail
  cases htail with
  | @cons c _ _ _ hc htail =>
    cases htail with
    | @cons d _ _ _ hd htail =>
      cases htail with
      | @cons e _ _ _ he htail =>
        cases htail
        rw [inRange_iff] at hc
        rw [inRange_continuing] at hd he
        have hvalid :
            (64 * (64 * (64 * value + c.toNat % 64) + d.toNat % 64) + e.toNat % 64).isValidChar := by
          rw [Nat.isValidChar]
          omega
        simp only [List.foldl_cons, List.foldl_nil, String.utf8EncodeChar, val_ofNat hvalid]
        rw [if_neg (by omega), if_neg (by omega), if_neg (by omega), ofNat_eq (b := b) (by omega),
          ofNat_eq (b := c) (by omega), ofNat_eq (b := d) (by omega), ofNat_eq (b := e) (by omega)]
        rfl

theorem begins_of_leading? {pending : List Range} (h : leading? b = some (value, pending)) :
    Begins [b] value pending := by
  rw [leading?] at h
  split_ifs at h with h₁ h₂ h₃ h₄ h₅ h₆ h₇ h₈ h₉
  all_goals
    obtain ⟨rfl, rfl⟩ := Prod.mk.inj (Option.some.inj h)
    simp only [UInt8.lt_iff_toNat_lt, ← UInt8.toNat_inj, UInt8.reduceToNat] at *
  · exact begins_one h₁
  · exact begins_two (by omega) (by omega) (by omega)
  · exact begins_three h₄ (by decide) (by decide) (by decide) (by decide) (by decide)
  · exact begins_three h₅ (by decide) (by decide) (by decide) (by decide) (by decide)
  · have hlow : (0x80 : UInt8).toNat = 128 := rfl
    have hhigh : (0xBF : UInt8).toNat = 191 := rfl
    exact begins_three (by omega) (by omega) (by decide) (by decide) (by omega) (by omega)
  · exact begins_four h₇ (by decide) (by decide) (by decide) (by decide)
  · have hlow : (0x80 : UInt8).toNat = 128 := rfl
    have hhigh : (0xBF : UInt8).toNat = 191 := rfl
    exact begins_four (by omega) (by decide) (by decide) (by omega) (by omega)
  · exact begins_four h₉ (by decide) (by decide) (by decide) (by decide)

theorem Begins.step {front : Bytes} {range : Range} {pending : List Range}
    (h : Begins front value (range :: pending)) (hb : InRange b range) :
    Begins (front ++ [b]) (64 * value + b.toNat % 64) pending := by
  intro tail htail
  rw [List.append_assoc]
  exact h (b :: tail) (.cons hb htail)

theorem Begins.encodeChar {front : Bytes} (h : Begins front value []) :
    String.utf8EncodeChar (Char.ofNat value) = front := by
  have hchar := h [] .nil
  rwa [List.append_nil] at hchar

theorem flatMap_of_scan {bytes front : Bytes} {start taken value : ℕ} {pending : List Range}
    {read chars : List Char} (h : scan bytes start taken value pending read = .ok chars)
    (hfront : pending = [] ∧ front = [] ∨ pending ≠ [] ∧ Begins front value pending) :
    chars.flatMap String.utf8EncodeChar =
      read.reverse.flatMap String.utf8EncodeChar ++ front ++ bytes := by
  fun_induction scan bytes start taken value pending read generalizing front with
  | case1 start taken value pending read hempty =>
    obtain ⟨-, rfl⟩ := hfront.resolve_right fun hmore => hmore.1 (List.isEmpty_iff.mp hempty)
    cases h
    rw [List.append_nil, List.append_nil]
  | case2 | case3 | case8 => cases h
  | case4 b rest start taken value read value' hleading ih =>
    obtain ⟨-, rfl⟩ := hfront.resolve_right fun hmore => hmore.1 rfl
    have hchar := (begins_of_leading? hleading).encodeChar
    rw [ih h (.inl ⟨rfl, rfl⟩)]
    simp [hchar]
  | case5 b rest start taken value read value' pending hpending hleading ih =>
    obtain ⟨-, rfl⟩ := hfront.resolve_right fun hmore => hmore.1 rfl
    rw [ih h (.inr ⟨hpending, begins_of_leading? hleading⟩)]
    simp
  | case6 b rest start taken value low high read hrange value' =>
    rename_i ih
    obtain ⟨-, hbegins⟩ := hfront.resolve_left fun hnone => List.cons_ne_nil _ _ hnone.1
    have hchar : String.utf8EncodeChar (Char.ofNat value') = front ++ [b] :=
      (hbegins.step hrange).encodeChar
    rw [ih h (.inl ⟨rfl, rfl⟩)]
    simp [hchar]
  | case7 b rest start taken value low high read hrange value' pending hpending =>
    rename_i ih
    obtain ⟨-, hbegins⟩ := hfront.resolve_left fun hnone => List.cons_ne_nil _ _ hnone.1
    rw [ih h (.inr ⟨hpending, hbegins.step hrange⟩)]
    simp

theorem encode_of_decode {bytes : Bytes} {s : String} (h : decode bytes = .ok s) : encode s = bytes := by
  rw [decode] at h
  cases hscan : scan bytes 0 0 0 [] [] with
  | error fault =>
    rw [hscan] at h
    cases h
  | ok chars =>
    rw [hscan] at h
    cases h
    rw [encode, String.toList_ofList]
    exact flatMap_of_scan hscan (.inl ⟨rfl, rfl⟩)

theorem leading?_one : ∀ n < 128, leading? (UInt8.ofNat n) = some (n, []) := by decide

theorem leading?_two : ∀ n < 32, n < 2 ∨ leading? (UInt8.ofNat (n % 32 + 0xC0)) =
    some (n, [continuing]) := by
  decide

theorem leading?_three : ∀ n < 16, leading? (UInt8.ofNat (n % 16 + 0xE0)) =
    some (n, [if n = 0 then (0xA0, 0xBF) else if n = 13 then (0x80, 0x9F) else continuing,
      continuing]) := by
  decide

theorem leading?_four : ∀ n < 5, leading? (UInt8.ofNat (n % 8 + 0xF0)) =
    some (n, [if n = 0 then (0x90, 0xBF) else if n = 4 then (0x80, 0x8F) else continuing, continuing,
      continuing]) := by
  decide

theorem inRange_ofNat {n : ℕ} {low high : UInt8} (hlow : low.toNat ≤ n % 64 + 128)
    (hhigh : n % 64 + 128 ≤ high.toNat) : InRange (UInt8.ofNat (n % 64 + 0x80)) (low, high) := by
  rw [inRange_iff, UInt8.toNat_ofNat']
  omega

theorem inRange_continuing_ofNat (n : ℕ) : InRange (UInt8.ofNat (n % 64 + 0x80)) continuing :=
  inRange_ofNat (show 128 ≤ n % 64 + 128 by omega) (show n % 64 + 128 ≤ 191 by omega)

theorem toNat_continuing (n : ℕ) : (UInt8.ofNat (n % 64 + 0x80)).toNat % 64 = n % 64 := by
  rw [UInt8.toNat_ofNat']
  omega

theorem exists_leading (c : Char) : ∃ b value pending tail,
    String.utf8EncodeChar c = b :: tail ∧ leading? b = some (value, pending) ∧
      List.Forall₂ InRange tail pending ∧
      tail.foldl (fun v b => 64 * v + b.toNat % 64) value = c.toNat := by
  have hvalid : c.toNat < 55296 ∨ 57343 < c.toNat ∧ c.toNat < 1114112 := c.valid
  have hencode : String.utf8EncodeChar c = _ := String.utf8EncodeChar.eq_1 c
  simp only [show c.val.toNat = c.toNat from rfl] at hencode
  rw [hencode]
  by_cases hone : c.toNat ≤ 0x7F
  · rw [if_pos hone]
    exact ⟨_, _, _, _, rfl, leading?_one _ (by omega), .nil, rfl⟩
  rw [if_neg hone]
  by_cases htwo : c.toNat ≤ 0x7FF
  · rw [if_pos htwo]
    refine ⟨_, _, _, _, rfl, (leading?_two _ (by omega)).resolve_left (by omega),
      .cons (inRange_continuing_ofNat _) .nil, ?_⟩
    simp only [List.foldl_cons, List.foldl_nil, toNat_continuing]
    omega
  rw [if_neg htwo]
  by_cases hthree : c.toNat ≤ 0xFFFF
  · rw [if_pos hthree]
    refine ⟨_, _, _, _, rfl, leading?_three (c.toNat / 4096) (by omega),
      .cons ?_ (.cons (inRange_continuing_ofNat _) .nil), ?_⟩
    · split_ifs with hfirst hsurrogate
      · exact inRange_ofNat (show 160 ≤ _ by omega) (show _ ≤ 191 by omega)
      · exact inRange_ofNat (show 128 ≤ _ by omega) (show _ ≤ 159 by omega)
      · exact inRange_continuing_ofNat _
    · simp only [List.foldl_cons, List.foldl_nil, toNat_continuing]
      omega
  · rw [if_neg hthree]
    refine ⟨_, _, _, _, rfl, leading?_four (c.toNat / 262144) (by omega),
      .cons ?_ (.cons (inRange_continuing_ofNat _) (.cons (inRange_continuing_ofNat _) .nil)), ?_⟩
    · split_ifs with hfirst hlast
      · exact inRange_ofNat (show 144 ≤ _ by omega) (show _ ≤ 191 by omega)
      · exact inRange_ofNat (show 128 ≤ _ by omega) (show _ ≤ 143 by omega)
      · exact inRange_continuing_ofNat _
    · simp only [List.foldl_cons, List.foldl_nil, toNat_continuing]
      omega

theorem scan_pending {tail : Bytes} {pending : List Range} (h : List.Forall₂ InRange tail pending)
    (hpending : pending ≠ []) (rest : Bytes) (start taken value : ℕ) (read : List Char) :
    scan (tail ++ rest) start taken value pending read =
      scan rest (start + taken + tail.length) 0 0 []
        (Char.ofNat (tail.foldl (fun v b => 64 * v + b.toNat % 64) value) :: read) := by
  induction h generalizing taken value with
  | nil => exact absurd rfl hpending
  | @cons b range tail pending hb htail ih =>
    rw [List.cons_append, scan, if_pos (show range.1 ≤ b ∧ b ≤ range.2 from hb)]
    cases htail with
    | nil => rfl
    | @cons b' range' tail' pending' hb' htail' =>
      simp only
      rw [ih (List.cons_ne_nil _ _), List.foldl_cons, List.length_cons (a := b)]
      congr 1
      omega

theorem scan_encodeChar (c : Char) (rest : Bytes) (start : ℕ) (read : List Char) :
    ∃ next, scan (String.utf8EncodeChar c ++ rest) start 0 0 [] read =
      scan rest next 0 0 [] (c :: read) := by
  obtain ⟨b, value, pending, tail, hencode, hleading, hrange, hvalue⟩ := exists_leading c
  rw [hencode, List.cons_append, scan, hleading]
  cases hrange with
  | nil =>
    rw [List.foldl_nil] at hvalue
    simp only [hvalue, Char.ofNat_toNat]
    exact ⟨_, rfl⟩
  | cons hb htail =>
    simp only
    rw [scan_pending (.cons hb htail) (List.cons_ne_nil _ _), hvalue, Char.ofNat_toNat]
    exact ⟨_, rfl⟩

theorem scan_flatMap (chars : List Char) (start : ℕ) (read : List Char) :
    scan (chars.flatMap String.utf8EncodeChar) start 0 0 [] read = .ok (read.reverse ++ chars) := by
  induction chars generalizing start read with
  | nil => rw [List.flatMap_nil, scan, List.append_nil]; rfl
  | cons c chars ih =>
    obtain ⟨next, hnext⟩ := scan_encodeChar c (chars.flatMap String.utf8EncodeChar) start read
    rw [List.flatMap_cons, hnext, ih, List.reverse_cons, List.append_assoc]
    rfl

theorem decode_encode (s : String) : decode (encode s) = .ok s := by
  rw [decode, encode, scan_flatMap]
  simp [Except.map]

theorem decode_eq_ok {bytes : Bytes} {s : String} : decode bytes = .ok s ↔ encode s = bytes := by
  refine ⟨encode_of_decode, ?_⟩
  rintro rfl
  exact decode_encode s

end Homomorphic.Utf8
