import Homomorphic.Config
import Homomorphic.Proofs.Json.Values

namespace Homomorphic.Config

variable {c d : Config} {text : String} {listed seen : List Field} {entries : List (Json.Text × Json)}

def override (d c : Config) (listed : List Field) : Config where
  schema := if .schema ∈ listed then c.schema else d.schema
  keySize := if .keySize ∈ listed then c.keySize else d.keySize
  maxPlaintext := if .maxPlaintext ∈ listed then c.maxPlaintext else d.maxPlaintext
  tableBits := if .tableBits ∈ listed then c.tableBits else d.tableBits
  encoderScale := if .encoderScale ∈ listed then c.encoderScale else d.encoderScale

/-- The entries of an object are these fields of the configuration, in this order, and others between
them, with any values under names of no field. -/
inductive Lists (c : Config) : List Field → List (Json.Text × Json) → Prop
  | nil : Lists c [] []
  | known {listed : List Field} {entries : List (Json.Text × Json)} (field : Field)
    (rest : Lists c listed entries) :
    Lists c (field :: listed) ((some field.name, field.get c) :: entries)
  | unknown {listed : List Field} {entries : List (Json.Text × Json)} (name : String) (value : Json)
    (hname : Field.ofName? name = none) (rest : Lists c listed entries) :
    Lists c listed ((some name, value) :: entries)

theorem override_nil (d c : Config) : d.override c [] = d := by
  simp [override]

theorem override_override (d c : Config) (field : Field) (listed : List Field) :
    (d.override c [field]).override c listed = d.override c (field :: listed) := by
  have hite {α : Type} (f : Field) (x y : α) :
      (if f ∈ listed then x else if f ∈ [field] then x else y) =
        if f ∈ field :: listed then x else y := by
    simp only [List.mem_cons, List.not_mem_nil, or_false]
    split_ifs <;> tauto
  simp only [override, hite]

theorem override_all (d c : Config) : d.override c Field.all = c := by
  simp [override, Field.all]

theorem Field.ofName?_name (field : Field) : ofName? field.name = some field := by
  cases field <;> decide

section Read

theorem readInt_ofInt {low high x : ℤ} (hlow : low ≤ x) (hhigh : x < high) :
    readInt low high (.ofInt x) = some x := by
  have hvalue : (Json.Numeral.ofInt x).toInt? = some x := by
    rw [Json.Numeral.toInt?, Json.Numeral.ofInt, if_neg]
    · simp only [decide_eq_true_eq]
      split_ifs <;> congr 1 <;> omega
    · simp
      omega
  rw [Json.ofInt, readInt, hvalue]
  simp [hlow, hhigh]

theorem readInt_natCast {size n : ℕ} (h : n < size) : readInt 0 size (.ofInt n) = some (n : ℤ) :=
  readInt_ofInt (by omega) (by omega)

theorem readSchema_name (s : Schema) : readSchema (.ofText s.name) = some s := Schema.ofName?_name s

theorem Field.set_get (field : Field) (d c : Config) :
    field.set d (field.get c) = some (d.override c [field]) := by
  cases field with
  | schema =>
    rw [Field.set, Field.get, readSchema_name]
    simp [override]
  | keySize =>
    rw [Field.set, Field.get, readInt_natCast c.keySize.toNat_lt_size]
    simp [override]
  | maxPlaintext =>
    rw [Field.set, Field.get, readInt_natCast c.maxPlaintext.toNat_lt_size]
    simp [override]
  | tableBits =>
    rw [Field.set, Field.get, readInt_natCast c.tableBits.toNat_lt_size]
    simp [override]
  | encoderScale =>
    have hhigh : c.encoderScale.toInt < Int64.maxValue.toInt + 1 := by
      rw [Int64.toInt_maxValue, sub_add_cancel]
      exact c.encoderScale.toInt_lt
    rw [Field.set, Field.get, readInt_ofInt c.encoderScale.minValue_le_toInt hhigh]
    simp [override]

theorem Lists.setNamed (h : Lists c listed entries) (hnodup : listed.Nodup)
    (hseen : ∀ field ∈ listed, field ∉ seen) (d : Config) :
    setNamed entries seen d = some (d.override c listed) := by
  induction h generalizing d seen with
  | nil => rw [Config.setNamed, override_nil]
  | known field rest ih =>
    obtain ⟨hfield, hnodup⟩ := List.nodup_cons.mp hnodup
    obtain ⟨hnew, hseen⟩ := List.forall_mem_cons.mp hseen
    -- The fields after this one differ from it, so none of them is listed twice.
    have hseen' : ∀ f, f ∈ _ → f ∉ field :: seen := fun f hf hmem =>
      (List.mem_cons.mp hmem).elim (fun heq => hfield (heq ▸ hf)) (hseen f hf)
    simp only [Config.setNamed, Field.ofName?_name, if_neg hnew, Field.set_get, Option.bind_some]
    rw [ih hnodup hseen', override_override]
  | unknown name value hname rest ih =>
    simp only [Config.setNamed, hname]
    exact ih hnodup hseen d

theorem ofJson?_object (h : Lists c listed entries) (hnodup : listed.Nodup) :
    ofJson? (.object entries) = some (standard.override c listed) :=
  h.setNamed hnodup (fun _ _ => List.not_mem_nil) standard

theorem lists_map (c : Config) (listed : List Field) :
    Lists c listed (listed.map fun field => (some field.name, field.get c)) := by
  induction listed with
  | nil => exact .nil
  | cons field listed ih => exact .known field ih

theorem ofJson?_toJson (c : Config) : ofJson? c.toJson = some c := by
  have h := ofJson?_object (lists_map c Field.all) (by decide)
  rwa [override_all] at h

end Read

section Validated

def ChecksParameters (check : Except Error Unit) : Prop :=
  check = .ok () ∨ ∃ fault, check = .error (.invalidParameters fault)

namespace ChecksParameters

variable {x y : Except Error Unit}

theorem ok : ChecksParameters (.ok ()) := .inl rfl

theorem error (fault : ParameterFault) : ChecksParameters (.error (.invalidParameters fault)) :=
  .inr ⟨fault, rfl⟩

theorem bind (hx : ChecksParameters x) (hy : ChecksParameters y) :
    ChecksParameters (x >>= fun _ => y) := by
  rcases hx with rfl | ⟨fault, rfl⟩
  · exact hy
  · exact error fault

theorem ite {p : Prop} [Decidable p] (hx : ChecksParameters x) (hy : ChecksParameters y) :
    ChecksParameters (if p then x else y) := by
  split
  · exact hx
  · exact hy

theorem guard {p : Prop} [Decidable p] (fault : ParameterFault) (h : ChecksParameters x) :
    ChecksParameters (do
      if p then throw (.invalidParameters fault)
      x) :=
  ite (error fault) h

theorem checkTable (bound : UInt64) (tableBits : UInt32) :
    ChecksParameters (ElGamal.checkTable bound tableBits) :=
  bind (ite (error _) ok) (guard _ (guard _ ok))

theorem validate (c : Config) : ChecksParameters c.validate :=
  guard _ (guard _ (checkTable c.maxPlaintext c.tableBits))

end ChecksParameters

theorem validated_of_ok (h : c.validate = .ok ()) : c.validated = .ok c := by
  rw [validated, h]
  rfl

theorem validated_of_error {error : Error} (h : c.validate = .error error) :
    c.validated = .error error := by
  rw [validated, h]
  rfl

theorem validate_of_validated {c' : Config} (h : c.validated = .ok c') : c'.validate = .ok () := by
  rcases hc : c.validate with error | _
  · rw [validated_of_error hc] at h
    cases h
  · rw [validated_of_ok hc] at h
    cases h
    exact hc

theorem parse_of_json {value : Json} (hvalue : Json.parse? text = some value)
    (hc : ofJson? value = some c) : parse text = c.validated := by
  rw [parse, hvalue, Option.bind_some, hc]

end Validated

theorem config_survives_json :
    (∀ c : Config, c.validate = .ok () → parse c.text = .ok c) ∧
    (∀ (c : Config) (listed : List Field) (entries : List (Json.Text × Json)),
      Lists c listed entries → listed.Nodup →
      (∀ layout : Json.Layout, layout.Blank →
        Json.parse? (String.ofList (Json.write layout 0 (.object entries))) = some (.object entries)) ∧
      ∀ text, Json.parse? text = some (.object entries) →
        ((standard.override c listed).validate = .ok () ∧
          parse text = .ok (standard.override c listed)) ∨
        ∃ fault, (standard.override c listed).validate = .error (.invalidParameters fault) ∧
          parse text = .error (.invalidParameters fault)) ∧
    ∀ text c, parse text = .ok c → c.validate = .ok () := by
  refine ⟨fun c hc => ?_, fun c listed entries h hnodup => ⟨?_, fun text htext => ?_⟩, ?_⟩
  · exact (parse_of_json (Json.parse?_pretty _) (ofJson?_toJson c)).trans (validated_of_ok hc)
  · exact fun layout hlayout => Json.parse?_write hlayout _
  · rw [parse_of_json htext (ofJson?_object h hnodup)]
    rcases ChecksParameters.validate (standard.override c listed) with hok | ⟨fault, herror⟩
    · exact .inl ⟨hok, validated_of_ok hok⟩
    · exact .inr ⟨fault, herror, validated_of_error herror⟩
  · intro text c hparse
    rw [parse] at hparse
    split at hparse
    · exact validate_of_validated hparse
    · cases hparse

theorem config_survives_json_reordered :
    let c : Config := ⟨.elgamal, 4096, 17592186044416, 20, 1⟩
    let note : Json.Text × Json := (some "note", .array [.object [(none, .array [.null])], .string none])
    let bound : Json.Text × Json := (some Field.maxPlaintext.name, Field.maxPlaintext.get c)
    let bits : Json.Text × Json := (some Field.tableBits.name, Field.tableBits.get c)
    c.validate = .ok () ∧ parse c.text = .ok c ∧
      parse (Json.compact (.object [note, bits, note, bound])) =
        .ok { standard with maxPlaintext := 17592186044416, tableBits := 20 } ∧
      parse (Json.compact (.object [bound, note])) =
        .error (.invalidParameters (.giantSteps 17592186044416 12)) := by
  intro c note bound bits
  have hvalid : c.validate = .ok () := by decide
  have hboth : Lists c [.tableBits, .maxPlaintext] [note, bits, note, bound] :=
    .unknown _ _ (by decide) (.known _ (.unknown _ _ (by decide) (.known _ .nil)))
  have halone : Lists c [.maxPlaintext] [bound, note] := .known _ (.unknown _ _ (by decide) .nil)
  have hvalidBoth : (standard.override c [.tableBits, .maxPlaintext]).validate = .ok () := by decide
  have hgiant : (standard.override c [.maxPlaintext]).validate =
      .error (.invalidParameters (.giantSteps 17592186044416 12)) := by decide
  obtain ⟨hwritten, hread⟩ := config_survives_json.2.1 c _ _ hboth (by decide)
  obtain ⟨hwritten', hread'⟩ := config_survives_json.2.1 c _ _ halone (by decide)
  refine ⟨hvalid, config_survives_json.1 c hvalid, ?_, ?_⟩
  · rcases hread _ (hwritten _ Json.Layout.compact_blank) with ⟨-, hparse⟩ | ⟨fault, herror, -⟩
    · exact hparse
    · rw [hvalidBoth] at herror
      cases herror
  · rcases hread' _ (hwritten' _ Json.Layout.compact_blank) with ⟨hok, -⟩ | ⟨fault, herror, hparse⟩
    · rw [hgiant] at hok
      cases hok
    · rw [hgiant] at herror
      cases herror
      exact hparse

end Homomorphic.Config
