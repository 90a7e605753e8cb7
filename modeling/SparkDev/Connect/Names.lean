import Mathlib.Data.List.Forall2
import SparkDev.Py.Dict

/-!
# Slot and publication names

`debezium_pg_config` derives both names from the connector's: lower-cased, every character
that is neither a lower-case letter nor a digit replaced by `_`, and cut off. What tells two
connectors apart may be lost at each of the three steps.

What Python knows of Unicode is the parameter `Unicode`.

* `publication_eq`: the publication is named after the first 58 characters.
* `isolated_iff`: two connectors have names of their own exactly when those characters are
  not alike.
* `valid_names_iff`: both names are of `[a-z0-9_]` exactly when Unicode has no further lower-case
  letter or digit among the first 63 characters.
-/

namespace SparkDev.Connect

open Py

/-- Python's `str.lower`, `str.islower` and `str.isdigit`, the last two on one character. -/
structure Unicode where
  lower : List Char → List Char
  isLower : Char → Bool
  isDigit : Char → Bool

variable (U : Unicode)

/-- `c if (c.islower() or c.isdigit() or c == "_") else "_"`. -/
def safeChar (c : Char) : Char := if U.isLower c || U.isDigit c || c == '_' then c else '_'

/-- The name with its characters made safe. -/
def sanitized (name : String) : List Char := (U.lower name.toList).map (safeChar U)

/-- `_safe_slot`. -/
def safeSlot (name : String) : String := String.ofList ((sanitized U name ++ "_slot".toList).take 63)

/-- `slot or _safe_slot(name)`: an empty text counts as no slot. -/
def slotOr (slot : Option String) (name : String) : String :=
  if slot.getD "" = "" then safeSlot U name else slot.getD ""

/-- `s[:-n]`. -/
def dropEnd (s : String) (n : ℕ) : String := String.ofList (s.toList.take (s.toList.length - n))

/-- `debezium_pg_config`. -/
def debeziumPgConfig (name : String) (table : String := "orders") (slot : Option String := none)
    (snapshotMode : String := "initial") (extra : Option (Dict String String) := none) : Dict String String :=
  let cfg : Dict String String := .ofItems
    [("connector.class", "io.debezium.connector.postgresql.PostgresConnector"),
     ("database.hostname", "postgres"),
     ("database.port", "5432"),
     ("database.user", "cdc"),
     ("database.password", "cdc"),
     ("database.dbname", "inventory"),
     ("topic.prefix", "dbz"),
     ("plugin.name", "pgoutput"),
     ("slot.name", slotOr U slot name),
     ("publication.name", dropEnd (safeSlot U name) 5 ++ "_pub"),
     ("publication.autocreate.mode", "filtered"),
     ("table.include.list", "public." ++ table),
     ("snapshot.mode", snapshotMode),
     ("tombstones.on.delete", "true"),
     ("decimal.handling.mode", "double"),
     ("key.converter", "org.apache.kafka.connect.json.JsonConverter"),
     ("value.converter", "org.apache.kafka.connect.json.JsonConverter"),
     ("key.converter.schemas.enable", "false"),
     ("value.converter.schemas.enable", "false")]
  match extra with
  | none => cfg
  | some extra => cfg.update extra

/-- `extra` leaves the two names alone. -/
def KeepsNames (extra : Option (Dict String String)) : Prop :=
  ∀ e ∈ extra, e.get? "slot.name" = none ∧ e.get? "publication.name" = none

/-- The slot and the publication of two configurations are different. -/
def Isolated (cfg cfg' : Dict String String) : Prop :=
  cfg.get? "slot.name" ≠ cfg'.get? "slot.name" ∧ cfg.get? "publication.name" ≠ cfg'.get? "publication.name"

/-- A character that is kept, and that no other becomes. -/
def Kept (c : Char) : Prop := (U.isLower c = true ∨ U.isDigit c = true) ∧ c ≠ '_'

/-- Two characters with one safe form. -/
def Alike (c d : Char) : Prop := c = d ∨ (¬Kept U c ∧ ¬Kept U d)

variable {U} {name name' table table' mode mode' : String} {extra extra' : Option (Dict String String)}

theorem safeChar_of_kept {c : Char} (h : Kept U c) : safeChar U c = c := by
  unfold safeChar
  rcases h with ⟨h | h, -⟩ <;> simp [h]

theorem safeChar_of_not_kept {c : Char} (h : ¬Kept U c) : safeChar U c = '_' := by
  unfold safeChar
  by_cases hc : c = '_'
  · simp [hc]
  · have hkind : ¬(U.isLower c = true ∨ U.isDigit c = true) := fun hkind => h ⟨hkind, hc⟩
    rw [if_neg]
    rw [Bool.or_eq_true, Bool.or_eq_true, beq_iff_eq]
    exact not_or.2 ⟨hkind, hc⟩

theorem safeChar_eq_iff (c d : Char) : safeChar U c = safeChar U d ↔ Alike U c d := by
  unfold Alike
  by_cases hc : Kept U c <;> by_cases hd : Kept U d
  · rw [safeChar_of_kept hc, safeChar_of_kept hd]
    simp [hc]
  · rw [safeChar_of_kept hc, safeChar_of_not_kept hd]
    have hne : c ≠ d := fun he => hd (he ▸ hc)
    simp [hc, hc.2, hne]
  · rw [safeChar_of_not_kept hc, safeChar_of_kept hd]
    have hne : c ≠ d := fun he => hc (he ▸ hd)
    simp [hd, hd.2.symm, hne]
  · rw [safeChar_of_not_kept hc, safeChar_of_not_kept hd]
    simp [hc, hd]

/-- Texts have one safe form when they are alike character by character. -/
theorem map_safeChar_eq_iff (l l' : List Char) :
    l.map (safeChar U) = l'.map (safeChar U) ↔ List.Forall₂ (Alike U) l l' := by
  rw [← List.forall₂_eq_eq_eq, List.forall₂_map_left_iff, List.forall₂_map_right_iff]
  simp only [safeChar_eq_iff]

/-- Cutting five characters off the slot leaves the start of the name, whatever was cut
off before. -/
theorem dropEnd_take (s suffix : List Char) (hsuffix : suffix.length = 5) :
    ((s ++ suffix).take 63).take (((s ++ suffix).take 63).length - 5) = s.take 58 := by
  rw [List.take_take, List.length_take, List.length_append, hsuffix]
  have hmin : min (min 63 (s.length + 5) - 5) 63 = min 58 s.length := by omega
  rw [hmin, List.take_append_of_le_length (Nat.min_le_right _ _)]
  rcases Nat.le_total s.length 58 with h | h
  · rw [Nat.min_eq_right h, List.take_length, List.take_of_length_le h]
  · rw [Nat.min_eq_left h]

/-- **The publication is named after the first 58 characters.** -/
theorem publication_eq (U : Unicode) (name : String) :
    dropEnd (safeSlot U name) 5 ++ "_pub" = String.ofList ((sanitized U name).take 58) ++ "_pub" := by
  unfold dropEnd safeSlot
  rw [String.toList_ofList, dropEnd_take _ _ (by decide)]

theorem slotOr_none (U : Unicode) (name : String) : slotOr U none name = safeSlot U name := rfl

theorem get?_slot (h : KeepsNames extra) :
    (debeziumPgConfig U name table none mode extra).get? "slot.name" = some (safeSlot U name) := by
  unfold debeziumPgConfig
  rcases extra with _ | e
  · simp [Dict.ofItems, slotOr_none]
  · simp [Dict.ofItems, slotOr_none, (h e rfl).1]

theorem get?_publication {slot : Option String} (h : ∀ e ∈ extra, e.get? "publication.name" = none) :
    (debeziumPgConfig U name table slot mode extra).get? "publication.name" =
      some (dropEnd (safeSlot U name) 5 ++ "_pub") := by
  unfold debeziumPgConfig
  rcases extra with _ | e
  · simp [Dict.ofItems]
  · simp [Dict.ofItems, h e rfl]

theorem KeepsNames.publication (h : KeepsNames extra) : ∀ e ∈ extra, e.get? "publication.name" = none :=
  fun e he => (h e he).2

theorem keepsNames_none : KeepsNames none := fun _ he => absurd he.symm (Option.some_ne_none _)

theorem not_isolated_of_slot (h : safeSlot U name = safeSlot U name') :
    ¬Isolated (debeziumPgConfig U name) (debeziumPgConfig U name') := by
  intro hiso
  refine hiso.1 ?_
  rw [get?_slot keepsNames_none, get?_slot keepsNames_none, h]

theorem publication_eq_iff : dropEnd (safeSlot U name) 5 ++ "_pub" = dropEnd (safeSlot U name') 5 ++ "_pub" ↔
    (sanitized U name).take 58 = (sanitized U name').take 58 := by
  rw [publication_eq, publication_eq, String.append_left_inj, String.ofList_inj]

/-- **When two connectors are isolated**: exactly when their lower-cased names, cut off after
58 characters, differ in length or in a character that matters. -/
theorem isolated_iff (U : Unicode) (name name' table table' mode mode' : String)
    (extra extra' : Option (Dict String String)) (h : KeepsNames extra) (h' : KeepsNames extra') :
    Isolated (debeziumPgConfig U name table none mode extra)
        (debeziumPgConfig U name' table' none mode' extra') ↔
      ¬List.Forall₂ (Alike U) ((U.lower name.toList).take 58) ((U.lower name'.toList).take 58) := by
  unfold Isolated
  rw [get?_slot h, get?_slot h', get?_publication h.publication, get?_publication h'.publication,
    ← map_safeChar_eq_iff, List.map_take, List.map_take]
  simp only [ne_eq, Option.some.injEq]
  rw [publication_eq_iff]
  -- one slot name means one publication name
  refine ⟨fun hiso => hiso.2, fun hne => ⟨fun hslot => hne (publication_eq_iff.1 ?_), hne⟩⟩
  rw [hslot]

/-- What Python knows of ASCII. -/
def ascii : Unicode where
  lower := List.map Char.toLower
  isLower := Char.isLower
  isDigit := Char.isDigit

/-- Two connectors of the labs. -/
theorem isolated_iff_labs :
    Isolated (debeziumPgConfig ascii "cdc2-orders" "cdc2_orders") (debeziumPgConfig ascii "cdc4-orders" "cdc4_orders") := by
  refine (isolated_iff ascii "cdc2-orders" "cdc4-orders" "cdc2_orders" "cdc4_orders" "initial" "initial"
    none none keepsNames_none keepsNames_none).2 ?_
  rw [← map_safeChar_eq_iff]
  decide

/-- **Three ways to share a slot and a publication**: a replaced character, a case, and a
long common start. -/
theorem shared_names :
    ¬Isolated (debeziumPgConfig ascii "cdc-orders") (debeziumPgConfig ascii "cdc_orders") ∧
      ¬Isolated (debeziumPgConfig ascii "orders") (debeziumPgConfig ascii "Orders") ∧
      ¬Isolated (debeziumPgConfig ascii (String.ofList (List.replicate 63 'a')))
        (debeziumPgConfig ascii (String.ofList (List.replicate 64 'a'))) := by
  have hreplaced : safeSlot ascii "cdc-orders" = safeSlot ascii "cdc_orders" := by decide
  have hcase : safeSlot ascii "orders" = safeSlot ascii "Orders" := by decide
  have hcut : safeSlot ascii (String.ofList (List.replicate 63 'a')) =
      safeSlot ascii (String.ofList (List.replicate 64 'a')) := by
    unfold safeSlot sanitized
    rw [String.toList_ofList, String.toList_ofList]
    exact congrArg String.ofList (by decide)
  exact ⟨not_isolated_of_slot hreplaced, not_isolated_of_slot hcase, not_isolated_of_slot hcut⟩

/-! ## Valid names -/

/-- `[a-z0-9_]`. -/
def SlotChar (c : Char) : Prop := c.isLower = true ∨ c.isDigit = true ∨ c = '_'

instance (c : Char) : Decidable (SlotChar c) := inferInstanceAs (Decidable (_ ∨ _ ∨ _))

/-- What Postgres lets a replication slot be called. -/
structure SlotName (s : String) : Prop where
  nonempty : s ≠ ""
  length : s.length ≤ 63
  chars : ∀ c ∈ s.toList, SlotChar c

/-- The slot is well named, and so is the publication, after the start of the sanitised name. -/
structure ValidNames (U : Unicode) (name : String) (cfg : Dict String String) : Prop where
  slot : SlotName (safeSlot U name)
  publication : ∃ start, start <+: sanitized U name ∧
    cfg.get? "publication.name" = some (String.ofList start ++ "_pub") ∧ SlotName (String.ofList start ++ "_pub")

variable (U) in
/-- A lower-case letter or digit is one of those of ASCII. -/
def PlainChar (c : Char) : Prop := U.isLower c = true ∨ U.isDigit c = true → SlotChar c

theorem slotChars_of_all {l : List Char} (h : (l.all fun c => decide (SlotChar c)) = true) :
    ∀ c ∈ l, SlotChar c :=
  fun c hc => of_decide_eq_true (List.all_eq_true.1 h c hc)

theorem slotChar_safeChar (c : Char) : SlotChar (safeChar U c) ↔ PlainChar U c := by
  have hunderscore : SlotChar '_' := by decide
  unfold PlainChar safeChar
  by_cases hc : c = '_'
  · simp [hc, hunderscore]
  · by_cases hkind : U.isLower c = true ∨ U.isDigit c = true
    · simp [hkind, hc]
    · simp [hkind, hc, hunderscore]

theorem sanitized_take (U : Unicode) (name : String) (n : ℕ) :
    (sanitized U name).take n = ((U.lower name.toList).take n).map (safeChar U) := (List.map_take).symm

/-- **The characters of the slot** are sound when those of the name are that it keeps. -/
theorem safeSlot_chars : (∀ c ∈ (safeSlot U name).toList, SlotChar c) ↔
    ∀ c ∈ (U.lower name.toList).take 63, PlainChar U c := by
  have hsuffix : ∀ n, ∀ c ∈ "_slot".toList.take n, SlotChar c := by
    intro n c hc
    have hall : ∀ c ∈ "_slot".toList, SlotChar c := slotChars_of_all (by decide)
    exact hall c (List.mem_of_mem_take hc)
  unfold safeSlot
  rw [String.toList_ofList, List.take_append, List.forall_mem_append, and_iff_left (hsuffix _),
    sanitized_take, List.forall_mem_map]
  simp only [slotChar_safeChar]

theorem safeSlot_length (U : Unicode) (name : String) : (safeSlot U name).length ≤ 63 := by
  unfold safeSlot
  rw [String.length_ofList]
  exact List.length_take_le _ _

theorem safeSlot_ne_empty (U : Unicode) (name : String) : safeSlot U name ≠ "" := by
  intro h
  have hlength : (safeSlot U name).length = 0 := by rw [h]; rfl
  unfold safeSlot at hlength
  rw [String.length_ofList, List.length_take, List.length_append] at hlength
  have hsuffix : "_slot".toList.length = 5 := by decide
  omega

/-- **The publication** is shorter than the slot and keeps no other characters of the name. -/
theorem publication_valid (h : ∀ c ∈ (U.lower name.toList).take 63, PlainChar U c) :
    SlotName (String.ofList ((sanitized U name).take 58) ++ "_pub") := by
  have hlength : (String.ofList ((sanitized U name).take 58) ++ "_pub").length =
      ((sanitized U name).take 58).length + 4 := by
    rw [String.length_append, String.length_ofList]
    rfl
  refine ⟨fun hempty => ?_, ?_, ?_⟩
  · have hzero : "".length = 0 := rfl
    rw [hempty] at hlength
    omega
  · have htake := List.length_take_le 58 (sanitized U name)
    omega
  · rw [String.toList_append, String.toList_ofList, List.forall_mem_append, sanitized_take, List.forall_mem_map]
    refine ⟨fun c hc => ?_, slotChars_of_all (by decide)⟩
    -- the first 58 characters are among the first 63
    have hstart : (U.lower name.toList).take 58 <+: (U.lower name.toList).take 63 :=
      List.take_prefix_take_left (by decide)
    exact (slotChar_safeChar c).2 (h c (hstart.subset hc))

/-- **When slot and publication are well named**: exactly when the lower-case letters and digits
among the first 63 characters of the lower-cased name are those of ASCII. -/
theorem valid_names_iff (U : Unicode) (name table mode : String) (slot : Option String)
    (extra : Option (Dict String String)) (h : ∀ e ∈ extra, e.get? "publication.name" = none) :
    ValidNames U name (debeziumPgConfig U name table slot mode extra) ↔
      ∀ c ∈ (U.lower name.toList).take 63, PlainChar U c := by
  constructor
  · intro hv
    exact safeSlot_chars.1 hv.slot.chars
  · intro hplain
    have hslot : SlotName (safeSlot U name) :=
      ⟨safeSlot_ne_empty U name, safeSlot_length U name, safeSlot_chars.2 hplain⟩
    have hpublication : (debeziumPgConfig U name table slot mode extra).get? "publication.name" =
        some (String.ofList ((sanitized U name).take 58) ++ "_pub") := by
      rw [get?_publication h, publication_eq]
    exact ⟨hslot, _, List.take_prefix 58 _, hpublication, publication_valid hplain⟩

/-- A connector of the labs. -/
theorem valid_names_iff_lab : ValidNames ascii "cdc-orders" (debeziumPgConfig ascii "cdc-orders") := by
  refine (valid_names_iff ascii "cdc-orders" "orders" "initial" none none keepsNames_none.publication).2 ?_
  have hplain : ∀ c, PlainChar ascii c := fun c hc => hc.imp_right Or.inl
  exact fun c _ => hplain c

/-- What Python knows of the first 256 characters. -/
def latin1 : Unicode where
  lower := List.map fun c =>
    if c.isUpper || ('À' ≤ c && c ≤ 'Þ' && c != '×') then Char.ofNat (c.toNat + 32) else c
  isLower c := c.isLower || c == 'ª' || c == 'µ' || c == 'º' || ('ß' ≤ c && c ≤ 'ÿ' && c != '÷')
  isDigit c := c.isDigit || c == '²' || c == '³' || c == '¹'

/-- **Names beyond ASCII**: a letter and a digit that Postgres does not take. -/
theorem names_beyond_ascii :
    safeSlot latin1 "Café" = "café_slot" ∧ safeSlot latin1 "m²" = "m²_slot" ∧
      ¬ValidNames latin1 "Café" (debeziumPgConfig latin1 "Café") ∧
      ¬ValidNames latin1 "m²" (debeziumPgConfig latin1 "m²") := by
  have hcafe : safeSlot latin1 "Café" = "café_slot" := by decide
  have hsquare : safeSlot latin1 "m²" = "m²_slot" := by decide
  refine ⟨hcafe, hsquare, fun hv => ?_, fun hv => ?_⟩
  · have hchar : SlotChar 'é' := hv.slot.chars 'é' (by rw [hcafe]; decide)
    exact absurd hchar (by decide)
  · have hchar : SlotChar '²' := hv.slot.chars '²' (by rw [hsquare]; decide)
    exact absurd hchar (by decide)

end SparkDev.Connect
