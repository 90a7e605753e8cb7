import Mathlib.Algebra.Order.Ring.Int
import Mathlib.Algebra.Order.Ring.Rat
import SparkDev.Sql.Latest

/-!
# The Debezium envelope and the change rows parsed from it

A topic record holds a JSON envelope or, for a tombstone, no value. Parsing
(`evt`) turns a null value into an envelope of nulls; `changes` drops the rows
with a null `op` and takes the row image from `after`, the id from `after` or
`before`. JSON decoding itself is not modelled: a record carries the decoded
envelope.
-/

namespace SparkDev.Cdc

open Sql

/-- `op` of a change event: snapshot read, create, update, delete. -/
inductive Op where
  | r | c | u | d
  deriving DecidableEq, Repr

/-- A row image of the envelope (`_AFTER`). -/
structure RowImage where
  id : Option ℤ
  customer : Option String
  amount : Option ℚ
  status : Option String
  updated : Option ℤ
  deriving DecidableEq, Repr

/-- The envelope (`_ENV`). Of `source` only `lsn` is read. -/
structure Envelope where
  before : Option RowImage
  after : Option RowImage
  op : Option Op
  lsn : Option ℤ
  deriving DecidableEq, Repr

/-- A record of the topic: its value, `none` for a tombstone. -/
structure Record where
  value : Option Envelope
  deriving DecidableEq, Repr

/-- A parsed change row. -/
structure Change where
  op : Op
  lsn : Option ℤ
  id : Option ℤ
  customer : Option String
  amount : Option ℚ
  status : Option String
  updated : Option ℤ
  deriving DecidableEq, Repr

/-- `from_json(value)` and `select("e.*")`: a null value gives a row of nulls. -/
def evt (rec : Record) : Envelope := rec.value.getD ⟨none, none, none, none⟩

/-- `filter(op is not null)` and the projection to change rows, for one envelope. -/
def Envelope.change (e : Envelope) : Option Change :=
  e.op.map fun op =>
    { op := op
      lsn := e.lsn
      id := (e.after.bind RowImage.id).or (e.before.bind RowImage.id)
      customer := e.after.bind RowImage.customer
      amount := e.after.bind RowImage.amount
      status := e.after.bind RowImage.status
      updated := e.after.bind RowImage.updated }

/-- The change rows of a read of the topic. -/
def changes (raw : List Record) : List Change := (raw.map evt).filterMap Envelope.change

@[simp] theorem changes_nil : changes [] = [] := rfl

@[simp] theorem changes_append (a b : List Record) : changes (a ++ b) = changes a ++ changes b := by
  unfold changes
  rw [List.map_append, List.filterMap_append]

theorem mem_changes {raw : List Record} {c : Change} :
    c ∈ changes raw ↔ ∃ rec ∈ raw, (evt rec).change = some c := by
  unfold changes
  simp [List.mem_filterMap]

/-- A read with the same records, in any order and any number of copies, has the same
change rows as a set. -/
theorem mem_changes_congr {raw raw' : List Record} (h : ∀ rec, rec ∈ raw' ↔ rec ∈ raw) (c : Change) :
    c ∈ changes raw' ↔ c ∈ changes raw := by
  simp only [mem_changes, h]

/-- Every change row names its row. -/
def Identified (raw : List Record) : Prop := ∀ c ∈ changes raw, c.id ≠ none

instance (raw : List Record) : Decidable (Identified raw) :=
  inferInstanceAs (Decidable (∀ c ∈ changes raw, c.id ≠ none))

/-- The events of one id carry strictly increasing, non-null `source.lsn`. -/
def LsnIncreasing (raw : List Record) : Prop := Increasing Change.id Change.lsn (changes raw)

/-- The change row of `id = k` with the highest LSN of a read. -/
abbrev newestChange (raw : List Record) (k : ℤ) : Option Change :=
  newest Change.id Change.lsn (changes raw) k

theorem identified_nil : Identified [] := by decide

theorem lsnIncreasing_nil : LsnIncreasing [] := ⟨by decide, by decide⟩

theorem LsnIncreasing.wellStamped {raw : List Record} (h : LsnIncreasing raw) (hid : Identified raw) :
    WellStamped Change.id Change.lsn (changes raw) :=
  Increasing.wellStamped h hid

/-- **On a log in commit order the later part wins.** -/
theorem newestChange_append {a b : List Record} (h : LsnIncreasing (a ++ b)) (hid : Identified (a ++ b))
    (k : ℤ) : newestChange (a ++ b) k = (newestChange b k).or (newestChange a k) := by
  unfold LsnIncreasing Identified at *
  unfold newestChange
  rw [changes_append] at h hid ⊢
  exact newest_append h hid k

theorem LsnIncreasing.append_left {a b : List Record} (h : LsnIncreasing (a ++ b)) : LsnIncreasing a := by
  unfold LsnIncreasing at h ⊢
  rw [changes_append] at h
  exact Increasing.append_left h

theorem LsnIncreasing.append_right {a b : List Record} (h : LsnIncreasing (a ++ b)) : LsnIncreasing b := by
  unfold LsnIncreasing at h ⊢
  rw [changes_append] at h
  exact Increasing.append_right h

/-- A log goes on past the LSNs so far. -/
theorem LsnIncreasing.append {a b : List Record} (ha : LsnIncreasing a) (hb : LsnIncreasing b)
    (hlt : ∀ c ∈ changes a, ∀ x ∈ c.lsn, ∀ c' ∈ changes b, ∀ y ∈ c'.lsn, x < y) : LsnIncreasing (a ++ b) := by
  unfold LsnIncreasing
  rw [changes_append]
  refine ⟨fun c hc => ?_, List.pairwise_append.2 ⟨ha.lt, hb.lt, fun c hc c' hc' _ x hx y hy =>
    hlt c hc x hx c' hc' y hy⟩⟩
  rcases List.mem_append.1 hc with hc | hc
  · exact ha.stamp_ne c hc
  · exact hb.stamp_ne c hc

/-- One more event. -/
theorem LsnIncreasing.append_one {a b : List Record} {c : Change} {l : ℤ} (h : LsnIncreasing a)
    (hb : changes b = [c]) (hc : c.lsn = some l) (hlt : ∀ c' ∈ changes a, ∀ x ∈ c'.lsn, x < l) :
    LsnIncreasing (a ++ b) := by
  have hone : LsnIncreasing b := by
    unfold LsnIncreasing
    rw [hb]
    refine ⟨fun c' hc' => ?_, List.pairwise_singleton _ _⟩
    rw [List.mem_singleton.1 hc', hc]
    exact Option.some_ne_none l
  refine h.append hone fun c' hc' x hx c'' hc'' y hy => ?_
  rw [hb, List.mem_singleton] at hc''
  rw [hc'', hc, Option.mem_some_iff] at hy
  exact hy ▸ hlt c' hc' x hx

theorem identified_append {a b : List Record} :
    Identified (a ++ b) ↔ Identified a ∧ Identified b := by
  unfold Identified
  rw [changes_append, List.forall_mem_append]

/-- A delivery of some of the records of a well-stamped log is well stamped. -/
theorem wellStamped_of_subset {raw raw' : List Record}
    (h : WellStamped Change.id Change.lsn (changes raw)) (hs : ∀ rec ∈ raw', rec ∈ raw) :
    WellStamped Change.id Change.lsn (changes raw') := by
  refine h.mono fun c hc => ?_
  obtain ⟨rec, hr, he⟩ := mem_changes.1 hc
  exact mem_changes.2 ⟨rec, hs rec hr, he⟩

end SparkDev.Cdc
