import SparkDev.Cdc.Envelope

/-!
# The CDC-7 sink: dedup by LSN, then `MERGE` into the mirror

`latest` keeps `row_number() over (partition by id order by lsn desc nulls last)
= 1`, and the `MERGE` deletes a matched row on `op = 'd'`, overwrites any other
matched row and inserts an unmatched row unless `op = 'd'`. What it leaves under
an id is a function of the merged event alone (`Change.landed`), whatever the
mirror held there (`cdc7_apply`).

`Upsert T batch T'` is one run of the sink on a batch; it always succeeds, and
`upsert_lookup` is its spec.
-/

namespace SparkDev.Cdc

open Sql

/-- A row of the mirror table. -/
structure MirrorRow where
  id : Option ℤ
  customer : Option String
  amount : Option ℚ
  status : Option String
  updated : Option ℤ
  deriving DecidableEq, Repr

/-- The row an `INSERT` of a change writes. -/
def Change.toRow (s : Change) : MirrorRow :=
  ⟨s.id, s.customer, s.amount, s.status, s.updated⟩

/-- What a change leaves in the mirror under its id: nothing for a delete. -/
def Change.landed (s : Change) : Option MirrorRow := if s.op = .d then none else some s.toRow

/-- The `MERGE INTO mirror t USING changes s ON t.id = s.id` of CDC-7 and CAP-1. -/
def cdc7Merge : MergeClauses MirrorRow Change ℤ where
  targetKey := MirrorRow.id
  sourceKey := Change.id
  matched t s :=
    if s.op = .d then none
    else some { t with
      customer := s.customer, amount := s.amount, status := s.status, updated := s.updated }
  notMatched s := if s.op ≠ .d then some s.toRow else none
  matched_key t s t' _ h := by
    split at h
    · cases h
    · cases h; rfl
  notMatched_key s t h := by
    split at h
    · cases h; rfl
    · cases h

/-- One run of the sink on the records of a batch. -/
def Upsert (T : List MirrorRow) (batch : List Record) (T' : List MirrorRow) : Prop :=
  DedupMerge cdc7Merge Change.lsn T (changes batch) T'

/-- One result of the dedup (`latest`): ties go to the record that arrives first. -/
def latest (raw : List Record) : List Change :=
  rowNumberOne Change.id (RowOrder.descNullsLast Change.lsn) (changes raw)

variable {T T' : List MirrorRow} {batch : List Record} {k : ℤ}

/-- The computed run is a run. -/
theorem upsert_of_merge (h : cdc7Merge.merge T (latest batch) = some T') : Upsert T batch T' :=
  ⟨latest batch, rowNumberOne_spec _ _ _, h⟩

/-- **The mirror's row under an id is decided by the merged event alone.** -/
theorem cdc7_apply {s : Change} {o : Option MirrorRow} (hs : s.id = some k)
    (ho : ∀ t, o = some t → t.id = some k) : cdc7Merge.apply (some s) o = s.landed := by
  -- the two branches of the `MERGE` write the same row
  cases o with
  | none =>
    simp only [MergeClauses.apply, cdc7Merge, Change.landed]
    by_cases h : s.op = .d <;> simp [h]
  | some t =>
    have ht := ho t rfl
    simp only [MergeClauses.apply, cdc7Merge, Change.landed, Change.toRow]
    rw [hs, ← ht]

/-- A sink run on a batch always succeeds. -/
theorem upsert_exists (T : List MirrorRow) (batch : List Record) : ∃ T', Upsert T batch T' :=
  dedupMerge_exists cdc7Merge Change.lsn T (changes batch)

/-- **Ids stay unique in the mirror**, whatever the batch. -/
theorem upsert_unique (hT : UniqueKey MirrorRow.id T) (h : Upsert T batch T') : UniqueKey MirrorRow.id T' :=
  dedupMerge_unique hT h

/-- What the sink leaves under an id, given the newest event of the id in the batch. -/
def landing : Option Change → Option MirrorRow → Option MirrorRow
  | none, o => o
  | some s, _ => s.landed

/-- **The spec of a sink run**: an id with events in the batch gets what its newest one
says, every other id keeps its row. -/
theorem upsert_lookup (hT : UniqueKey MirrorRow.id T)
    (hw : WellStamped Change.id Change.lsn (changes batch)) (h : Upsert T batch T') (k : ℤ) :
    lookup MirrorRow.id T' k = landing (newestChange batch k) (lookup MirrorRow.id T k) := by
  have hl := dedupMerge_lookup (m := cdc7Merge) hT hw h k
  change lookup MirrorRow.id T' k =
    cdc7Merge.apply (newestChange batch k) (lookup MirrorRow.id T k) at hl
  rw [hl]
  cases hn : newestChange batch k with
  | none => rfl
  | some s => exact cdc7_apply (newest_key hn) fun t ht => lookup_key ht

theorem upsert_nullRows (hid : Identified batch) (h : Upsert T batch T') :
    nullRows MirrorRow.id T' = nullRows MirrorRow.id T :=
  dedupMerge_nullRows (m := cdc7Merge) hid h

end SparkDev.Cdc
