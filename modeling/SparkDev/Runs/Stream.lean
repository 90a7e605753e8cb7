import Mathlib.Data.List.Basic
import SparkDev.Runs.Chain

/-!
# Checkpointed streams

A query reads a log in micro-batches, keeps some of its records and appends a row for
each of them to a table. The end of a batch is noted before the batch is run, the sink
knows the batch it appended last, and the offset advances when the batch is done. None
of this is lost in a crash, so a batch may be run any number of times.

* `drained_table`: what a stream that has read the whole log has written.
* `reach_drained`: from every state it can get there.
-/

namespace SparkDev.Runs

/-- What is kept of a log, and the row it is written as. -/
structure Query (μ ρ : Type*) where
  keep : μ → Bool
  row : μ → ρ

/-- What the checkpoint and the sink hold. -/
structure Progress (ρ : Type*) where
  /-- Everything before it is done. -/
  offset : ℕ
  /-- The end of the batch that was started. -/
  planned : Option ℕ
  /-- The sink has that batch. -/
  written : Bool
  table : List ρ

/-- A step of a stream. -/
inductive Act where
  | plan (hi : ℕ)
  | write
  | commit

/-- Before the first batch. -/
def Progress.start {ρ : Type*} : Progress ρ := ⟨0, none, false, []⟩

namespace Query

variable {μ ρ : Type*} (q : Query μ ρ) (log : List μ)

/-- The rows of a list of records. -/
def rows (l : List μ) : List ρ := (l.filter q.keep).map q.row

/-- The steps over a log. Running a batch that the sink has already changes nothing. -/
inductive Step : Progress ρ → Act → Progress ρ → Prop where
  | plan {s : Progress ρ} {hi : ℕ} (hnone : s.planned = none) (hlo : s.offset < hi)
      (hhi : hi ≤ log.length) :
      Step s (.plan hi) { s with planned := some hi, written := false }
  | write {s : Progress ρ} {hi : ℕ} (hsome : s.planned = some hi) (hnew : s.written = false) :
      Step s .write
        { s with table := s.table ++ q.rows ((log.take hi).drop s.offset), written := true }
  | rewrite {s : Progress ρ} {hi : ℕ} (hsome : s.planned = some hi) (hold : s.written = true) :
      Step s .write s
  | commit {s : Progress ρ} {hi : ℕ} (hsome : s.planned = some hi) (hold : s.written = true) :
      Step s .commit { s with offset := hi, planned := none, written := false }

/-- The whole log is done. -/
def Drained (s : Progress ρ) : Prop := s.offset = log.length ∧ s.planned = none

/-- The invariant of a stream: the table has the rows of what was read, once each. -/
structure ProgressOK (s : Progress ρ) : Prop where
  offset_le : s.offset ≤ log.length
  planned_le : ∀ hi, s.planned = some hi → s.offset ≤ hi ∧ hi ≤ log.length
  unplanned : s.planned = none → s.written = false
  old : s.written = false → s.table = q.rows (log.take s.offset)
  new : ∀ hi, s.planned = some hi → s.written = true → s.table = q.rows (log.take hi)

variable {q log} {s t : Progress ρ} {a : Act}

theorem rows_append (l l' : List μ) : q.rows (l ++ l') = q.rows l ++ q.rows l' := by
  rw [rows, List.filter_append, List.map_append, rows, rows]

/-- The rows of a batch come after those of what was read before. -/
theorem rows_take (q : Query μ ρ) (log : List μ) {lo hi : ℕ} (h : lo ≤ hi) :
    q.rows (log.take lo) ++ q.rows ((log.take hi).drop lo) = q.rows (log.take hi) := by
  have htake : log.take lo = (log.take hi).take lo := by rw [List.take_take, Nat.min_eq_left h]
  rw [htake, ← rows_append, List.take_append_drop]

theorem start_ok (q : Query μ ρ) (log : List μ) : q.ProgressOK log Progress.start where
  offset_le := Nat.zero_le _
  planned_le := by rintro hi ⟨⟩
  unplanned _ := rfl
  old _ := rfl
  new := by rintro hi ⟨⟩

theorem step_ok (hs : q.ProgressOK log s) (h : q.Step log s a t) : q.ProgressOK log t := by
  rcases h with ⟨hnone, hlo, hhi⟩ | ⟨hsome, hnew⟩ | ⟨hsome, hold⟩ | ⟨hsome, hold⟩
  · exact {
      offset_le := hs.offset_le
      planned_le := by
        rintro _ ⟨⟩
        exact ⟨Nat.le_of_lt hlo, hhi⟩
      unplanned := by rintro ⟨⟩
      old := fun _ => hs.old (hs.unplanned hnone)
      new := by rintro _ _ ⟨⟩ }
  · have hrows := rows_take q log (hs.planned_le _ hsome).1
    exact {
      offset_le := hs.offset_le
      planned_le := hs.planned_le
      unplanned := fun hnone => by
        rw [hsome] at hnone
        cases hnone
      old := by rintro ⟨⟩
      new := fun hi hhi _ => by
        cases hsome.symm.trans hhi
        rw [← hrows, ← hs.old hnew] }
  · exact hs
  · exact {
      offset_le := (hs.planned_le _ hsome).2
      planned_le := by rintro _ ⟨⟩
      unplanned := fun _ => rfl
      old := fun _ => hs.new _ hsome hold
      new := by rintro _ ⟨⟩ }

theorem reach_ok (h : Reach (q.Step log) Progress.start s) : q.ProgressOK log s :=
  reach_invariant (fun _ _ _ hs hst => step_ok hs hst) (start_ok q log) h

/-- **What a drained stream has written**: the rows of the log, each once and in order,
however it was cut into batches and however often a batch was run. -/
theorem drained_table (h : Reach (q.Step log) Progress.start s) (hd : Drained log s) :
    s.table = q.rows log := by
  have hok := reach_ok h
  rw [hok.old (hok.unplanned hd.2), hd.1, List.take_length]

/-- A started batch can be finished. -/
theorem reach_unplanned (q : Query μ ρ) (log : List μ) (s : Progress ρ) :
    ∃ t, Reach (q.Step log) s t ∧ t.planned = none := by
  rcases hp : s.planned with _ | hi
  · exact ⟨s, reach_refl s, hp⟩
  rcases hw : s.written
  · exact ⟨_, (reach_step (Step.write hp hw)).trans (reach_step (Step.commit hp rfl)), rfl⟩
  · exact ⟨_, reach_step (Step.commit hp hw), rfl⟩

/-- **From every state the stream can read the rest of the log.** -/
theorem reach_drained (hs : q.ProgressOK log s) : ∃ t, Reach (q.Step log) s t ∧ Drained log t := by
  obtain ⟨u, hsu, hu⟩ := reach_unplanned q log s
  have hok : q.ProgressOK log u := reach_invariant (fun _ _ _ hs hst => step_ok hs hst) hs hsu
  rcases Nat.lt_or_ge u.offset log.length with hlt | hge
  · -- one more batch takes the stream to the end
    have hplan : Reach (q.Step log) u { u with planned := some log.length, written := false } :=
      reach_step (Step.plan hu hlt (Nat.le_refl _))
    have hwrite := hplan.trans (reach_step (Step.write rfl rfl))
    exact ⟨_, hsu.trans (hwrite.trans (reach_step (Step.commit rfl rfl))), rfl, rfl⟩
  · exact ⟨u, hsu, Nat.le_antisymm hok.offset_le hge, hu⟩

end Query

end SparkDev.Runs
