import SparkDev.Capstone.Dag
import SparkDev.Flow.Line

/-!
# The quality gate

`af10_dbt_spark_e2e`: `dbt_build >> dbt_test >> ge_quality_gate >> cleanup`, each a
`BashOperator` under the default rule. `cleanup` is the only leaf, as in the capstone DAG, but
nothing runs after a failure here.

* `gate_guards`: what the state of the run says of the tasks.
-/

namespace SparkDev.Airflow.Af10

open SparkDev.Flow SparkDev.Capstone Runs

/-- The tasks of `af10_dbt_spark_e2e`. -/
inductive Task where
  | dbtBuild
  | dbtTest
  | geQualityGate
  | cleanup
  deriving DecidableEq, Repr

/-- The tasks of the DAG. -/
def tasks : List Task := [.dbtBuild, .dbtTest, .geQualityGate, .cleanup]

instance : Fintype Task := ⟨⟨tasks, by decide⟩, by intro t; cases t <;> decide⟩

/-- The DAG. -/
def af10 : TaskGraph Task where
  upstream
    | .dbtBuild => []
    | .dbtTest => [.dbtBuild]
    | .geQualityGate => [.dbtTest]
    | .cleanup => [.geQualityGate]
  rule _ := .allSuccess
  rank
    | .dbtBuild => 0
    | .dbtTest => 1
    | .geQualityGate => 2
    | .cleanup => 3
  acyclic := by decide

/-- The exit code of each attempt of each task, and the retries the installation allows. -/
def bashTasks (exit : Task → ℕ → ℤ) (retries : Task → ℕ) : Runner Task where
  outcome t k := bashOutcome (exit t k)
  retries := retries

/-- The state of the DAG run. -/
def dagState (s : State Task) : RunState := af10.runState tasks s

theorem line_af10 : af10.Line .dbtBuild [.dbtTest, .geQualityGate, .cleanup] :=
  ⟨rfl, rfl, rfl, rfl, rfl, rfl, trivial⟩

theorem leaves_af10 : af10.leaves tasks = [.cleanup] := by decide

/-- **The gate guards the run**, in every order of the tasks and with any retries. Over, the run is a
failure exactly when some task fails by itself and those before it succeed; and `cleanup` has
succeeded exactly when all four tasks have. A run in between is marked success with a task skipped
(exit code 99). -/
theorem gate_guards (exit : Task → ℕ → ℤ) (retries : Task → ℕ) (s : State Task)
    (hr : Reach (af10.Step (bashTasks exit retries)) TaskGraph.start s) (hc : TaskGraph.Complete s) :
    (dagState s = .failed ↔ TaskGraph.FirstFails (bashTasks exit retries) tasks) ∧
      (s .cleanup = .success ↔ ∀ t, (bashTasks exit retries).own t = .success) := by
  have hs := TaskGraph.consistent_reach hr
  have hfirst := TaskGraph.state_of_first hs rfl (hc .dbtBuild)
  obtain ⟨hsuccess, hbad⟩ := TaskGraph.line_of_own hs hc _ line_af10 hfirst
  constructor
  · -- the only leaf is the end of the line
    refine Iff.trans ?_ hbad
    have hall : (tasks.all fun t => (s t).terminal) = true := List.all_eq_true.2 fun t _ => hc t
    unfold dagState TaskGraph.runState
    rw [if_pos hall, leaves_af10, List.any_cons, List.any_nil, Bool.or_false]
    show _ ↔ (s .cleanup).bad = true
    split
    · rename_i h
      exact ⟨fun _ => h, fun _ => rfl⟩
    · rename_i h
      exact ⟨RunState.noConfusion, fun hb => absurd hb h⟩
  · refine hsuccess.trans ⟨fun h t => h t ?_, fun h t _ => h t⟩
    cases t <;> decide

end SparkDev.Airflow.Af10
