import SparkDev.Flow.TaskGraph

/-!
# The capstone DAG

Two branches, `cdc_ingest >> spark_transform >> ge_gate` and `dbt_marts >> dbt_test`,
and `cleanup` after both with `trigger_rule="all_done"`. `cleanup` is the only leaf,
so it alone decides the state of the run.

* `cleanup_last`: `cleanup` is not touched before both branches are over.
* `capstone_verdict_iff`: failures of the branches show in the state of the run
  exactly when `cleanup` itself fails or no branch can fail.
* `gate_failure_hidden`: the run of a failed `ge_gate` is marked success.
-/

namespace SparkDev.Capstone

open SparkDev.Flow Runs

/-- The tasks of `cap1_e2e_pipeline`. -/
inductive Task where
  | cdcIngest
  | sparkTransform
  | geGate
  | dbtMarts
  | dbtTest
  | cleanup
  deriving DecidableEq, Repr

/-- The tasks of the DAG. -/
def tasks : List Task := [.cdcIngest, .sparkTransform, .geGate, .dbtMarts, .dbtTest, .cleanup]

instance : Fintype Task := ⟨⟨tasks, by decide⟩, by intro t; cases t <;> decide⟩

/-- The DAG. -/
def cap1 : TaskGraph Task where
  upstream
    | .cdcIngest => []
    | .sparkTransform => [.cdcIngest]
    | .geGate => [.sparkTransform]
    | .dbtMarts => []
    | .dbtTest => [.dbtMarts]
    | .cleanup => [.geGate, .dbtTest]
  rule
    | .cleanup => .allDone
    | _ => .allSuccess
  rank
    | .cdcIngest => 0
    | .sparkTransform => 1
    | .geGate => 2
    | .dbtMarts => 0
    | .dbtTest => 1
    | .cleanup => 3
  acyclic := by decide

/-- What a `BashOperator` makes of an exit code. -/
def bashOutcome (exit : ℤ) : Outcome :=
  if exit = 0 then .success else if exit = 99 then .skipped else .failed

/-- The exit code of each attempt of each task, and the retries the installation allows. -/
def bashRunner (exit : Task → ℕ → ℤ) (retries : Task → ℕ) : Runner Task where
  outcome t k := bashOutcome (exit t k)
  retries := retries

/-- The state of the DAG run. -/
def dagState (s : State Task) : RunState := cap1.runState tasks s

/-- When a task other than `cleanup` has failed the run is not marked success. -/
def FailureShown (s : State Task) : Prop :=
  ∀ t, t ≠ .cleanup → (s t).bad = true → dagState s ≠ .success

/-- `cleanup` is not touched before both branches are over. -/
def TeardownLast (s : State Task) : Prop :=
  s .cleanup ≠ .none → ∀ t, t ≠ .cleanup → (s t).terminal = true

/-- The tasks that come before a task of a branch. -/
def before : Task → List Task
  | .sparkTransform => [.cdcIngest]
  | .geGate => [.cdcIngest, .sparkTransform]
  | .dbtTest => [.dbtMarts]
  | _ => []

/-- `cleanup` fails itself, or no task of a branch fails after those before it succeeded. -/
def ReportsFailure (R : Runner Task) : Prop :=
  R.own .cleanup = .failed ∨
    ∀ t, t ≠ .cleanup → (∀ u ∈ before t, R.own u = .success) → R.own t ≠ .failed

variable {R : Runner Task} {s : State Task}

/-- The only leaf is `cleanup`. -/
theorem leaves_cap1 : cap1.leaves tasks = [.cleanup] := by decide

theorem dagState_complete (hc : TaskGraph.Complete s) :
    dagState s = if (s .cleanup).bad then .failed else .success := by
  have hall : (tasks.all fun t => (s t).terminal) = true := List.all_eq_true.2 fun t _ => hc t
  unfold dagState TaskGraph.runState
  rw [if_pos hall, leaves_cap1]
  simp

/-- **The teardown comes last**, in every reachable state. -/
theorem cleanup_last (h : Reach (cap1.Step R) TaskGraph.start s) : TeardownLast s := by
  have hs := TaskGraph.consistent_reach h
  intro hne
  have hready : cap1.Ready s .cleanup := TaskGraph.ready_of_allDone hs rfl hne
  have hge : (s .geGate).terminal = true := hready .geGate (by decide)
  have hdt : (s .dbtTest).terminal = true := hready .dbtTest (by decide)
  have hprev : ∀ t u, cap1.upstream t = [u] → (s t).terminal = true → (s u).terminal = true := by
    intro t u hup ht
    refine TaskGraph.terminal_of_single hs hup fun hn => ?_
    rw [hn] at ht
    cases ht
  have hst := hprev .geGate .sparkTransform rfl hge
  intro t ht
  cases t with
  | cdcIngest => exact hprev .sparkTransform .cdcIngest rfl hst
  | sparkTransform => exact hst
  | geGate => exact hge
  | dbtMarts => exact hprev .dbtTest .dbtMarts rfl hdt
  | dbtTest => exact hdt
  | cleanup => exact absurd rfl ht

/-- A branch task whose rule let it run comes after successes. -/
theorem before_of_ready (hs : cap1.Consistent R s) :
    ∀ t, t ≠ .cleanup → cap1.Ready s t → ∀ u ∈ before t, R.own u = .success := by
  have hprev : ∀ t u, cap1.upstream t = [u] → cap1.rule t = .allSuccess → cap1.Ready s t →
      s u = .success := by
    intro t u hup hrule hr
    have ha := hr u (by simp [hup])
    rw [hrule] at ha
    exact of_decide_eq_true ha
  have hready : ∀ t, s t = .success → cap1.Ready s t := by
    intro t ht
    have hok := hs t
    rw [ht] at hok
    exact hok.1
  -- along the chain of `all_success` up to the first task
  intro t ht hr
  cases t with
  | cdcIngest => simp [before]
  | sparkTransform =>
    have hu := hprev .sparkTransform .cdcIngest rfl rfl hr
    simpa [before] using TaskGraph.own_of_success hs hu
  | geGate =>
    have hu := hprev .geGate .sparkTransform rfl rfl hr
    have hv := hprev .sparkTransform .cdcIngest rfl rfl (hready _ hu)
    simpa [before] using
      And.intro (TaskGraph.own_of_success hs hv) (TaskGraph.own_of_success hs hu)
  | dbtMarts => simp [before]
  | dbtTest =>
    have hu := hprev .dbtTest .dbtMarts rfl rfl hr
    simpa [before] using TaskGraph.own_of_success hs hu
  | cleanup => exact absurd rfl ht

/-- When no branch can fail, none has. -/
theorem branch_not_bad (hs : cap1.Consistent R s)
    (h : ∀ t, t ≠ .cleanup → (∀ u ∈ before t, R.own u = .success) → R.own t ≠ .failed) :
    ∀ t, t ≠ .cleanup → (s t).bad ≠ true := by
  have hstep : ∀ t, t ≠ .cleanup → (∀ u ∈ cap1.upstream t, (s u).bad ≠ true) → (s t).bad ≠ true := by
    intro t ht hup hb
    rcases TaskGraph.cases_of_bad hs hb with ⟨hr, ho⟩ | ⟨u, hu, hub⟩
    · exact h t ht (before_of_ready hs t ht hr) ho
    · exact hup u hu hub
  have h₁ := hstep .cdcIngest (by decide) (by simp [cap1])
  have h₂ := hstep .sparkTransform (by decide) (by simpa [cap1] using h₁)
  have h₃ := hstep .geGate (by decide) (by simpa [cap1] using h₂)
  have h₄ := hstep .dbtMarts (by decide) (by simp [cap1])
  have h₅ := hstep .dbtTest (by decide) (by simpa [cap1] using h₄)
  intro t ht
  cases t <;> first | assumption | exact absurd rfl ht

/-- Once everything is over, a branch task whose predecessors' attempts succeed had its turn. -/
theorem ready_of_before (hs : cap1.Consistent R s) (hc : TaskGraph.Complete s) :
    ∀ t, t ≠ .cleanup → (∀ u ∈ before t, R.own u = .success) → cap1.Ready s t := by
  have hnext : ∀ t u, cap1.upstream t = [u] → cap1.rule t = .allSuccess → cap1.Ready s u →
      R.own u = .success → cap1.Ready s t := by
    intro t u hup hrule hr ho v hv
    rw [hup, List.mem_singleton] at hv
    subst hv
    rw [hrule, TaskGraph.state_of_ready hs hr (hc v), ho]
    rfl
  have hcdc : cap1.Ready s .cdcIngest := fun u hu => absurd hu (by simp [cap1])
  have hmarts : cap1.Ready s .dbtMarts := fun u hu => absurd hu (by simp [cap1])
  intro t ht hb
  cases t with
  | cdcIngest => exact hcdc
  | sparkTransform => exact hnext _ .cdcIngest rfl rfl hcdc (hb _ (by decide))
  | geGate =>
    have hspark := hnext .sparkTransform .cdcIngest rfl rfl hcdc (hb _ (by decide))
    exact hnext _ .sparkTransform rfl rfl hspark (hb _ (by decide))
  | dbtMarts => exact hmarts
  | dbtTest => exact hnext _ .dbtMarts rfl rfl hmarts (hb _ (by decide))
  | cleanup => exact absurd rfl ht

/-- In the end `cleanup` is as its own attempts left it. -/
theorem cleanup_state (hs : cap1.Consistent R s) (hc : TaskGraph.Complete s) :
    s .cleanup = (R.own .cleanup).state := by
  refine TaskGraph.state_of_ready hs (TaskGraph.ready_of_allDone hs rfl fun hn => ?_) (hc _)
  have ht := hc .cleanup
  rw [hn] at ht
  cases ht

theorem complete_of_success (h : dagState s = .success) : TaskGraph.Complete s := by
  unfold dagState TaskGraph.runState at h
  by_cases hall : (tasks.all fun t => (s t).terminal) = true
  · intro t
    exact List.all_eq_true.1 hall t (by cases t <;> decide)
  · rw [if_neg hall] at h
    cases h

/-- **When the state of the run tells of failed branches**, in every execution and next to
the order of the teardown: exactly when `cleanup` fails itself or no branch can fail. -/
theorem capstone_verdict_iff (exit : Task → ℕ → ℤ) (retries : Task → ℕ) :
    (∀ s, Reach (cap1.Step (bashRunner exit retries)) TaskGraph.start s →
        FailureShown s ∧ TeardownLast s) ↔ ReportsFailure (bashRunner exit retries) := by
  set R := bashRunner exit retries
  constructor
  · intro h
    by_contra hno
    unfold ReportsFailure at hno
    push Not at hno
    obtain ⟨hcl, t, ht, hb, hf⟩ := hno
    obtain ⟨s, hr, hc⟩ :=
      TaskGraph.exists_complete cap1 R _ TaskGraph.start rfl fun _ => trivial
    have hs := TaskGraph.consistent_reach hr
    have hbad : (s t).bad = true := by
      rw [TaskGraph.state_of_ready hs (ready_of_before hs hc t ht hb) (hc t), hf]
      rfl
    -- the leaf is not failed, so the run is a success all the same
    refine (h s hr).1 t ht hbad ?_
    rw [dagState_complete hc, cleanup_state hs hc]
    rcases ho : R.own .cleanup
    · rfl
    · rfl
    · exact absurd ho hcl
  · intro h s hr
    have hs := TaskGraph.consistent_reach hr
    refine ⟨fun t ht hb hsucc => ?_, cleanup_last hr⟩
    rcases h with hcl | hbranch
    · have hc := complete_of_success hsucc
      rw [dagState_complete hc, cleanup_state hs hc, hcl] at hsucc
      cases hsucc
    · exact branch_not_bad hs hbranch t ht hb

/-- `ge_gate` exits with 1, as on a breach; everything else exits with 0, without retries. -/
def gateFails : Runner Task := bashRunner (fun t _ => if t = .geGate then 1 else 0) fun _ => 0

/-- One execution: the CDC branch, then the dbt branch, then `cleanup`. -/
def gateFailsMoves : List Task :=
  [.cdcIngest, .cdcIngest, .sparkTransform, .sparkTransform, .geGate, .geGate,
   .dbtMarts, .dbtMarts, .dbtTest, .dbtTest, .cleanup, .cleanup]

/-- **A failed gate leaves the run marked success.** -/
theorem gate_failure_hidden : ∃ s, Reach (cap1.Step gateFails) TaskGraph.start s ∧
    s .geGate = .failed ∧ dagState s = .success ∧ ¬FailureShown s := by
  have hplay : (cap1.play gateFails TaskGraph.start gateFailsMoves).isSome = true := by decide
  obtain ⟨s, hs⟩ := Option.isSome_iff_exists.1 hplay
  have hge : (cap1.play gateFails TaskGraph.start gateFailsMoves).map (fun s => s .geGate) =
      some .failed := by decide
  have hdag : (cap1.play gateFails TaskGraph.start gateFailsMoves).map dagState = some .success := by
    decide
  rw [hs, Option.map_some, Option.some.injEq] at hge hdag
  refine ⟨s, TaskGraph.reach_of_play _ _ hs, hge, hdag, fun h => ?_⟩
  exact h .geGate (by decide) (by rw [hge]; rfl) hdag

end SparkDev.Capstone
