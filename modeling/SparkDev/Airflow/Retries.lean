import SparkDev.Flow.Alerts
import SparkDev.Flow.Line

/-!
# Retries

`af4_retries_sla`: `flaky_extract >> downstream_load`. Every task has `retries=3`, a callback
between attempts and one after the last. The lab's extract raises on its first two attempts;
the docstring also describes one that never recovers.

* `retries_final`: for an extract that raises on its first `f` attempts and any number of
  retries, the end of every run and the calls it made.
-/

namespace SparkDev.Airflow.Af4

open SparkDev.Flow Runs

/-- The tasks of `af4_retries_sla`. -/
inductive Task where
  | flakyExtract
  | downstreamLoad
  deriving DecidableEq, Repr

/-- The tasks of the DAG. -/
def tasks : List Task := [.flakyExtract, .downstreamLoad]

instance : Fintype Task := ⟨⟨tasks, by decide⟩, by intro t; cases t <;> decide⟩

/-- The DAG. -/
def af4 : TaskGraph Task where
  upstream
    | .flakyExtract => []
    | .downstreamLoad => [.flakyExtract]
  rule _ := .allSuccess
  rank
    | .flakyExtract => 0
    | .downstreamLoad => 1
  acyclic := by decide

/-- `flaky_extract` raises while `try_number <= f`. -/
def flaky (f retries : ℕ) : Runner Task where
  outcome
    | .flakyExtract, k => if k ≤ f then .failed else .success
    | .downstreamLoad, _ => .success
  retries _ := retries

/-- The state of the DAG run. -/
def dagState (s : State Task) : RunState := af4.runState tasks s

variable {f retries : ℕ} {a : Alerted Task}

theorem leaves_af4 : af4.leaves tasks = [.downstreamLoad] := by decide

theorem dagState_complete {s : State Task} (hc : TaskGraph.Complete s) :
    dagState s = if (s .downstreamLoad).bad then .failed else .success := by
  have hall : (tasks.all fun t => (s t).terminal) = true := List.all_eq_true.2 fun t _ => hc t
  unfold dagState TaskGraph.runState
  rw [if_pos hall, leaves_af4]
  simp

/-- `downstream_load` does not fail by itself. -/
theorem own_downstream : (flaky f retries).own .downstreamLoad = .success := by
  unfold Runner.own
  rw [Runner.ownFrom]
  rfl

/-- The attempts of the extract that raise are the first `f`. -/
theorem failedTo_extract {n : ℕ} : TaskGraph.FailedTo (flaky f retries) .flakyExtract n ↔ n ≤ f := by
  have houtcome : ∀ k, (flaky f retries).outcome .flakyExtract k = if k ≤ f then .failed else .success :=
    fun _ => rfl
  constructor
  · intro h
    rcases Nat.eq_zero_or_pos n with hzero | hpos
    · omega
    · have hlast := h n hpos (Nat.le_refl n)
      rw [houtcome] at hlast
      by_contra hgt
      rw [if_neg hgt] at hlast
      cases hlast
  · intro hn j _ hj
    rw [houtcome, if_pos (hj.trans hn)]

/-- The extract that is over has raised as often as it could, or `f` times. -/
theorem extract_final (hs : af4.Consistent (flaky f retries) a.state)
    (hcalls : TaskGraph.CallsConsistent (flaky f retries) a) (hterm : (a.state .flakyExtract).terminal = true) :
    (f ≤ retries ∧ a.state .flakyExtract = .success ∧ a.retried .flakyExtract = f ∧
        a.failed .flakyExtract = 0) ∨
      (retries < f ∧ a.state .flakyExtract = .failed ∧ a.retried .flakyExtract = retries ∧
        a.failed .flakyExtract = 1) := by
  have hok := hcalls .flakyExtract
  have hstate := hs .flakyExtract
  have houtcome : ∀ k, (flaky f retries).outcome .flakyExtract k = if k ≤ f then .failed else .success :=
    fun _ => rfl
  rcases hst : a.state .flakyExtract with _ | k | k | _ | _ | _ | _ <;> rw [hst] at hok hstate hterm
  · cases hterm
  · cases hterm
  · cases hterm
  · -- the attempts before it raised, so there were no more than `f` of them
    obtain ⟨hle, hfailed, hsucc, hnone⟩ := hok
    have hge := failedTo_extract.1 hfailed
    have hlt : f < a.retried .flakyExtract + 1 := by
      rw [houtcome] at hsucc
      by_contra hge
      rw [if_pos (by omega)] at hsucc
      cases hsucc
    have heq : a.retried .flakyExtract = f := by omega
    exact Or.inl ⟨by rw [← heq]; exact hle, rfl, heq, hnone⟩
  · -- the last attempt was allowed and raised as well
    obtain ⟨heq, hfailed, hone⟩ := hok
    have hlt := failedTo_extract.1 hfailed
    have heq' : a.retried .flakyExtract = retries := heq
    exact Or.inr ⟨by omega, rfl, heq', hone⟩
  · -- the first task waits for nobody, so it is neither skipped nor failed by another
    obtain ⟨-, u, hu, -⟩ := hstate
    exact absurd hu List.not_mem_nil
  · rcases hstate with ⟨-, hown⟩ | ⟨-, u, hu, -⟩
    · refine absurd hown (TaskGraph.own_ne_skipped fun k => ?_)
      rw [houtcome]
      split <;> decide
    · exact absurd hu List.not_mem_nil

/-- `downstream_load` never calls back. -/
theorem load_calls (hcalls : TaskGraph.CallsConsistent (flaky f retries) a)
    (hload : a.state .downstreamLoad = .success ∨ a.state .downstreamLoad = .upstreamFailed) :
    a.retried .downstreamLoad = 0 ∧ a.failed .downstreamLoad = 0 := by
  have hok := hcalls .downstreamLoad
  rcases hload with h | h <;> rw [h] at hok
  · obtain ⟨-, hfailed, -, hnone⟩ := hok
    refine ⟨?_, hnone⟩
    by_contra hpos
    cases hfailed 1 (Nat.le_refl 1) (by omega)
  · exact hok

/-- **The end of every run**, whatever the order of the tasks. An extract that raises on its first `f`
attempts recovers when there are at least `f` retries: the retry callback has fired `f` times, the
failure callback never, the load has run and the run is a success. With fewer retries each of them
has fired the retry callback, the failure callback has fired once, and the load and the run have
failed. The load calls nobody. -/
theorem retries_final (f retries : ℕ) (a : Alerted Task)
    (hr : Reach (af4.AlertStep (flaky f retries)) TaskGraph.alertStart a) (hc : TaskGraph.Complete a.state) :
    (f ≤ retries → a.state .flakyExtract = .success ∧ a.state .downstreamLoad = .success ∧
      dagState a.state = .success ∧ a.retried .flakyExtract = f ∧ a.failed .flakyExtract = 0) ∧
    (retries < f → a.state .flakyExtract = .failed ∧ a.state .downstreamLoad = .upstreamFailed ∧
      dagState a.state = .failed ∧ a.retried .flakyExtract = retries ∧ a.failed .flakyExtract = 1) ∧
    a.retried .downstreamLoad = 0 ∧ a.failed .downstreamLoad = 0 := by
  obtain ⟨hs, hcalls⟩ := TaskGraph.reach_alerts hr
  -- the second task follows the first
  rcases extract_final hs hcalls (hc .flakyExtract) with ⟨hle, hextract, hretried, hfailed⟩ |
    ⟨hlt, hextract, hretried, hfailed⟩
  · have hload : a.state .downstreamLoad = .success := by
      rw [TaskGraph.state_of_single hs rfl rfl (hc .downstreamLoad), hextract, own_downstream]
      rfl
    have hdag : dagState a.state = .success := by
      rw [dagState_complete hc, hload]
      rfl
    exact ⟨fun _ => ⟨hextract, hload, hdag, hretried, hfailed⟩, fun h => absurd hle (by omega),
      load_calls hcalls (Or.inl hload)⟩
  · have hload : a.state .downstreamLoad = .upstreamFailed := by
      rw [TaskGraph.state_of_single hs rfl rfl (hc .downstreamLoad), hextract]
      rfl
    have hdag : dagState a.state = .failed := by
      rw [dagState_complete hc, hload]
      rfl
    exact ⟨fun h => absurd hlt (by omega), fun _ => ⟨hextract, hload, hdag, hretried, hfailed⟩,
      load_calls hcalls (Or.inr hload)⟩

/-- The lab: two failures, three retries. -/
def labMoves : List Task :=
  [.flakyExtract, .flakyExtract, .flakyExtract, .flakyExtract, .flakyExtract, .flakyExtract, .downstreamLoad,
    .downstreamLoad]

/-- The third attempt of the lab succeeds, after two calls of the retry callback. -/
theorem retries_final_lab : ∃ a, Reach (af4.AlertStep (flaky 2 3)) TaskGraph.alertStart a ∧
    dagState a.state = .success ∧ a.retried .flakyExtract = 2 ∧ a.failed .flakyExtract = 0 := by
  have hplay : (af4.alertPlay (flaky 2 3) TaskGraph.alertStart labMoves).isSome = true := by decide
  obtain ⟨a, ha⟩ := Option.isSome_iff_exists.1 hplay
  have hterm : (af4.alertPlay (flaky 2 3) TaskGraph.alertStart labMoves).map
      (fun a => tasks.all fun t => (a.state t).terminal) = some true := by decide
  rw [ha, Option.map_some, Option.some.injEq, List.all_eq_true] at hterm
  have hreach := TaskGraph.reach_of_alertPlay _ _ ha
  obtain ⟨hok, -, -⟩ := retries_final 2 3 a hreach fun t => hterm t (by cases t <;> decide)
  obtain ⟨-, -, hdag, hretried, hfailed⟩ := hok (by decide)
  exact ⟨a, hreach, hdag, hretried, hfailed⟩

end SparkDev.Airflow.Af4
