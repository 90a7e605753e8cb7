import Mathlib.Algebra.Order.Ring.Rat
import Mathlib.Data.Nat.Find
import SparkDev.Runs.Poll

/-!
# `wait_for_connector`

The loop asks for the status until the connector and its tasks run, until something has
failed, or until the deadline. At the deadline it returns the connector's own state as it
last saw it, whatever its tasks are doing.

* `returns_ok_iff`: what the loop returns, poll by poll.
* `returns_failed_iff`: `"FAILED"` is returned exactly when a poll shows a failure.
* `wait_faithful_iff`: `"RUNNING"` means what it says exactly when the deadline does not
  pass on a connector that runs without running tasks.
-/

namespace SparkDev.Connect

open Runs

/-- The body of `GET /connectors/<name>/status`: the state in its `connector` section, and the
states of its `tasks`, each where there is one. -/
structure ConnectorStatus where
  connector : Option (Option String)
  tasks : Option (List (Option String))
  deriving DecidableEq, Repr

/-- `st.get("connector", {}).get("state", "UNKNOWN")`. -/
def ConnectorStatus.state (st : ConnectorStatus) : String := (st.connector.getD none).getD "UNKNOWN"

/-- `{t.get("state") for t in st.get("tasks", [])}`. -/
def ConnectorStatus.taskStates (st : ConnectorStatus) : List (Option String) := st.tasks.getD []

/-- `state == "RUNNING" and tasks and task_states == {"RUNNING"}`. -/
def ConnectorStatus.allRunning (st : ConnectorStatus) : Bool :=
  st.state == "RUNNING" && !st.taskStates.isEmpty && st.taskStates.all fun t => t == some "RUNNING"

/-- `state == "FAILED" or "FAILED" in task_states`. -/
def ConnectorStatus.anyFailed (st : ConnectorStatus) : Bool :=
  st.state == "FAILED" || st.taskStates.contains (some "FAILED")

/-- What the environment shows the loop: the clock at the start and at each test of the loop,
and the answer to each poll, an error when the request raises. -/
structure Watch (ε : Type) where
  start : ℚ
  clock : ℕ → ℚ
  answer : ℕ → Except ε ConnectorStatus

variable {ε : Type} (W : Watch ε) (timeout : ℚ)

/-- The loop, from test `i` on, for at most `fuel` tests. -/
def waitLoop : (fuel i : ℕ) → (state : String) → Option (Except ε String)
  | 0, _, _ => none
  | fuel + 1, i, state =>
    if W.clock i < W.start + timeout then
      match W.answer i with
      | .error e => some (.error e)
      | .ok st =>
        if st.allRunning then some (.ok "RUNNING")
        else if st.anyFailed then some (.ok "FAILED")
        else waitLoop fuel (i + 1) st.state
    else some (.ok state)

/-- `wait_for_connector` returns or raises `r`. -/
def Returns (r : Except ε String) : Prop := ∃ fuel, waitLoop W timeout fuel 0 "UNKNOWN" = some r

/-- Poll `k` is before the deadline, and no request before it raised. -/
def Polled (k : ℕ) : Prop :=
  (∀ j ≤ k, W.clock j < W.start + timeout) ∧ ∀ j < k, ∃ st, W.answer j = .ok st

/-- Poll `k` shows `P`. -/
def Shows (k : ℕ) (P : ConnectorStatus → Prop) : Prop := ∃ st, W.answer k = .ok st ∧ P st

/-- The loop reports what it saw. -/
structure Faithful : Prop where
  running : Returns W timeout (.ok "RUNNING") → ∃ k, Polled W timeout k ∧ Shows W k fun st => st.allRunning
  failed : Returns W timeout (.ok "FAILED") ↔ ∃ k, Polled W timeout k ∧ (Shows W k fun st => st.anyFailed) ∧
    ∀ j < k, ¬Shows W j fun st => st.allRunning

/-- The deadline passes after poll `k`, which shows the connector running, and no poll has
shown all of it running or a part of it failed. -/
def LeftRunning : Prop :=
  ∃ k, Polled W timeout k ∧ W.start + timeout ≤ W.clock (k + 1) ∧ (Shows W k fun st => st.state = "RUNNING") ∧
    ∀ j ≤ k, Shows W j fun st => st.allRunning = false ∧ st.anyFailed = false

/-- What poll `k` decides. -/
def verdict (st : ConnectorStatus) : Option String :=
  if st.allRunning then some "RUNNING" else if st.anyFailed then some "FAILED" else none

/-- The value of `state` at test `k`. -/
def stateBefore : ℕ → String
  | 0 => "UNKNOWN"
  | k + 1 =>
    match W.answer k with
    | .error _ => "UNKNOWN"
    | .ok st => st.state

/-- What test `k` decides. -/
def turn (k : ℕ) : Option (Except ε String) :=
  if W.clock k < W.start + timeout then
    match W.answer k with
    | .error e => some (.error e)
    | .ok st => (verdict st).map .ok
  else some (.ok (stateBefore W k))

variable {W timeout} {k : ℕ} {st : ConnectorStatus} {r : String}

theorem turn_eq_none : turn W timeout k = none ↔
    W.clock k < W.start + timeout ∧ Shows W k fun st => verdict st = none := by
  unfold turn Shows
  by_cases hc : W.clock k < W.start + timeout
  · rw [if_pos hc]
    rcases W.answer k with e | st <;> simp [hc]
  · simp [hc]

theorem stateBefore_zero : stateBefore W 0 = "UNKNOWN" := rfl

theorem stateBefore_succ (h : W.answer k = .ok st) : stateBefore W (k + 1) = st.state := by
  simp only [stateBefore, h]

theorem turn_ok (hc : W.clock k < W.start + timeout) (h : W.answer k = .ok st) :
    turn W timeout k = (verdict st).map .ok := by
  unfold turn
  rw [if_pos hc, h]

/-- The loop is a search for the first test that decides. -/
theorem waitLoop_eq : ∀ (fuel i : ℕ),
    waitLoop W timeout fuel i (stateBefore W i) = firstSome (turn W timeout) fuel i := by
  intro fuel
  induction fuel with
  | zero => intro i; rfl
  | succ fuel ih =>
    intro i
    have hnext := ih (i + 1)
    unfold waitLoop firstSome
    -- a turn ends the loop with an error, with a verdict or at the deadline
    by_cases hc : W.clock i < W.start + timeout
    · rw [if_pos hc]
      rcases h : W.answer i with e | st
      · have hturn : turn W timeout i = some (.error e) := by
          unfold turn
          rw [if_pos hc, h]
        rw [hturn]
      · rw [turn_ok hc h, ← hnext, stateBefore_succ h]
        unfold verdict
        dsimp only
        rcases st.allRunning
        · rcases st.anyFailed <;> rfl
        · rfl
    · have hturn : turn W timeout i = some (.ok (stateBefore W i)) := by
        unfold turn
        rw [if_neg hc]
      rw [if_neg hc, hturn]

theorem allRunning_iff : st.allRunning = true ↔ st.state = "RUNNING" ∧ st.taskStates ≠ [] ∧
    ∀ t ∈ st.taskStates, t = some "RUNNING" := by
  unfold ConnectorStatus.allRunning
  simp [and_assoc]

/-- What runs has not failed. -/
theorem anyFailed_of_allRunning (h : st.allRunning = true) : st.anyFailed = false := by
  obtain ⟨hstate, -, htasks⟩ := allRunning_iff.1 h
  unfold ConnectorStatus.anyFailed
  rw [Bool.or_eq_false_iff, hstate]
  refine ⟨by decide, ?_⟩
  rw [List.contains_eq_mem, decide_eq_false_iff_not]
  intro hmem
  exact absurd (htasks _ hmem) (by decide)

theorem verdict_eq_running : verdict st = some "RUNNING" ↔ st.allRunning = true := by
  unfold verdict
  rcases st.allRunning <;> rcases st.anyFailed <;> simp

theorem verdict_eq_failed : verdict st = some "FAILED" ↔ st.anyFailed = true := by
  unfold verdict
  rcases h : st.allRunning
  · rcases st.anyFailed <;> simp
  · rw [anyFailed_of_allRunning h]
    simp

theorem verdict_eq_none : verdict st = none ↔ st.allRunning = false ∧ st.anyFailed = false := by
  unfold verdict
  rcases st.allRunning <;> rcases st.anyFailed <;> simp

/-- **What the loop returns**: the verdict of the first poll that has one, or the state before
the first test past the deadline. -/
theorem returns_ok_iff : Returns W timeout (.ok r) ↔ ∃ k,
    ((W.clock k < W.start + timeout ∧ Shows W k fun st => verdict st = some r) ∨
      (W.start + timeout ≤ W.clock k ∧ stateBefore W k = r)) ∧
      ∀ j < k, W.clock j < W.start + timeout ∧ Shows W j fun st => verdict st = none := by
  have hloop : ∀ fuel, waitLoop W timeout fuel 0 "UNKNOWN" = firstSome (turn W timeout) fuel 0 :=
    fun fuel => waitLoop_eq fuel 0
  have hturn : ∀ k, turn W timeout k = some (.ok r) ↔
      (W.clock k < W.start + timeout ∧ Shows W k fun st => verdict st = some r) ∨
        (W.start + timeout ≤ W.clock k ∧ stateBefore W k = r) := by
    intro k
    unfold turn Shows
    by_cases hc : W.clock k < W.start + timeout
    · rw [if_pos hc]
      rcases W.answer k with e | st
      · simp [hc, not_le.2 hc]
      · simp [hc, not_le.2 hc]
    · simp [hc, not_lt.1 hc]
  unfold Returns
  simp only [hloop, exists_firstSome_eq_some, hturn, turn_eq_none]

/-- The polls before the first test that decides. -/
theorem polled_of_quiet (hc : W.clock k < W.start + timeout)
    (h : ∀ j < k, W.clock j < W.start + timeout ∧ Shows W j fun st => verdict st = none) :
    Polled W timeout k := by
  refine ⟨fun j hj => ?_, fun j hj => ?_⟩
  · rcases Nat.eq_or_lt_of_le hj with rfl | hlt
    · exact hc
    · exact (h j hlt).1
  · obtain ⟨st, hst, -⟩ := (h j hj).2
    exact ⟨st, hst⟩

theorem quiet_iff {j : ℕ} : (Shows W j fun st => verdict st = none) ↔
    Shows W j fun st => st.allRunning = false ∧ st.anyFailed = false := by
  unfold Shows
  simp only [verdict_eq_none]

/-- The state of a poll without a verdict is not `"FAILED"`. -/
theorem stateBefore_ne_failed (h : ∀ j < k, Shows W j fun st => verdict st = none) :
    stateBefore W k ≠ "FAILED" := by
  rcases k with _ | k
  · rw [stateBefore_zero]
    decide
  · obtain ⟨st, hst, hv⟩ := h k (Nat.lt_succ_self k)
    rw [stateBefore_succ hst]
    intro hstate
    have hfailed := (verdict_eq_none.1 hv).2
    simp [ConnectorStatus.anyFailed, hstate] at hfailed

/-- Up to a poll with a verdict there is a first one. -/
theorem exists_first_verdict (hp : Polled W timeout k) (hv : Shows W k fun st => verdict st ≠ none) :
    ∃ i ≤ k, (Shows W i fun st => verdict st ≠ none) ∧
      ∀ j < i, W.clock j < W.start + timeout ∧ Shows W j fun st => verdict st = none := by
  classical
  have hex : ∃ i, Shows W i fun st => verdict st ≠ none := ⟨k, hv⟩
  have hle : Nat.find hex ≤ k := Nat.find_le hv
  refine ⟨Nat.find hex, hle, Nat.find_spec hex, fun j hj => ?_⟩
  obtain ⟨st, hst⟩ := hp.2 j (by omega)
  refine ⟨hp.1 j (by omega), st, hst, ?_⟩
  by_contra hne
  exact Nat.find_min hex hj ⟨st, hst, hne⟩

/-- **`"FAILED"` is returned exactly when a poll shows a failure** and none before it showed
everything running. -/
theorem returns_failed_iff : Returns W timeout (.ok "FAILED") ↔ ∃ k, Polled W timeout k ∧
    (Shows W k fun st => st.anyFailed) ∧ ∀ j < k, ¬Shows W j fun st => st.allRunning := by
  rw [returns_ok_iff]
  constructor
  · rintro ⟨k, hdecides, hquiet⟩
    have hrunning : ∀ j < k, ¬Shows W j fun st => st.allRunning := by
      rintro j hj ⟨st, hst, hrun⟩
      obtain ⟨st', hst', hv⟩ := (hquiet j hj).2
      obtain rfl : st = st' := Except.ok.inj (hst.symm.trans hst')
      rw [(verdict_eq_none.1 hv).1] at hrun
      cases hrun
    rcases hdecides with ⟨hc, st, hst, hv⟩ | ⟨-, hstate⟩
    · exact ⟨k, polled_of_quiet hc hquiet, ⟨st, hst, verdict_eq_failed.1 hv⟩, hrunning⟩
    · exact absurd hstate (stateBefore_ne_failed fun j hj => (hquiet j hj).2)
  · rintro ⟨k, hp, ⟨st, hst, hfailed⟩, hrunning⟩
    have hv : verdict st = some "FAILED" := verdict_eq_failed.2 hfailed
    obtain ⟨i, hi, ⟨st', hst', hv'⟩, hquiet⟩ :=
      exists_first_verdict hp ⟨st, hst, fun hnone => Option.some_ne_none _ (hv.symm.trans hnone)⟩
    -- the first verdict is not RUNNING, so it is FAILED
    refine ⟨i, Or.inl ⟨hp.1 i hi, st', hst', ?_⟩, hquiet⟩
    rcases Nat.eq_or_lt_of_le hi with rfl | hlt
    · obtain rfl : st = st' := Except.ok.inj (hst.symm.trans hst')
      exact hv
    · have hnot : st'.allRunning = false := by
        rw [← Bool.not_eq_true]
        exact fun hrun => hrunning i hlt ⟨st', hst', hrun⟩
      rw [verdict_eq_failed, ← Bool.not_eq_false]
      exact fun hno => hv' (verdict_eq_none.2 ⟨hnot, hno⟩)

/-- `"RUNNING"` is returned for a poll that shows everything running, or at the deadline. -/
theorem returns_running_iff : Returns W timeout (.ok "RUNNING") ↔
    (∃ k, (W.clock k < W.start + timeout ∧ Shows W k fun st => st.allRunning) ∧
      ∀ j < k, W.clock j < W.start + timeout ∧ Shows W j fun st => verdict st = none) ∨
    LeftRunning W timeout := by
  rw [returns_ok_iff]
  constructor
  · rintro ⟨k, ⟨hc, st, hst, hv⟩ | ⟨hc, hstate⟩, hquiet⟩
    · exact Or.inl ⟨k, ⟨hc, st, hst, verdict_eq_running.1 hv⟩, hquiet⟩
    · -- the deadline has passed: the state is that of the last poll
      rcases k with _ | k
      · rw [stateBefore_zero] at hstate
        exact absurd hstate (by decide)
      · obtain ⟨hck, st, hst, -⟩ := hquiet k (Nat.lt_succ_self k)
        rw [stateBefore_succ hst] at hstate
        refine Or.inr ⟨k, polled_of_quiet hck fun j hj => hquiet j (by omega), hc, ⟨st, hst, hstate⟩,
          fun j hj => quiet_iff.1 (hquiet j (by omega)).2⟩
  · rintro (⟨k, ⟨hc, st, hst, hrun⟩, hquiet⟩ | ⟨k, hp, hc, ⟨st, hst, hstate⟩, hquiet⟩)
    · exact ⟨k, Or.inl ⟨hc, st, hst, verdict_eq_running.2 hrun⟩, hquiet⟩
    · refine ⟨k + 1, Or.inr ⟨hc, ?_⟩, fun j hj => ⟨hp.1 j (by omega), quiet_iff.2 (hquiet j (by omega))⟩⟩
      exact (stateBefore_succ hst).trans hstate

/-- **When the returned state is faithful**: exactly when the deadline does not pass right
after a poll that shows the connector running, with nothing decided by then. -/
theorem wait_faithful_iff (W : Watch ε) (timeout : ℚ) :
    Faithful W timeout ↔ ¬LeftRunning W timeout := by
  constructor
  · rintro hf ⟨k, hp, hc, hrun, hquiet⟩
    obtain ⟨i, hpi, st, hst, hall⟩ := hf.running (returns_running_iff.2 (Or.inr ⟨k, hp, hc, hrun, hquiet⟩))
    -- that poll is before the deadline, so it is one of those that decided nothing
    have hi : i ≤ k := by
      by_contra hlt
      exact absurd (hpi.1 (k + 1) (by omega)) (not_lt.2 hc)
    obtain ⟨st', hst', hnot, -⟩ := hquiet i hi
    obtain rfl : st = st' := Except.ok.inj (hst.symm.trans hst')
    rw [hnot] at hall
    cases hall
  · intro hleft
    refine ⟨fun h => ?_, returns_failed_iff⟩
    rcases returns_running_iff.1 h with ⟨k, ⟨hc, hrun⟩, hquiet⟩ | h
    · exact ⟨k, polled_of_quiet hc hquiet, hrun⟩
    · exact absurd h hleft

/-- A connector that runs and is never given a task, seen once before the deadline. -/
def noTasks : Watch Empty where
  start := 0
  clock k := 60 * k
  answer _ := .ok ⟨some (some "RUNNING"), some []⟩

/-- **`"RUNNING"` without a task.** -/
theorem running_without_tasks :
    Returns noTasks 60 (.ok "RUNNING") ∧ (∀ k, ¬Shows noTasks k fun st => st.allRunning) ∧
      ¬Faithful noTasks 60 := by
  have hret : Returns noTasks 60 (.ok "RUNNING") := ⟨2, by decide +kernel⟩
  have hnever : ∀ k, ¬Shows noTasks k fun st => st.allRunning := by
    rintro k ⟨st, hst, hrun⟩
    obtain rfl := Except.ok.inj hst
    exact absurd hrun (by decide)
  refine ⟨hret, hnever, fun hf => ?_⟩
  obtain ⟨k, -, hshows⟩ := hf.running hret
  exact hnever k hshows

/-- When the clock reaches the deadline the loop ends. -/
theorem wait_returns (hpast : ∃ k, W.start + timeout ≤ W.clock k) : ∃ r, Returns W timeout r := by
  obtain ⟨k, hk⟩ := hpast
  have hturn : turn W timeout k = some (.ok (stateBefore W k)) := by
    unfold turn
    rw [if_neg (not_lt.2 hk)]
  rcases h : waitLoop W timeout (k + 1) 0 "UNKNOWN" with _ | r
  · have hloop : waitLoop W timeout (k + 1) 0 (stateBefore W 0) = none := h
    rw [waitLoop_eq, firstSome_eq_none] at hloop
    rw [hloop k (Nat.zero_le k) (by omega)] at hturn
    cases hturn
  · exact ⟨r, k + 1, h⟩

end SparkDev.Connect
