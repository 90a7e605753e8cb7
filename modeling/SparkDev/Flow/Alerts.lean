import SparkDev.Flow.TaskGraph

/-!
# Callbacks

A task calls back when an attempt failed that will be repeated (`on_retry_callback`), and when
its last attempt failed (`on_failure_callback`). `Alerted` counts the calls of a run.

* `reach_alerts`: in every reachable state, what the counts and the attempts say of each other.
-/

namespace SparkDev.Flow

open Runs

/-- The states of all tasks, and how often each has called back. -/
structure Alerted (τ : Type*) where
  state : State τ
  /-- Calls of `on_retry_callback`. -/
  retried : τ → ℕ
  /-- Calls of `on_failure_callback`. -/
  failed : τ → ℕ

/-- The calls of `on_retry_callback` when a task comes to a state. -/
def TaskState.retryCalls : TaskState → ℕ
  | .upForRetry _ => 1
  | _ => 0

/-- The calls of `on_failure_callback`. -/
def TaskState.failureCalls : TaskState → ℕ
  | .failed => 1
  | _ => 0

namespace TaskGraph

variable {τ : Type*} [DecidableEq τ]

/-- No task has been touched. -/
def alertStart : Alerted τ := ⟨start, fun _ => 0, fun _ => 0⟩

/-- A task comes to a state and calls back. -/
def alert (a : Alerted τ) (t : τ) (x : TaskState) : Alerted τ where
  state := Function.update a.state t x
  retried := Function.update a.retried t (a.retried t + x.retryCalls)
  failed := Function.update a.failed t (a.failed t + x.failureCalls)

/-- One task moves. -/
def AlertStep (G : TaskGraph τ) (R : Runner τ) (a : Alerted τ) (t : τ) (a' : Alerted τ) : Prop :=
  ∃ x, G.advance R a.state t = some x ∧ a' = alert a t x

/-- The attempts from the first to the `n`-th failed. -/
def FailedTo (R : Runner τ) (t : τ) (n : ℕ) : Prop := ∀ j, 1 ≤ j → j ≤ n → R.outcome t j = .failed

/-- What the state of a task says of its attempts and of its calls. -/
def CallsOK (R : Runner τ) (t : τ) (retried failed : ℕ) : TaskState → Prop
  | .none => retried = 0 ∧ failed = 0
  | .running k => k = retried + 1 ∧ k ≤ R.retries t + 1 ∧ FailedTo R t retried ∧ failed = 0
  | .upForRetry k => k = retried ∧ k ≤ R.retries t ∧ FailedTo R t retried ∧ failed = 0
  | .success => retried ≤ R.retries t ∧ FailedTo R t retried ∧ R.outcome t (retried + 1) = .success ∧ failed = 0
  | .failed => retried = R.retries t ∧ FailedTo R t (retried + 1) ∧ failed = 1
  | .upstreamFailed => retried = 0 ∧ failed = 0
  | .skipped => retried ≤ R.retries t ∧ failed = 0

/-- The calls of every task are as its state says. -/
def CallsConsistent (R : Runner τ) (a : Alerted τ) : Prop :=
  ∀ t, CallsOK R t (a.retried t) (a.failed t) (a.state t)

variable {G : TaskGraph τ} {R : Runner τ} {a a' : Alerted τ} {s : State τ} {t u : τ}

omit [DecidableEq τ] in
theorem FailedTo.succ {n : ℕ} (h : FailedTo R t n) (hn : R.outcome t (n + 1) = .failed) :
    FailedTo R t (n + 1) := by
  intro j h1 hj
  rcases Nat.lt_or_ge n j with hlt | hge
  · have heq : j = n + 1 := by omega
    rw [heq, hn]
  · exact h j h1 hge

omit [DecidableEq τ] in
/-- **One move of a task** keeps what its state says of its calls. -/
theorem Moves.calls {x y : TaskState} {n m : ℕ} (hmove : G.Moves R s t y x) (hok : CallsOK R t n m y) :
    CallsOK R t (n + x.retryCalls) (m + x.failureCalls) x := by
  cases hmove with
  | run hready =>
    obtain ⟨rfl, rfl⟩ := hok
    have hnone : FailedTo R t 0 := fun j h1 hj => by omega
    exact ⟨rfl, Nat.succ_le_succ (Nat.zero_le _), hnone, rfl⟩
  | skip _ _ =>
    obtain ⟨rfl, rfl⟩ := hok
    exact ⟨Nat.zero_le _, rfl⟩
  | fail _ _ =>
    obtain ⟨rfl, rfl⟩ := hok
    exact ⟨rfl, rfl⟩
  | @finish k ho =>
    obtain ⟨rfl, hk, hfailed, rfl⟩ := hok
    have hle : n ≤ R.retries t := by omega
    rcases ho' : R.outcome t (n + 1)
    · exact ⟨hle, hfailed, ho', rfl⟩
    · exact ⟨hle, rfl⟩
    · exact absurd ho' ho
  | @retry k ho hk =>
    -- the attempt that failed is one more
    obtain ⟨rfl, -, hfailed, rfl⟩ := hok
    exact ⟨rfl, hk, hfailed.succ ho, rfl⟩
  | @giveUp k ho hk =>
    obtain ⟨rfl, hk', hfailed, rfl⟩ := hok
    have hlast : n = R.retries t := by omega
    exact ⟨hlast, hfailed.succ ho, rfl⟩
  | @again k =>
    obtain ⟨rfl, hk, hfailed, rfl⟩ := hok
    exact ⟨rfl, by omega, hfailed, rfl⟩

/-- **One step.** -/
theorem callsConsistent_step (h : CallsConsistent R a) (hs : G.AlertStep R a t a') : CallsConsistent R a' := by
  obtain ⟨x, hx, rfl⟩ := hs
  intro u
  by_cases hu : u = t
  · subst hu
    have hstate : (alert a u x).state u = x := Function.update_self ..
    have hretried : (alert a u x).retried u = a.retried u + x.retryCalls := Function.update_self ..
    have hfailed : (alert a u x).failed u = a.failed u + x.failureCalls := Function.update_self ..
    rw [hstate, hretried, hfailed]
    exact (moves_of_advance hx).calls (h u)
  · have hsame : (alert a t x).state u = a.state u := Function.update_of_ne hu _ _
    have hretried : (alert a t x).retried u = a.retried u := Function.update_of_ne hu _ _
    have hfailed : (alert a t x).failed u = a.failed u := Function.update_of_ne hu _ _
    rw [hsame, hretried, hfailed]
    exact h u

/-- **The calls of every reachable state.** -/
theorem reach_alerts (h : Reach (G.AlertStep R) alertStart a) :
    G.Consistent R a.state ∧ CallsConsistent R a := by
  have hstart : CallsConsistent R (alertStart : Alerted τ) := fun _ => ⟨rfl, rfl⟩
  have hstate : Reach (G.Step R) start a.state :=
    reach_map Alerted.state (fun b t b' hs => ⟨t, by
      obtain ⟨x, hx, rfl⟩ := hs
      exact ⟨x, hx, rfl⟩⟩) h
  exact ⟨consistent_reach hstate,
    reach_invariant (I := CallsConsistent R) (fun _ _ _ => callsConsistent_step) hstart h⟩

/-- The tasks of a list move one after the other, `none` when one of them stays. -/
def alertPlay (G : TaskGraph τ) (R : Runner τ) : Alerted τ → List τ → Option (Alerted τ)
  | a, [] => some a
  | a, t :: ts => (G.advance R a.state t).bind fun x => G.alertPlay R (alert a t x) ts

theorem reach_of_alertPlay : ∀ (ts : List τ) (a : Alerted τ), G.alertPlay R a ts = some a' →
    Reach (G.AlertStep R) a a' := by
  intro ts
  induction ts with
  | nil => intro a h; cases h; exact reach_refl _
  | cons t ts ih =>
    intro a h
    obtain ⟨x, hx, h⟩ := Option.bind_eq_some_iff.1 h
    exact (reach_step ⟨x, hx, rfl⟩).trans (ih _ h)

omit [DecidableEq τ] in
/-- Attempts none of which skips do not come to a skip. -/
theorem own_ne_skipped (h : ∀ k, R.outcome t k ≠ .skipped) : R.own t ≠ .skipped := by
  have hfrom : ∀ n k, R.ownFrom t n k ≠ .skipped := by
    intro n
    induction n with
    | zero => intro k hk; cases hk
    | succ n ih =>
      intro k
      rw [Runner.ownFrom]
      split
      · exact ih (k + 1)
      · exact h k
  exact hfrom _ _

end TaskGraph

end SparkDev.Flow
