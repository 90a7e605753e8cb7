import SparkDev.Runs.Chain
import Mathlib.Algebra.BigOperators.Group.Finset.Basic
import Mathlib.Algebra.Order.BigOperators.Group.Finset
import Mathlib.Data.Fintype.Basic

/-!
# Runs of a graph of tasks

A scheduler starts a task when its trigger rule allows it, retries an attempt that
failed while retries are left, and marks a task without running it when the rule
can no longer be met. `Step` moves one task; a run interleaves the tasks in any
order, and an attempt may take as long as it likes.

* `consistent_reach`: what the state of a task says about its upstream tasks and
  about its own attempts, in every reachable state.
* `state_of_ready`: a task that had its turn ends as its own attempts do.
* `exists_complete`: a run can always be brought to an end.
-/

namespace SparkDev.Flow

open Runs

/-- When a task may run. -/
inductive TriggerRule where
  | allSuccess
  | allDone
  deriving DecidableEq, Repr

/-- How an attempt ends. -/
inductive Outcome where
  | success
  | skipped
  | failed
  deriving DecidableEq, Repr

/-- The state of a task; attempts count from 1. -/
inductive TaskState where
  | none
  | running (attempt : ℕ)
  | upForRetry (attempt : ℕ)
  | success
  | failed
  | upstreamFailed
  | skipped
  deriving DecidableEq, Repr

namespace TaskState

/-- The task is over. -/
def terminal : TaskState → Bool
  | success | failed | upstreamFailed | skipped => true
  | _ => false

/-- The task counts as failed. -/
def bad : TaskState → Bool
  | failed | upstreamFailed => true
  | _ => false

end TaskState

/-- The state of a run. -/
inductive RunState where
  | running
  | success
  | failed
  deriving DecidableEq, Repr

/-- The state of a task whose last attempt ended so. -/
def Outcome.state : Outcome → TaskState
  | success => .success
  | skipped => .skipped
  | failed => .failed

/-- Tasks with their upstream tasks and trigger rules, without cycles. -/
structure TaskGraph (τ : Type*) where
  upstream : τ → List τ
  rule : τ → TriggerRule
  rank : τ → ℕ
  acyclic : ∀ t, ∀ u ∈ upstream t, rank u < rank t

/-- How each attempt of each task ends, and how often a failed one is repeated. -/
structure Runner (τ : Type*) where
  outcome : τ → ℕ → Outcome
  retries : τ → ℕ

/-- What the attempts from the `k`-th on come to, when `n` of them are left. -/
def Runner.ownFrom {τ : Type*} (R : Runner τ) (t : τ) : ℕ → ℕ → Outcome
  | 0, _ => .failed
  | n + 1, k => if R.outcome t k = .failed then R.ownFrom t n (k + 1) else R.outcome t k

/-- What the attempts of a task come to. -/
def Runner.own {τ : Type*} (R : Runner τ) (t : τ) : Outcome := R.ownFrom t (R.retries t + 1) 1

/-- The attempt in hand is the first of those left. -/
theorem Runner.ownFrom_attempt {τ : Type*} {R : Runner τ} {t : τ} {k : ℕ} (hk : k ≤ R.retries t + 1) :
    R.ownFrom t (R.retries t + 2 - k) k =
      if R.outcome t k = .failed then R.ownFrom t (R.retries t + 1 - k) (k + 1) else R.outcome t k := by
  have hn : R.retries t + 2 - k = (R.retries t + 1 - k) + 1 := by omega
  rw [hn, Runner.ownFrom]

/-- What a trigger rule says. -/
inductive Turn where
  | wait
  | run
  | skip
  | fail
  deriving DecidableEq, Repr

/-- The state of an upstream task with which the rule lets a task run. -/
def TriggerRule.accepts : TriggerRule → TaskState → Bool
  | allSuccess, u => decide (u = .success)
  | allDone, u => u.terminal

/-- The rule, on the states of the upstream tasks. -/
def TriggerRule.turn : TriggerRule → List TaskState → Turn
  | allSuccess, us =>
    if us.any TaskState.bad then .fail
    else if us.any (fun u => decide (u = .skipped)) then .skip
    else if us.all (accepts allSuccess) then .run
    else .wait
  | allDone, us => if us.all (accepts allDone) then .run else .wait

variable {τ : Type*}

/-- The states of all tasks. -/
abbrev State (τ : Type*) := τ → TaskState

namespace TaskGraph

/-- No task has been touched. -/
def start : State τ := fun _ => .none

/-- The next state of a task, `none` when it stays. -/
def advance (G : TaskGraph τ) (R : Runner τ) (s : State τ) (t : τ) : Option TaskState :=
  match s t with
  | .none =>
    match (G.rule t).turn ((G.upstream t).map s) with
    | .wait => none
    | .run => some (.running 1)
    | .skip => some .skipped
    | .fail => some .upstreamFailed
  | .running k =>
    match R.outcome t k with
    | .success => some .success
    | .skipped => some .skipped
    -- attempt `k` is followed by another while it is not the last of `retries + 1`
    | .failed => if k ≤ R.retries t then some (.upForRetry k) else some .failed
  | .upForRetry k => some (.running (k + 1))
  | _ => none

variable {G : TaskGraph τ} {R : Runner τ} {s s' : State τ} {t u : τ}

/-- The rule of the task lets it run. -/
def Ready (G : TaskGraph τ) (s : State τ) (t : τ) : Prop :=
  ∀ u ∈ G.upstream t, (G.rule t).accepts (s u) = true

/-- What it means that a task is in a state. -/
def StateOK (G : TaskGraph τ) (R : Runner τ) (s : State τ) (t : τ) : TaskState → Prop
  | .none => True
  | .running k => G.Ready s t ∧ k ≤ R.retries t + 1 ∧ R.own t = R.ownFrom t (R.retries t + 2 - k) k
  | .upForRetry k => G.Ready s t ∧ k ≤ R.retries t ∧ R.own t = R.ownFrom t (R.retries t + 1 - k) (k + 1)
  | .success => G.Ready s t ∧ R.own t = .success
  | .failed => G.Ready s t ∧ R.own t = .failed
  | .upstreamFailed => G.rule t = .allSuccess ∧ ∃ u ∈ G.upstream t, (s u).bad = true
  | .skipped => (G.Ready s t ∧ R.own t = .skipped) ∨
      (G.rule t = .allSuccess ∧ ∃ u ∈ G.upstream t, s u = .skipped)

/-- Every task is as its upstream tasks and its attempts say. -/
def Consistent (G : TaskGraph τ) (R : Runner τ) (s : State τ) : Prop := ∀ t, G.StateOK R s t (s t)

/-! ## What a rule says -/

/-- What each answer of a rule says of the upstream tasks. -/
theorem turn_cases (G : TaskGraph τ) (s : State τ) (t : τ) :
    let turn := (G.rule t).turn ((G.upstream t).map s)
    (turn = .wait ∧ ∃ u ∈ G.upstream t, (s u).terminal = false) ∨
    (turn = .run ∧ G.Ready s t) ∨
    (turn = .skip ∧ G.rule t = .allSuccess ∧ ∃ u ∈ G.upstream t, s u = .skipped) ∨
    (turn = .fail ∧ G.rule t = .allSuccess ∧ ∃ u ∈ G.upstream t, (s u).bad = true) := by
  unfold Ready TriggerRule.turn
  rcases hr : G.rule t
  · simp only [List.any_map, List.all_map]
    by_cases hbad : ((G.upstream t).any (TaskState.bad ∘ s)) = true
    · rw [if_pos hbad]
      exact Or.inr (Or.inr (Or.inr ⟨rfl, trivial, List.any_eq_true.1 hbad⟩))
    rw [if_neg hbad]
    by_cases hskip : ((G.upstream t).any ((fun u => decide (u = .skipped)) ∘ s)) = true
    · rw [if_pos hskip]
      obtain ⟨u, hu, hs⟩ := List.any_eq_true.1 hskip
      exact Or.inr (Or.inr (Or.inl ⟨rfl, trivial, u, hu, of_decide_eq_true hs⟩))
    rw [if_neg hskip]
    by_cases hall : ((G.upstream t).all (TriggerRule.allSuccess.accepts ∘ s)) = true
    · rw [if_pos hall]
      exact Or.inr (Or.inl ⟨rfl, List.all_eq_true.1 hall⟩)
    rw [if_neg hall]
    refine Or.inl ⟨rfl, ?_⟩
    -- neither failed nor skipped nor a success: not over
    obtain ⟨u, hu, hns⟩ := List.all_eq_false.1 (Bool.eq_false_iff.2 hall)
    have hb : (s u).bad ≠ true := fun hb => hbad (List.any_eq_true.2 ⟨u, hu, hb⟩)
    have hs : s u ≠ .skipped := fun hs => hskip (List.any_eq_true.2 ⟨u, hu, decide_eq_true hs⟩)
    have hsuccess : s u ≠ .success := fun h => hns (decide_eq_true h)
    refine ⟨u, hu, ?_⟩
    rcases hsu : s u <;> simp_all [TaskState.terminal, TaskState.bad]
  · simp only [List.all_map]
    by_cases hall : ((G.upstream t).all (TriggerRule.allDone.accepts ∘ s)) = true
    · rw [if_pos hall]
      exact Or.inr (Or.inl ⟨rfl, List.all_eq_true.1 hall⟩)
    · rw [if_neg hall]
      obtain ⟨u, hu, hn⟩ := List.all_eq_false.1 (Bool.eq_false_iff.2 hall)
      exact Or.inl ⟨rfl, u, hu, Bool.eq_false_iff.2 hn⟩

/-- The moves of a task, each with what it takes. -/
inductive Moves (G : TaskGraph τ) (R : Runner τ) (s : State τ) (t : τ) : TaskState → TaskState → Prop
  | run (h : G.Ready s t) : Moves G R s t .none (.running 1)
  | skip (hrule : G.rule t = .allSuccess) (h : ∃ u ∈ G.upstream t, s u = .skipped) :
    Moves G R s t .none .skipped
  | fail (hrule : G.rule t = .allSuccess) (h : ∃ u ∈ G.upstream t, (s u).bad = true) :
    Moves G R s t .none .upstreamFailed
  | finish {k : ℕ} (h : R.outcome t k ≠ .failed) : Moves G R s t (.running k) (R.outcome t k).state
  | retry {k : ℕ} (h : R.outcome t k = .failed) (hk : k ≤ R.retries t) :
    Moves G R s t (.running k) (.upForRetry k)
  | giveUp {k : ℕ} (h : R.outcome t k = .failed) (hk : ¬k ≤ R.retries t) :
    Moves G R s t (.running k) .failed
  | again {k : ℕ} : Moves G R s t (.upForRetry k) (.running (k + 1))

/-- An attempt ends in the state of its outcome. -/
theorem Moves.finish_of {k : ℕ} {o : Outcome} (ho : R.outcome t k = o) (hne : o ≠ .failed) :
    G.Moves R s t (.running k) o.state := by
  subst ho
  exact .finish hne

theorem moves_of_advance {x : TaskState} (hx : G.advance R s t = some x) : G.Moves R s t (s t) x := by
  unfold advance at hx
  rcases hs : s t with _ | k | k | _ | _ | _ | _
  · simp only [hs] at hx
    rcases turn_cases G s t with ⟨ht, -⟩ | ⟨ht, hready⟩ | ⟨ht, hrule, h⟩ | ⟨ht, hrule, h⟩
    all_goals
      rw [ht] at hx
      cases hx
    · exact .run hready
    · exact .skip hrule h
    · exact .fail hrule h
  · simp only [hs] at hx
    rcases ho : R.outcome t k
    all_goals
      rw [ho] at hx
      simp only at hx
    · cases hx
      exact .finish_of ho (by decide)
    · cases hx
      exact .finish_of ho (by decide)
    · split at hx
      · rename_i hk
        cases hx
        exact .retry ho hk
      · rename_i hk
        cases hx
        exact .giveUp ho hk
  · simp only [hs] at hx
    cases hx
    exact .again
  all_goals
    rw [hs] at hx
    cases hx

/-- A task that is not over moves once its upstream tasks are over. -/
theorem advance_ne_none (R : Runner τ) (hup : ∀ u ∈ G.upstream t, (s u).terminal = true)
    (ht : (s t).terminal = false) : G.advance R s t ≠ none := by
  intro hnone
  unfold advance at hnone
  rcases hs : s t with _ | k | k | _ | _ | _ | _
  · simp only [hs] at hnone
    rcases turn_cases G s t with ⟨-, u, hu, hu'⟩ | ⟨hturn, -⟩ | ⟨hturn, -⟩ | ⟨hturn, -⟩
    · rw [hup u hu] at hu'
      cases hu'
    all_goals
      rw [hturn] at hnone
      cases hnone
  · simp only [hs] at hnone
    rcases ho : R.outcome t k <;> rw [ho] at hnone
    · cases hnone
    · cases hnone
    · simp only at hnone
      split at hnone <;> cases hnone
  · simp only [hs] at hnone
    cases hnone
  all_goals
    rw [hs] at ht
    cases ht

/-! ## What a step keeps -/

/-- Every task that is over stays as it is. -/
def Keeps (s s' : State τ) : Prop := ∀ u, (s u).terminal = true → s' u = s u

theorem advance_of_terminal (h : (s t).terminal = true) : G.advance R s t = none := by
  unfold advance
  rcases hs : s t <;> first | rfl | (rw [hs] at h; cases h)

theorem terminal_of_accepts {r : TriggerRule} {x : TaskState} (h : r.accepts x = true) :
    x.terminal = true := by
  rcases r
  · have hx : x = .success := of_decide_eq_true h
    rw [hx]; rfl
  · exact h

theorem terminal_of_bad {x : TaskState} (h : x.bad = true) : x.terminal = true := by
  rcases x <;> first | rfl | cases h

theorem Ready.keep (h : G.Ready s t) (hk : Keeps s s') : G.Ready s' t := by
  intro u hu
  rw [hk u (terminal_of_accepts (h u hu))]
  exact h u hu

/-- What a state means stays true while other tasks move. -/
theorem StateOK.keep {x : TaskState} (h : G.StateOK R s t x) (hk : Keeps s s') : G.StateOK R s' t x := by
  rcases x with _ | k | k | _ | _ | _ | _
  · trivial
  · exact ⟨h.1.keep hk, h.2⟩
  · exact ⟨h.1.keep hk, h.2⟩
  · exact ⟨h.1.keep hk, h.2⟩
  · exact ⟨h.1.keep hk, h.2⟩
  · obtain ⟨hr, u, hu, hb⟩ := h
    exact ⟨hr, u, hu, by rw [hk u (terminal_of_bad hb)]; exact hb⟩
  · rcases h with h | ⟨hr, u, hu, hs⟩
    · exact Or.inl ⟨h.1.keep hk, h.2⟩
    · exact Or.inr ⟨hr, u, hu, (hk u (by rw [hs]; rfl)).trans hs⟩

/-- The state a task moves to means what it should. -/
theorem advance_ok {x : TaskState} (h : G.StateOK R s t (s t)) (hx : G.advance R s t = some x) :
    G.StateOK R s t x := by
  have hmove := moves_of_advance hx
  generalize s t = y at h hmove
  -- one case for each move of a task
  cases hmove with
  | run hready => exact ⟨hready, by omega, rfl⟩
  | skip hrule hup => exact Or.inr ⟨hrule, hup⟩
  | fail hrule hup => exact ⟨hrule, hup⟩
  | @finish k ho =>
    obtain ⟨hready, hk, hown⟩ := h
    rw [Runner.ownFrom_attempt hk, if_neg ho] at hown
    rcases ho' : R.outcome t k
    · exact ⟨hready, hown.trans ho'⟩
    · exact Or.inl ⟨hready, hown.trans ho'⟩
    · exact absurd ho' ho
  | @retry k ho hk =>
    obtain ⟨hready, hk', hown⟩ := h
    rw [Runner.ownFrom_attempt hk', if_pos ho] at hown
    exact ⟨hready, hk, hown⟩
  | @giveUp k ho hk =>
    obtain ⟨hready, hk', hown⟩ := h
    have h0 : R.retries t + 1 - k = 0 := by omega
    rw [Runner.ownFrom_attempt hk', if_pos ho, h0] at hown
    exact ⟨hready, hown⟩
  | @again k =>
    obtain ⟨hready, hk, hown⟩ := h
    have hn : R.retries t + 2 - (k + 1) = R.retries t + 1 - k := by omega
    exact ⟨hready, by omega, by rw [hn]; exact hown⟩

variable [DecidableEq τ]

/-- One task moves. -/
def Step (G : TaskGraph τ) (R : Runner τ) (s : State τ) (t : τ) (s' : State τ) : Prop :=
  ∃ x, G.advance R s t = some x ∧ s' = Function.update s t x

/-- The tasks of a list move one after the other, `none` when one of them stays. -/
def play (G : TaskGraph τ) (R : Runner τ) : State τ → List τ → Option (State τ)
  | s, [] => some s
  | s, t :: ts => (G.advance R s t).bind fun x => G.play R (Function.update s t x) ts

theorem reach_of_play : ∀ (ts : List τ) (s : State τ), G.play R s ts = some s' →
    Reach (G.Step R) s s' := by
  intro ts
  induction ts with
  | nil => intro s h; cases h; exact ⟨[], trivial, rfl⟩
  | cons t ts ih =>
    intro s h
    obtain ⟨x, hx, h⟩ := Option.bind_eq_some_iff.1 h
    obtain ⟨tr, hc, hf⟩ := ih _ h
    exact ⟨(t, Function.update s t x) :: tr, ⟨⟨x, hx, rfl⟩, hc⟩, hf⟩

theorem Step.keeps (h : G.Step R s t s') : Keeps s s' := by
  obtain ⟨x, hx, rfl⟩ := h
  intro u hu
  refine Function.update_of_ne ?_ _ _
  rintro rfl
  rw [advance_of_terminal hu] at hx
  cases hx

theorem consistent_step (hs : G.Consistent R s) (h : G.Step R s t s') : G.Consistent R s' := by
  have hk := h.keeps
  obtain ⟨x, hx, rfl⟩ := h
  intro u
  by_cases hu : u = t
  · subst hu
    rw [Function.update_self]
    exact (advance_ok (hs u) hx).keep hk
  · rw [Function.update_of_ne hu]
    exact (hs u).keep hk

/-- **Every reachable state is consistent.** -/
theorem consistent_reach (h : Reach (G.Step R) start s) : G.Consistent R s := by
  have hstart : G.Consistent R start := fun _ => trivial
  exact reach_invariant (I := G.Consistent R) (fun _ _ _ => consistent_step) hstart h

omit [DecidableEq τ] in
/-- **A task that had its turn ends as its own attempts do.** -/
theorem state_of_ready (hs : G.Consistent R s) (hr : G.Ready s t) (ht : (s t).terminal = true) :
    s t = (R.own t).state := by
  have hok := hs t
  -- a rule that accepts all upstream tasks has no failed and no skipped one among them
  have hno : G.rule t = .allSuccess → ∀ u ∈ G.upstream t, s u = .success := by
    intro hrule u hu
    have ha := hr u hu
    rw [hrule] at ha
    exact of_decide_eq_true ha
  rcases hst : s t with _ | k | k | _ | _ | _ | _
  · rw [hst] at ht; cases ht
  · rw [hst] at ht; cases ht
  · rw [hst] at ht; cases ht
  · rw [hst] at hok
    rw [hok.2]; rfl
  · rw [hst] at hok
    rw [hok.2]; rfl
  · rw [hst] at hok
    obtain ⟨hrule, u, hu, hb⟩ := hok
    rw [hno hrule u hu] at hb
    cases hb
  · rw [hst] at hok
    rcases hok with ⟨-, ho⟩ | ⟨hrule, u, hu, hsk⟩
    · rw [ho]; rfl
    · rw [hno hrule u hu] at hsk
      cases hsk

omit [DecidableEq τ] in
/-- A task that was touched, started or not, has its only upstream task behind it. -/
theorem terminal_of_single (hs : G.Consistent R s) (hup : G.upstream t = [u]) (hne : s t ≠ .none) :
    (s u).terminal = true := by
  have hready : G.Ready s t → (s u).terminal = true := fun h => terminal_of_accepts (h u (by simp [hup]))
  have hok := hs t
  rcases hst : s t with _ | k | k | _ | _ | _ | _ <;> rw [hst] at hok
  · exact absurd hst hne
  · exact hready hok.1
  · exact hready hok.1
  · exact hready hok.1
  · exact hready hok.1
  · obtain ⟨-, v, hv, hb⟩ := hok
    rw [hup, List.mem_singleton] at hv
    exact terminal_of_bad (hv ▸ hb)
  · rcases hok with hok | ⟨-, v, hv, hsk⟩
    · exact hready hok.1
    · rw [hup, List.mem_singleton] at hv
      rw [← hv, hsk]
      rfl

omit [DecidableEq τ] in
/-- A task that waits for all upstream tasks to be over had its turn when it was touched. -/
theorem ready_of_allDone (hs : G.Consistent R s) (hrule : G.rule t = .allDone) (hne : s t ≠ .none) :
    G.Ready s t := by
  have hok := hs t
  rcases hst : s t with _ | k | k | _ | _ | _ | _ <;> rw [hst] at hok
  · exact absurd hst hne
  · exact hok.1
  · exact hok.1
  · exact hok.1
  · exact hok.1
  · exact absurd (hrule.symm.trans hok.1) (by decide)
  · rcases hok with hok | hok
    · exact hok.1
    · exact absurd (hrule.symm.trans hok.1) (by decide)

omit [DecidableEq τ] in
/-- A task fails itself or after an upstream task. -/
theorem cases_of_bad (hs : G.Consistent R s) (hb : (s t).bad = true) :
    (G.Ready s t ∧ R.own t = .failed) ∨ ∃ u ∈ G.upstream t, (s u).bad = true := by
  have hok := hs t
  rcases hst : s t with _ | k | k | _ | _ | _ | _ <;> rw [hst] at hok hb <;> try cases hb
  · exact Or.inl hok
  · exact Or.inr hok.2

omit [DecidableEq τ] in
theorem own_of_success (hs : G.Consistent R s) (h : s t = .success) : R.own t = .success := by
  have hok := hs t
  rw [h] at hok
  exact hok.2

/-! ## Every run can be brought to an end -/

/-- Every task is over. -/
def Complete (s : State τ) : Prop := ∀ t, (s t).terminal = true

/-- How many moves a task may still make. -/
def weight (R : Runner τ) (t : τ) : TaskState → ℕ
  | .none => 2 * R.retries t + 2
  | .running k => 2 * (R.retries t + 1 - k) + 1
  | .upForRetry k => 2 * (R.retries t + 1 - k)
  | _ => 0

omit [DecidableEq τ] in
theorem advance_weight {x : TaskState} (h : G.StateOK R s t (s t)) (hx : G.advance R s t = some x) :
    weight R t x < weight R t (s t) := by
  have hmove := moves_of_advance hx
  generalize s t = y at h hmove
  cases hmove with
  | run hready => simp only [weight]; omega
  | skip hrule hup => simp only [weight]; omega
  | fail hrule hup => simp only [weight]; omega
  | @finish k ho =>
    rcases R.outcome t k
    all_goals
      simp only [Outcome.state, weight]
      omega
  | retry ho hk => simp only [weight]; omega
  | giveUp ho hk => simp only [weight]; omega
  | again =>
    obtain ⟨-, hk, -⟩ := h
    simp only [weight]
    omega

omit [DecidableEq τ] in
/-- While a task is not over, some task can move: by induction on the rank, one whose
upstream tasks are over. -/
theorem exists_advance (R : Runner τ) : ∀ (n : ℕ) (t : τ), G.rank t = n → (s t).terminal = false →
    ∃ u x, G.advance R s u = some x := by
  intro n
  induction n using Nat.strong_induction_on with
  | _ n ih =>
    intro t hn ht
    by_cases hup : ∀ u ∈ G.upstream t, (s u).terminal = true
    · exact ⟨t, Option.ne_none_iff_exists'.1 (advance_ne_none R hup ht)⟩
    · push Not at hup
      obtain ⟨u, hu, hterm⟩ := hup
      exact ih _ (hn ▸ G.acyclic t u hu) u rfl (Bool.eq_false_iff.2 hterm)

/-! ## The state of a run -/

/-- The tasks that are upstream of none. -/
def leaves (G : TaskGraph τ) (tasks : List τ) : List τ :=
  tasks.filter fun t => tasks.all fun u => decide (t ∉ G.upstream u)

/-- Once every task is over, the leaves decide. -/
def runState (G : TaskGraph τ) (tasks : List τ) (s : State τ) : RunState :=
  if tasks.all fun t => (s t).terminal then
    if (G.leaves tasks).any fun t => (s t).bad then .failed else .success
  else .running

variable [Fintype τ]

/-- **A run can always be brought to an end.** -/
theorem exists_complete (G : TaskGraph τ) (R : Runner τ) : ∀ (n : ℕ) (s : State τ),
    ∑ t, weight R t (s t) = n → G.Consistent R s → ∃ s', Reach (G.Step R) s s' ∧ Complete s' := by
  intro n
  induction n using Nat.strong_induction_on with
  | _ n ih =>
    intro s hn hs
    by_cases hc : Complete s
    · exact ⟨s, ⟨[], trivial, rfl⟩, hc⟩
    unfold Complete at hc
    push Not at hc
    obtain ⟨t, ht⟩ := hc
    obtain ⟨u, x, hx⟩ := exists_advance (G := G) R _ t rfl (Bool.eq_false_iff.2 ht)
    have hstep : G.Step R s u (Function.update s u x) := ⟨x, hx, rfl⟩
    have hlt : ∑ t, weight R t (Function.update s u x t) < n := by
      rw [← hn]
      refine Finset.sum_lt_sum (fun t _ => ?_) ⟨u, Finset.mem_univ u, ?_⟩
      · by_cases htu : t = u
        · subst htu
          rw [Function.update_self]
          exact (advance_weight (hs t) hx).le
        · rw [Function.update_of_ne htu]
      · rw [Function.update_self]
        exact advance_weight (hs u) hx
    -- every move uses up some of the weight
    obtain ⟨s', ⟨tr, hrun, hfin⟩, hs'⟩ := ih _ hlt _ rfl (consistent_step hs hstep)
    exact ⟨s', ⟨(u, _) :: tr, ⟨hstep, hrun⟩, hfin⟩, hs'⟩

end TaskGraph

end SparkDev.Flow
