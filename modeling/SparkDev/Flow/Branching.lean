import SparkDev.Flow.TaskGraph

/-!
# Runs of a graph with branches

A task that has succeeded may skip tasks right after it: a branch those it did not
choose, a short circuit all of them. A join after a branch has a rule of its own, which
lets it run with some of its upstream tasks skipped.

* `consistent_reach`: what the state of a task says about its upstream tasks, about the
  branches before it and about its own attempts, in every reachable state.
* `state_of_ready`, `cases_of_not_ready`: a task that had its turn ends as its own attempts
  do, and why a task had none.
* `state_of_single`: what becomes of a task with one upstream task.
-/

namespace SparkDev.Flow

open Runs

/-- When a task may run. -/
inductive JoinRule where
  | allSuccess
  | noneFailedMinOneSuccess
  deriving DecidableEq, Repr

/-- The rule, on the states of the upstream tasks. -/
def JoinRule.turn : JoinRule → List TaskState → Turn
  | allSuccess, us => TriggerRule.allSuccess.turn us
  | noneFailedMinOneSuccess, us =>
    if us.isEmpty then .run
    else if us.any TaskState.bad then .fail
    else if us.all (fun u => decide (u = .skipped)) then .skip
    else if us.all TaskState.terminal then .run
    else .wait

/-- Tasks with their upstream tasks and rules, and the tasks that a task skips on success. -/
structure BranchGraph (τ : Type*) where
  upstream : τ → List τ
  rule : τ → JoinRule
  skips : τ → τ → Bool
  direct : ∀ t u, skips t u = true → t ∈ upstream u

namespace BranchGraph

variable {τ : Type*}

/-- The next state of a task, `none` when it stays. -/
def advance (G : BranchGraph τ) (R : Runner τ) (s : State τ) (t : τ) : Option TaskState :=
  match s t with
  | .none =>
    match (G.rule t).turn ((G.upstream t).map s) with
    | .wait => none
    | .run => some (.running 1)
    | .skip => some .skipped
    | .fail => some .upstreamFailed
  | .running k =>
    match R.outcome t k with
    | .success => some .success
    | .skipped => some .skipped
    | .failed => if k ≤ R.retries t then some (.upForRetry k) else some .failed
  | .upForRetry k => some (.running (k + 1))
  | _ => none

/-- A task moves. If that is its success, what it skips is skipped. -/
def settle [DecidableEq τ] (G : BranchGraph τ) (s : State τ) (t : τ) (x : TaskState) : State τ := fun u =>
  if u = t then x
  else if x = .success ∧ G.skips t u = true ∧ s u = .none then .skipped
  else s u

/-- One task moves. -/
def Step [DecidableEq τ] (G : BranchGraph τ) (R : Runner τ) (s : State τ) (t : τ) (s' : State τ) : Prop :=
  ∃ x, G.advance R s t = some x ∧ s' = G.settle s t x

variable {G : BranchGraph τ} {R : Runner τ} {s s' : State τ} {t u : τ}

/-- The rule of the task lets it run. -/
def Ready (G : BranchGraph τ) (s : State τ) (t : τ) : Prop :=
  match G.rule t with
  | .allSuccess => ∀ u ∈ G.upstream t, s u = .success
  | .noneFailedMinOneSuccess => G.upstream t = [] ∨
      (∀ u ∈ G.upstream t, s u = .success ∨ s u = .skipped) ∧ ∃ u ∈ G.upstream t, s u = .success

/-- The rule of the task has it skipped. -/
def RuleSkips (G : BranchGraph τ) (s : State τ) (t : τ) : Prop :=
  match G.rule t with
  | .allSuccess => ∃ u ∈ G.upstream t, s u = .skipped
  | .noneFailedMinOneSuccess => G.upstream t ≠ [] ∧ ∀ u ∈ G.upstream t, s u = .skipped

/-- No branch before it has skipped the task. -/
def Spared (G : BranchGraph τ) (s : State τ) (t : τ) : Prop := ∀ u, G.skips u t = true → s u ≠ .success

/-- What it means that a task is in a state. -/
def StateOK (G : BranchGraph τ) (R : Runner τ) (s : State τ) (t : τ) : TaskState → Prop
  | .none => G.Spared s t
  | .running k => G.Ready s t ∧ G.Spared s t ∧ k ≤ R.retries t + 1 ∧
      R.own t = R.ownFrom t (R.retries t + 2 - k) k
  | .upForRetry k => G.Ready s t ∧ G.Spared s t ∧ k ≤ R.retries t ∧
      R.own t = R.ownFrom t (R.retries t + 1 - k) (k + 1)
  | .success => G.Ready s t ∧ G.Spared s t ∧ R.own t = .success
  | .failed => G.Ready s t ∧ G.Spared s t ∧ R.own t = .failed
  | .upstreamFailed => ∃ u ∈ G.upstream t, (s u).bad = true
  | .skipped => (G.Ready s t ∧ G.Spared s t ∧ R.own t = .skipped) ∨ G.RuleSkips s t ∨
      ∃ u, G.skips u t = true ∧ s u = .success

/-- Every task is as its upstream tasks, the branches and its attempts say. -/
def Consistent (G : BranchGraph τ) (R : Runner τ) (s : State τ) : Prop := ∀ t, G.StateOK R s t (s t)

/-! ## What a rule says -/

/-- What each answer of a rule says of the upstream tasks. -/
theorem turn_cases (G : BranchGraph τ) (s : State τ) (t : τ) :
    let turn := (G.rule t).turn ((G.upstream t).map s)
    turn = .wait ∨ (turn = .run ∧ G.Ready s t) ∨ (turn = .skip ∧ G.RuleSkips s t) ∨
      (turn = .fail ∧ ∃ u ∈ G.upstream t, (s u).bad = true) := by
  unfold Ready RuleSkips JoinRule.turn
  rcases hr : G.rule t
  · simp only [TriggerRule.turn, List.any_map, List.all_map]
    split
    · rename_i hbad
      exact Or.inr (Or.inr (Or.inr ⟨rfl, List.any_eq_true.1 hbad⟩))
    split
    · rename_i hskip
      obtain ⟨u, hu, hs⟩ := List.any_eq_true.1 hskip
      exact Or.inr (Or.inr (Or.inl ⟨rfl, u, hu, of_decide_eq_true hs⟩))
    split
    · rename_i hall
      refine Or.inr (Or.inl ⟨rfl, fun u hu => ?_⟩)
      exact of_decide_eq_true (List.all_eq_true.1 hall u hu)
    · exact Or.inl rfl
  · simp only [List.isEmpty_map, List.any_map, List.all_map]
    split
    · rename_i hempty
      exact Or.inr (Or.inl ⟨rfl, Or.inl (List.isEmpty_iff.1 hempty)⟩)
    rename_i hempty
    split
    · rename_i hbad
      exact Or.inr (Or.inr (Or.inr ⟨rfl, List.any_eq_true.1 hbad⟩))
    rename_i hbad
    split
    · rename_i hskip
      refine Or.inr (Or.inr (Or.inl ⟨rfl, fun h => hempty (by rw [h]; rfl), fun u hu => ?_⟩))
      exact of_decide_eq_true (List.all_eq_true.1 hskip u hu)
    rename_i hskip
    split
    · rename_i hall
      -- over and not failed: a success or skipped
      have hcases : ∀ u ∈ G.upstream t, s u = .success ∨ s u = .skipped := by
        intro u hu
        have hterm : (s u).terminal = true := List.all_eq_true.1 hall u hu
        have hb : (s u).bad ≠ true := fun hb => hbad (List.any_eq_true.2 ⟨u, hu, hb⟩)
        rcases hsu : s u <;> simp_all [TaskState.terminal, TaskState.bad]
      obtain ⟨u, hu, hns⟩ := List.all_eq_false.1 (Bool.eq_false_iff.2 hskip)
      have hsuccess : s u = .success := (hcases u hu).resolve_right fun h => hns (decide_eq_true h)
      exact Or.inr (Or.inl ⟨rfl, Or.inr ⟨hcases, u, hu, hsuccess⟩⟩)
    · exact Or.inl rfl

theorem Ready.terminal (h : G.Ready s t) (hu : u ∈ G.upstream t) : (s u).terminal = true := by
  unfold Ready at h
  rcases hr : G.rule t <;> rw [hr] at h
  · rw [h u hu]
    rfl
  · rcases h with h | ⟨h, -⟩
    · rw [h] at hu
      exact absurd hu List.not_mem_nil
    · rcases h u hu with h | h
      · rw [h]
        rfl
      · rw [h]
        rfl

/-- A task that may run has no failed task before it. -/
theorem Ready.not_bad (h : G.Ready s t) (hu : u ∈ G.upstream t) : (s u).bad ≠ true := by
  unfold Ready at h
  rcases hr : G.rule t <;> rw [hr] at h
  · rw [h u hu]
    decide
  · rcases h with h | ⟨h, -⟩
    · rw [h] at hu
      exact absurd hu List.not_mem_nil
    · rcases h u hu with h | h
      · rw [h]
        decide
      · rw [h]
        decide

/-- Nor does its rule have it skipped. -/
theorem Ready.not_ruleSkips (h : G.Ready s t) : ¬ G.RuleSkips s t := by
  intro hskip
  unfold Ready at h
  unfold RuleSkips at hskip
  rcases hr : G.rule t <;> rw [hr] at h hskip
  · obtain ⟨u, hu, hs⟩ := hskip
    exact absurd ((h u hu).symm.trans hs) (by decide)
  · obtain ⟨hne, hall⟩ := hskip
    rcases h with h | ⟨-, u, hu, hs⟩
    · exact hne h
    · exact absurd ((hall u hu).symm.trans hs) (by decide)

/-! ## What a step keeps -/

/-- The moves of a task, each with what it takes. -/
inductive Moves (G : BranchGraph τ) (R : Runner τ) (s : State τ) (t : τ) : TaskState → TaskState → Prop
  | run (h : G.Ready s t) : Moves G R s t .none (.running 1)
  | skip (h : G.RuleSkips s t) : Moves G R s t .none .skipped
  | fail (h : ∃ u ∈ G.upstream t, (s u).bad = true) : Moves G R s t .none .upstreamFailed
  | finish {k : ℕ} {o : Outcome} (h : R.outcome t k = o) (ho : o ≠ .failed) :
    Moves G R s t (.running k) o.state
  | retry {k : ℕ} (h : R.outcome t k = .failed) (hk : k ≤ R.retries t) :
    Moves G R s t (.running k) (.upForRetry k)
  | giveUp {k : ℕ} (h : R.outcome t k = .failed) (hk : ¬k ≤ R.retries t) :
    Moves G R s t (.running k) .failed
  | again {k : ℕ} : Moves G R s t (.upForRetry k) (.running (k + 1))

theorem moves_of_advance {x : TaskState} (hx : G.advance R s t = some x) : G.Moves R s t (s t) x := by
  unfold advance at hx
  rcases hs : s t with _ | k | k | _ | _ | _ | _
  · simp only [hs] at hx
    rcases turn_cases G s t with ht | ⟨ht, h⟩ | ⟨ht, h⟩ | ⟨ht, h⟩
    all_goals
      rw [ht] at hx
      cases hx
    · exact .run h
    · exact .skip h
    · exact .fail h
  · simp only [hs] at hx
    rcases ho : R.outcome t k
    all_goals
      rw [ho] at hx
      simp only at hx
    · cases hx
      exact .finish ho (by decide)
    · cases hx
      exact .finish ho (by decide)
    · split at hx
      · rename_i hk
        cases hx
        exact .retry ho hk
      · rename_i hk
        cases hx
        exact .giveUp ho hk
  · simp only [hs] at hx
    cases hx
    exact .again
  -- what is over does not move
  all_goals
    rw [hs] at hx
    cases hx

/-- Every task that is over stays as it is. -/
def Keeps (s s' : State τ) : Prop := ∀ u, (s u).terminal = true → s' u = s u

theorem Ready.keep (h : G.Ready s t) (hk : Keeps s s') : G.Ready s' t := by
  have hkeep : ∀ u ∈ G.upstream t, s' u = s u := fun u hu => hk u (h.terminal hu)
  unfold Ready at h ⊢
  rcases hr : G.rule t <;> rw [hr] at h
  · intro u hu
    rw [hkeep u hu]
    exact h u hu
  · rcases h with h | ⟨hall, u, hu, hs⟩
    · exact Or.inl h
    · refine Or.inr ⟨fun v hv => ?_, u, hu, (hkeep u hu).trans hs⟩
      rw [hkeep v hv]
      exact hall v hv

theorem RuleSkips.keep (h : G.RuleSkips s t) (hk : Keeps s s') : G.RuleSkips s' t := by
  have hskip : ∀ u, s u = .skipped → s' u = .skipped := by
    intro u hu
    have hterm : (s u).terminal = true := by rw [hu]; rfl
    rw [hk u hterm, hu]
  unfold RuleSkips at h ⊢
  rcases hr : G.rule t <;> rw [hr] at h
  · obtain ⟨u, hu, hs⟩ := h
    exact ⟨u, hu, hskip u hs⟩
  · exact ⟨h.1, fun u hu => hskip u (h.2 u hu)⟩

/-- A task that may run stays spared: the branches before it are over. -/
theorem Spared.keep (h : G.Spared s t) (hready : G.Ready s t) (hk : Keeps s s') : G.Spared s' t := by
  intro u hu
  rw [hk u (hready.terminal (G.direct u t hu))]
  exact h u hu

/-- What a state means stays true while other tasks move, unless a branch skips the task. -/
theorem StateOK.keep {x : TaskState} (h : G.StateOK R s t x) (hk : Keeps s s')
    (hspared : x = .none → G.Spared s' t) : G.StateOK R s' t x := by
  rcases x with _ | k | k | _ | _ | _ | _
  · exact hspared rfl
  · exact ⟨h.1.keep hk, h.2.1.keep h.1 hk, h.2.2⟩
  · exact ⟨h.1.keep hk, h.2.1.keep h.1 hk, h.2.2⟩
  · exact ⟨h.1.keep hk, h.2.1.keep h.1 hk, h.2.2⟩
  · exact ⟨h.1.keep hk, h.2.1.keep h.1 hk, h.2.2⟩
  · obtain ⟨u, hu, hb⟩ := h
    refine ⟨u, hu, ?_⟩
    rw [hk u (TaskGraph.terminal_of_bad hb)]
    exact hb
  · rcases h with h | h | ⟨u, hu, hs⟩
    · exact Or.inl ⟨h.1.keep hk, h.2.1.keep h.1 hk, h.2.2⟩
    · exact Or.inr (Or.inl (h.keep hk))
    · have hterm : (s u).terminal = true := by rw [hs]; rfl
      exact Or.inr (Or.inr ⟨u, hu, (hk u hterm).trans hs⟩)

/-- The state a task moves to means what it should. -/
theorem advance_ok {x : TaskState} (h : G.StateOK R s t (s t)) (hx : G.advance R s t = some x) :
    G.StateOK R s t x := by
  have hmove := moves_of_advance hx
  generalize s t = y at h hmove
  -- one case for each move of a task
  cases hmove with
  | run hready => exact ⟨hready, h, by omega, rfl⟩
  | skip hskip => exact Or.inr (Or.inl hskip)
  | fail hup => exact hup
  | @finish k o ho hne =>
    obtain ⟨hready, hspared, hk, hown⟩ := h
    rw [Runner.ownFrom_attempt hk, if_neg (by rw [ho]; exact hne), ho] at hown
    cases o with
    | success => exact ⟨hready, hspared, hown⟩
    | skipped => exact Or.inl ⟨hready, hspared, hown⟩
    | failed => exact absurd rfl hne
  | @retry k ho hk =>
    obtain ⟨hready, hspared, hk', hown⟩ := h
    rw [Runner.ownFrom_attempt hk', if_pos ho] at hown
    exact ⟨hready, hspared, hk, hown⟩
  | @giveUp k ho hk =>
    obtain ⟨hready, hspared, hk', hown⟩ := h
    have h0 : R.retries t + 1 - k = 0 := by omega
    rw [Runner.ownFrom_attempt hk', if_pos ho, h0] at hown
    exact ⟨hready, hspared, hown⟩
  | @again k =>
    obtain ⟨hready, hspared, hk, hown⟩ := h
    have hn : R.retries t + 2 - (k + 1) = R.retries t + 1 - k := by omega
    exact ⟨hready, hspared, by omega, by rw [hn]; exact hown⟩

theorem advance_of_terminal (h : (s t).terminal = true) : G.advance R s t = none := by
  unfold advance
  rcases hs : s t <;> first | rfl | (rw [hs] at h; cases h)

/-- A task that moves is touched. -/
theorem Moves.ne_none {x y : TaskState} (h : G.Moves R s t x y) : y ≠ .none := by
  cases h with
  | @finish k o _ _ => cases o <;> decide
  | _ => intro hy; cases hy

variable [DecidableEq τ]

theorem settle_self {x : TaskState} : G.settle s t x t = x := if_pos rfl

/-- What a move does to another task. -/
theorem settle_cases {x : TaskState} (hne : u ≠ t) :
    (x = .success ∧ G.skips t u = true ∧ s u = .none ∧ G.settle s t x u = .skipped) ∨
      (¬(x = .success ∧ G.skips t u = true ∧ s u = .none) ∧ G.settle s t x u = s u) := by
  unfold settle
  rw [if_neg hne]
  by_cases h : x = .success ∧ G.skips t u = true ∧ s u = .none
  · exact Or.inl ⟨h.1, h.2.1, h.2.2, if_pos h⟩
  · exact Or.inr ⟨h, if_neg h⟩

theorem Step.keeps (h : G.Step R s t s') : Keeps s s' := by
  obtain ⟨x, hx, rfl⟩ := h
  intro u hu
  have hne : u ≠ t := by
    rintro rfl
    rw [advance_of_terminal hu] at hx
    cases hx
  rcases @settle_cases _ G s t u _ x hne with ⟨-, -, hnone, -⟩ | ⟨-, hsame⟩
  · rw [hnone] at hu
    cases hu
  · exact hsame

theorem consistent_step (hs : G.Consistent R s) (h : G.Step R s t s') : G.Consistent R s' := by
  have hk := h.keeps
  obtain ⟨x, hx, rfl⟩ := h
  intro u
  by_cases hu : u = t
  · subst hu
    rw [settle_self]
    exact (advance_ok (hs u) hx).keep hk fun hnone => absurd hnone (moves_of_advance hx).ne_none
  · rcases @settle_cases _ G s t u _ x hu with ⟨hsucc, hskip, -, heq⟩ | ⟨hno, heq⟩
    · rw [heq]
      exact Or.inr (Or.inr ⟨t, hskip, settle_self.trans hsucc⟩)
    · rw [heq]
      refine (hs u).keep hk fun hnone v hv hsv => ?_
      have hspared := hs u
      rw [hnone] at hspared
      by_cases hvt : v = t
      · -- the branch that has just succeeded would have skipped the task
        subst hvt
        rw [settle_self] at hsv
        exact hno ⟨hsv, hv, hnone⟩
      · rcases @settle_cases _ G s t v _ x hvt with ⟨-, -, -, heq'⟩ | ⟨-, heq'⟩
        · rw [heq'] at hsv
          cases hsv
        · rw [heq'] at hsv
          exact hspared v hv hsv

/-- **Every reachable state is consistent.** -/
theorem consistent_reach (h : Reach (G.Step R) TaskGraph.start s) : G.Consistent R s := by
  have hstart : G.Consistent R TaskGraph.start := by
    intro t u _ hu
    cases hu
  exact reach_invariant (I := G.Consistent R) (fun _ _ _ => consistent_step) hstart h

/-! ## What became of a task -/

omit [DecidableEq τ] in
/-- **A task that had its turn ends as its own attempts do.** -/
theorem state_of_ready (hs : G.Consistent R s) (hready : G.Ready s t) (hspared : G.Spared s t)
    (ht : (s t).terminal = true) : s t = (R.own t).state := by
  have hok := hs t
  rcases hst : s t with _ | k | k | _ | _ | _ | _ <;> rw [hst] at hok ht
  · cases ht
  · cases ht
  · cases ht
  · rw [hok.2.2]
    rfl
  · rw [hok.2.2]
    rfl
  · obtain ⟨u, hu, hb⟩ := hok
    exact absurd hb (hready.not_bad hu)
  · rcases hok with h | h | ⟨u, hu, hsu⟩
    · rw [h.2.2]
      rfl
    · exact absurd h hready.not_ruleSkips
    · exact absurd hsu (hspared u hu)

omit [DecidableEq τ] in
/-- A task that did not have its turn: a task before it failed, or its rule or a branch skips it. -/
theorem cases_of_not_ready (hs : G.Consistent R s) (h : ¬(G.Ready s t ∧ G.Spared s t)) :
    s t = .none ∨ (s t = .upstreamFailed ∧ ∃ u ∈ G.upstream t, (s u).bad = true) ∨
      (s t = .skipped ∧ (G.RuleSkips s t ∨ ∃ u, G.skips u t = true ∧ s u = .success)) := by
  have hok := hs t
  rcases hst : s t with _ | k | k | _ | _ | _ | _ <;> rw [hst] at hok
  · exact Or.inl rfl
  · exact absurd ⟨hok.1, hok.2.1⟩ h
  · exact absurd ⟨hok.1, hok.2.1⟩ h
  · exact absurd ⟨hok.1, hok.2.1⟩ h
  · exact absurd ⟨hok.1, hok.2.1⟩ h
  · exact Or.inr (Or.inl ⟨rfl, hok⟩)
  · exact Or.inr (Or.inr ⟨rfl, hok.resolve_left fun hown => h ⟨hown.1, hown.2.1⟩⟩)

/-- What becomes of a task whose only upstream task ends in a state. -/
def follow (before : TaskState) (skips : Bool) (own : Outcome) : TaskState :=
  match before with
  | .success => if skips then .skipped else own.state
  | .skipped => .skipped
  | _ => .upstreamFailed

omit [DecidableEq τ] in
/-- A task with no upstream task ends as its own attempts do. -/
theorem state_of_root (hs : G.Consistent R s) (hup : G.upstream t = []) (hrule : G.rule t = .allSuccess)
    (ht : (s t).terminal = true) : s t = (R.own t).state := by
  refine state_of_ready hs ?_ (fun u hu => ?_) ht
  · unfold Ready
    rw [hrule, hup]
    exact fun u hu => absurd hu List.not_mem_nil
  · have hmem := G.direct u t hu
    rw [hup] at hmem
    exact absurd hmem List.not_mem_nil

omit [DecidableEq τ] in
/-- **A task with one upstream task** under the default rule. -/
theorem state_of_single (hs : G.Consistent R s) (hup : G.upstream t = [u]) (hrule : G.rule t = .allSuccess)
    (hu : (s u).terminal = true) (ht : (s t).terminal = true) :
    s t = follow (s u) (G.skips u t) (R.own t) := by
  have honly : ∀ v, G.skips v t = true → v = u := by
    intro v hv
    have hmem := G.direct v t hv
    rw [hup, List.mem_singleton] at hmem
    exact hmem
  have hready : G.Ready s t ↔ s u = .success := by
    unfold Ready
    rw [hrule, hup]
    exact List.forall_mem_singleton
  have hspared : s u = .success → (G.Spared s t ↔ G.skips u t = false) := by
    intro hsu
    constructor
    · intro h
      rw [Bool.eq_false_iff]
      exact fun hskip => h u hskip hsu
    · intro h v hv
      rw [honly v hv, h] at hv
      cases hv
  -- the task had its turn, or its one upstream task decided for it
  by_cases hturn : G.Ready s t ∧ G.Spared s t
  · have hsu := hready.1 hturn.1
    rw [state_of_ready hs hturn.1 hturn.2 ht, hsu, (hspared hsu).1 hturn.2]
    rfl
  · rcases cases_of_not_ready hs hturn with hnone | ⟨hst, v, hv, hb⟩ | ⟨hst, hskip⟩
    · rw [hnone] at ht
      cases ht
    · rw [hup, List.mem_singleton] at hv
      rw [hv] at hb
      rw [hst]
      rcases hsu : s u <;> rw [hsu] at hb <;> first | rfl | cases hb
    · rw [hst]
      rcases hskip with h | ⟨v, hv, hsv⟩
      · unfold RuleSkips at h
        rw [hrule, hup] at h
        obtain ⟨v, hv, hsv⟩ := h
        rw [List.mem_singleton] at hv
        rw [← hv, hsv]
        rfl
      · obtain rfl := honly v hv
        rw [hsv, hv]
        rfl

/-! ## Runs that are played -/

/-- The tasks of a list move one after the other, `none` when one of them stays. -/
def play (G : BranchGraph τ) (R : Runner τ) : State τ → List τ → Option (State τ)
  | s, [] => some s
  | s, t :: ts => (G.advance R s t).bind fun x => G.play R (G.settle s t x) ts

theorem reach_of_play : ∀ (ts : List τ) (s : State τ), G.play R s ts = some s' → Reach (G.Step R) s s' := by
  intro ts
  induction ts with
  | nil => intro s h; cases h; exact reach_refl _
  | cons t ts ih =>
    intro s h
    obtain ⟨x, hx, h⟩ := Option.bind_eq_some_iff.1 h
    exact (reach_step ⟨x, hx, rfl⟩).trans (ih _ h)

end BranchGraph

end SparkDev.Flow
