import SparkDev.Flow.TaskGraph

/-!
# Lines of tasks

Tasks that follow each other, each after the one before it alone, under the default rule.

* `state_of_single`: what a task makes of the state of the one before it.
* `line_of_own`: how the last task of a line ends.
-/

namespace SparkDev.Flow

/-- What becomes of a task whose only upstream task ended in a state. -/
def TaskState.next (before : TaskState) (own : Outcome) : TaskState :=
  match before with
  | .success => own.state
  | .skipped => .skipped
  | _ => .upstreamFailed

namespace TaskGraph

variable {τ : Type*} {G : TaskGraph τ} {R : Runner τ} {s : State τ} {t u : τ}

/-- The tasks of the list follow the task, in this order. -/
def Line (G : TaskGraph τ) : τ → List τ → Prop
  | _, [] => True
  | t, u :: us => G.upstream u = [t] ∧ G.rule u = .allSuccess ∧ G.Line u us

/-- The last task of a line. -/
def lineEnd : τ → List τ → τ
  | t, [] => t
  | _, u :: us => lineEnd u us

/-- The first of the tasks that does not succeed by itself fails. -/
def FirstFails (R : Runner τ) : List τ → Prop
  | [] => False
  | t :: ts => R.own t = .failed ∨ (R.own t = .success ∧ FirstFails R ts)

theorem state_of_first (hs : G.Consistent R s) (hup : G.upstream t = []) (ht : (s t).terminal = true) :
    s t = (R.own t).state := by
  refine state_of_ready hs (fun u hu => ?_) ht
  rw [hup] at hu
  cases hu

/-- **A task with one upstream task** under the default rule. -/
theorem state_of_single (hs : G.Consistent R s) (hup : G.upstream t = [u]) (hrule : G.rule t = .allSuccess)
    (ht : (s t).terminal = true) : s t = (s u).next (R.own t) := by
  have hready : G.Ready s t ↔ s u = .success := by
    unfold Ready
    rw [hrule, hup, List.forall_mem_singleton]
    exact decide_eq_true_iff
  by_cases hsu : s u = .success
  · rw [state_of_ready hs (hready.2 hsu) ht, hsu]
    rfl
  · have hno : ¬ G.Ready s t := fun h => hsu (hready.1 h)
    have hok := hs t
    -- a task that is not ready has neither run nor failed by itself
    rcases hst : s t with _ | k | k | _ | _ | _ | _ <;> rw [hst] at hok ht
    · cases ht
    · cases ht
    · cases ht
    · exact absurd hok.1 hno
    · exact absurd hok.1 hno
    · obtain ⟨-, v, hv, hbad⟩ := hok
      rw [hup, List.mem_singleton] at hv
      rw [hv] at hbad
      rcases hsu' : s u <;> rw [hsu'] at hbad <;> first | rfl | cases hbad
    · rcases hok with h | ⟨-, v, hv, hskip⟩
      · exact absurd h.1 hno
      · rw [hup, List.mem_singleton] at hv
        rw [← hv, hskip]
        rfl

/-- A line after a task that did not succeed ends as that task did, or with it. -/
theorem line_of_not_success (hs : G.Consistent R s) (hc : Complete s) (us : List τ) : ∀ {t : τ}, G.Line t us →
    s t ≠ .success → s (lineEnd t us) ≠ .success ∧ ((s (lineEnd t us)).bad = (s t).bad) := by
  induction us with
  | nil => exact fun _ h => ⟨h, rfl⟩
  | cons u us ih =>
    intro t hline ht
    obtain ⟨hup, hrule, hrest⟩ := hline
    have hu := state_of_single hs hup hrule (hc u)
    have hterm := hc t
    have hnext : s u ≠ .success ∧ (s u).bad = (s t).bad := by
      rw [hu]
      rcases hst : s t with _ | k | k | _ | _ | _ | _ <;> rw [hst] at ht hterm
      · cases hterm
      · cases hterm
      · cases hterm
      · exact absurd rfl ht
      · exact ⟨TaskState.noConfusion, rfl⟩
      · exact ⟨TaskState.noConfusion, rfl⟩
      · exact ⟨TaskState.noConfusion, rfl⟩
    obtain ⟨hne, hbad⟩ := ih hrest hnext.1
    exact ⟨hne, hbad.trans hnext.2⟩

/-- How a line goes on after a task. -/
theorem line_of_own (hs : G.Consistent R s) (hc : Complete s) (us : List τ) : ∀ {t : τ}, G.Line t us →
    s t = (R.own t).state →
    (s (lineEnd t us) = .success ↔ ∀ v ∈ t :: us, R.own v = .success) ∧
      ((s (lineEnd t us)).bad = true ↔ FirstFails R (t :: us)) := by
  -- along the line: a task that succeeds passes the turn on, one that does not ends it
  induction us with
  | nil =>
    intro t _ ht
    show (s t = .success ↔ _) ∧ ((s t).bad = true ↔ _)
    rw [ht]
    rcases hown : R.own t <;> simp [FirstFails, Outcome.state, TaskState.bad, hown]
  | cons u us ih =>
    intro t hline ht
    have hline' := hline
    obtain ⟨hup, hrule, hrest⟩ := hline
    by_cases hown : R.own t = .success
    · -- the next task has its turn
      have hst : s t = .success := by rw [ht, hown]; rfl
      have hu : s u = (R.own u).state := by
        rw [state_of_single hs hup hrule (hc u), hst]
        rfl
      obtain ⟨hsuccess, hbad⟩ := ih hrest hu
      constructor
      · rw [List.forall_mem_cons]
        exact hsuccess.trans (and_iff_right hown).symm
      · have hnot : R.own t ≠ .failed := by rw [hown]; decide
        rw [FirstFails, or_iff_right hnot, and_iff_right hown]
        exact hbad
    · have hne : s t ≠ .success := by
        rw [ht]
        rcases h : R.own t
        · exact absurd h hown
        · decide
        · decide
      obtain ⟨hend, hbad⟩ := line_of_not_success hs hc (u :: us) hline' hne
      constructor
      · exact ⟨fun h => absurd h hend, fun h => absurd (h t List.mem_cons_self) hown⟩
      · rw [hbad, ht, FirstFails]
        rcases h : R.own t
        · exact absurd h hown
        · simp [Outcome.state, TaskState.bad]
        · simp [Outcome.state, TaskState.bad]

end TaskGraph

end SparkDev.Flow
