import Mathlib.Algebra.GroupWithZero.Nat
import SparkDev.Flow.Branching

/-!
# The branching DAG

`af6_trigger_rules_branching`: `pick_branch` follows one of two arms by the parity of a
row count, a join comes after both, and `gate` stops `after_gate` by the same parity. The
join has `trigger_rule="none_failed_min_one_success"`; with the default rule it would be
skipped with the arm that was not chosen.

* `af6_final`: the final state of every task, whatever order the tasks ran in.
* `naive_join_never_runs`: under the default rule the join never has its turn.
-/

namespace SparkDev.Airflow.Af6

open SparkDev.Flow Runs

/-- The tasks of `af6_trigger_rules_branching`. -/
inductive Task where
  | pickBranch
  | runFullRefresh
  | runIncremental
  | joinAfterBranch
  | gate
  | afterGate
  deriving DecidableEq, Repr

/-- `_row_count_for_interval`. -/
def rowCountForInterval (ds : String) : ℕ := 100 + (ds.toList.map Char.toNat).sum % 7

/-- What `pick_branch` returns. -/
def pickBranch (ds : String) : Task :=
  if rowCountForInterval ds % 2 = 0 then .runFullRefresh else .runIncremental

/-- What `gate` returns. -/
def gate (ds : String) : Bool := decide (rowCountForInterval ds % 2 = 0)

/-- The DAG for a date, with a rule for the join. -/
def af6 (joinRule : JoinRule) (ds : String) : BranchGraph Task where
  upstream
    | .pickBranch => []
    | .runFullRefresh => [.pickBranch]
    | .runIncremental => [.pickBranch]
    | .joinAfterBranch => [.runFullRefresh, .runIncremental]
    | .gate => []
    | .afterGate => [.gate]
  rule
    | .joinAfterBranch => joinRule
    | _ => .allSuccess
  skips
    | .pickBranch, .runFullRefresh => decide (pickBranch ds ≠ .runFullRefresh)
    | .pickBranch, .runIncremental => decide (pickBranch ds ≠ .runIncremental)
    | .gate, .afterGate => !gate ds
    | _, _ => false
  direct := by
    intro t u h
    cases t <;> cases u <;> first | cases h | exact List.mem_singleton_self _

/-- The final states: the arms after `pick_branch`, the join after the chosen arm. -/
def af6State (ds : String) (R : Runner Task) : State Task
  | .pickBranch => (R.own .pickBranch).state
  | .runFullRefresh => BranchGraph.follow (R.own .pickBranch).state
      (decide (pickBranch ds ≠ .runFullRefresh)) (R.own .runFullRefresh)
  | .runIncremental => BranchGraph.follow (R.own .pickBranch).state
      (decide (pickBranch ds ≠ .runIncremental)) (R.own .runIncremental)
  | .joinAfterBranch => BranchGraph.follow
      (BranchGraph.follow (R.own .pickBranch).state false (R.own (pickBranch ds))) false (R.own .joinAfterBranch)
  | .gate => (R.own .gate).state
  | .afterGate => BranchGraph.follow (R.own .gate).state (!gate ds) (R.own .afterGate)

variable {ds : String} {R : Runner Task} {s : State Task} {joinRule : JoinRule}

/-- The arms, when everything is over. -/
theorem arms_final (hs : (af6 joinRule ds).Consistent R s) (hc : TaskGraph.Complete s) :
    s .runFullRefresh = af6State ds R .runFullRefresh ∧ s .runIncremental = af6State ds R .runIncremental := by
  have hpick : s .pickBranch = (R.own .pickBranch).state := BranchGraph.state_of_root hs rfl rfl (hc _)
  constructor
  · rw [BranchGraph.state_of_single hs rfl rfl (hc .pickBranch) (hc .runFullRefresh), hpick]
    rfl
  · rw [BranchGraph.state_of_single hs rfl rfl (hc .pickBranch) (hc .runIncremental), hpick]
    rfl

/-- The chosen arm is spared. -/
theorem chosen_final (hs : (af6 joinRule ds).Consistent R s) (hc : TaskGraph.Complete s) :
    s (pickBranch ds) = BranchGraph.follow (R.own .pickBranch).state false (R.own (pickBranch ds)) := by
  obtain ⟨hfull, hincr⟩ := arms_final hs hc
  by_cases heven : rowCountForInterval ds % 2 = 0
  · have hpick : pickBranch ds = .runFullRefresh := if_pos heven
    rw [hpick, hfull]
    show BranchGraph.follow _ (decide (pickBranch ds ≠ .runFullRefresh)) _ = _
    rw [hpick]
    rfl
  · have hpick : pickBranch ds = .runIncremental := if_neg heven
    rw [hpick, hincr]
    show BranchGraph.follow _ (decide (pickBranch ds ≠ .runIncremental)) _ = _
    rw [hpick]
    rfl

/-- The other arm. -/
def otherArm (ds : String) : Task :=
  if rowCountForInterval ds % 2 = 0 then .runIncremental else .runFullRefresh

theorem other_final (hs : (af6 joinRule ds).Consistent R s) (hc : TaskGraph.Complete s) :
    s (otherArm ds) = BranchGraph.follow (R.own .pickBranch).state true (R.own (otherArm ds)) := by
  obtain ⟨hfull, hincr⟩ := arms_final hs hc
  by_cases heven : rowCountForInterval ds % 2 = 0
  · have hpick : pickBranch ds = .runFullRefresh := if_pos heven
    have hother : otherArm ds = .runIncremental := if_pos heven
    rw [hother, hincr]
    show BranchGraph.follow _ (decide (pickBranch ds ≠ .runIncremental)) _ = _
    rw [hpick]
    rfl
  · have hpick : pickBranch ds = .runIncremental := if_neg heven
    have hother : otherArm ds = .runFullRefresh := if_neg heven
    rw [hother, hfull]
    show BranchGraph.follow _ (decide (pickBranch ds ≠ .runFullRefresh)) _ = _
    rw [hpick]
    rfl

/-- The join's upstream tasks are the two arms. -/
theorem mem_arms {u : Task} : u ∈ (af6 joinRule ds).upstream .joinAfterBranch ↔
    u = pickBranch ds ∨ u = otherArm ds := by
  unfold pickBranch otherArm
  by_cases heven : rowCountForInterval ds % 2 = 0
  · rw [if_pos heven, if_pos heven]
    cases u <;> simp [af6]
  · rw [if_neg heven, if_neg heven]
    cases u <;> simp [af6]

/-- No task skips the join. -/
theorem join_spared : (af6 joinRule ds).Spared s .joinAfterBranch := by
  intro u hu
  cases u <;> cases hu

/-- How the two arms end together. -/
theorem arms_cases (hs : (af6 joinRule ds).Consistent R s) (hc : TaskGraph.Complete s) :
    (s (pickBranch ds)).bad = true ∨
      (s (pickBranch ds) = .success ∨ s (pickBranch ds) = .skipped) ∧ s (otherArm ds) = .skipped := by
  rw [chosen_final hs hc, other_final hs hc]
  rcases R.own .pickBranch
  · rcases R.own (pickBranch ds)
    · exact Or.inr ⟨Or.inl rfl, rfl⟩
    · exact Or.inr ⟨Or.inr rfl, rfl⟩
    · exact Or.inl rfl
  · exact Or.inr ⟨Or.inr rfl, rfl⟩
  · exact Or.inl rfl

/-- The other arm is not run. -/
theorem other_ne_success (hs : (af6 joinRule ds).Consistent R s) (hc : TaskGraph.Complete s) :
    s (otherArm ds) ≠ .success := by
  rw [other_final hs hc]
  rcases R.own .pickBranch
  all_goals
    intro h
    cases h

/-- **The join follows the chosen arm.** -/
theorem join_final (hs : (af6 .noneFailedMinOneSuccess ds).Consistent R s) (hc : TaskGraph.Complete s) :
    s .joinAfterBranch = BranchGraph.follow (s (pickBranch ds)) false (R.own .joinAfterBranch) := by
  -- the join has its turn exactly when the chosen arm succeeded: the other one never does
  have hready : (af6 .noneFailedMinOneSuccess ds).Ready s .joinAfterBranch ↔ s (pickBranch ds) = .success := by
    constructor
    · rintro (h | ⟨-, u, hu, hsu⟩)
      · cases h
      · rcases mem_arms.1 hu with rfl | rfl
        · exact hsu
        · exact absurd hsu (other_ne_success hs hc)
    · intro hsu
      refine Or.inr ⟨fun u hu => ?_, _, mem_arms.2 (Or.inl rfl), hsu⟩
      rcases mem_arms.1 hu with rfl | rfl
      · exact Or.inl hsu
      · rcases arms_cases hs hc with hb | ⟨-, ho⟩
        · rw [hsu] at hb
          cases hb
        · exact Or.inr ho
  by_cases hsucc : s (pickBranch ds) = .success
  · rw [BranchGraph.state_of_ready hs (hready.2 hsucc) join_spared (hc _), hsucc]
    rfl
  · have hturn : ¬((af6 .noneFailedMinOneSuccess ds).Ready s .joinAfterBranch ∧
        (af6 .noneFailedMinOneSuccess ds).Spared s .joinAfterBranch) := fun h => hsucc (hready.1 h.1)
    rcases arms_cases hs hc with hb | ⟨hx, ho⟩
    · -- the chosen arm failed, and the rule does not have the join skipped
      have hfollow : BranchGraph.follow (s (pickBranch ds)) false (R.own .joinAfterBranch) = .upstreamFailed := by
        rcases hx : s (pickBranch ds) <;> rw [hx] at hb <;> first | rfl | cases hb
      rw [hfollow]
      rcases BranchGraph.cases_of_not_ready hs hturn with hnone | ⟨hst, -⟩ | ⟨-, ⟨-, hall⟩ | ⟨u, hu, hsu⟩⟩
      · have hterm := hc .joinAfterBranch
        rw [hnone] at hterm
        cases hterm
      · exact hst
      · rw [hall _ (mem_arms.2 (Or.inl rfl))] at hb
        cases hb
      · exact absurd hsu (join_spared u hu)
    · -- both arms are skipped, and so is the join
      have hskip := hx.resolve_left hsucc
      rw [hskip]
      rcases BranchGraph.cases_of_not_ready hs hturn with hnone | ⟨-, u, hu, hb⟩ | ⟨hst, -⟩
      · have hterm := hc .joinAfterBranch
        rw [hnone] at hterm
        cases hterm
      · rcases mem_arms.1 hu with rfl | rfl
        · rw [hskip] at hb
          cases hb
        · rw [ho] at hb
          cases hb
      · exact hst

/-- **The final states do not depend on the order.** For every date, every outcome of the attempts and
every order in which the tasks run: once all are over, each arm ends as the branch and its own
attempts say, and the arm that was not chosen is skipped or has `pick_branch` fail before it; the
join runs exactly when the chosen arm succeeded; and `after_gate` when the gate was open. -/
theorem af6_final (ds : String) (R : Runner Task) (s : State Task)
    (hr : Reach ((af6 .noneFailedMinOneSuccess ds).Step R) TaskGraph.start s) (hc : TaskGraph.Complete s) :
    s = af6State ds R := by
  have hs := BranchGraph.consistent_reach hr
  have hgate : s .gate = (R.own .gate).state := BranchGraph.state_of_root hs rfl rfl (hc _)
  funext t
  cases t with
  | pickBranch => exact BranchGraph.state_of_root hs rfl rfl (hc _)
  | runFullRefresh => exact (arms_final hs hc).1
  | runIncremental => exact (arms_final hs hc).2
  | joinAfterBranch => rw [join_final hs hc, chosen_final hs hc]; rfl
  | gate => exact hgate
  | afterGate =>
    rw [BranchGraph.state_of_single hs rfl rfl (hc .gate) (hc .afterGate), hgate]
    rfl

/-- Every attempt succeeds. -/
def allSucceed : Runner Task := ⟨fun _ _ => .success, fun _ => 0⟩

/-- An order of the tasks in which the full refresh is chosen. -/
def fullRefreshMoves : List Task :=
  [.gate, .pickBranch, .pickBranch, .runFullRefresh, .gate, .runFullRefresh, .joinAfterBranch, .afterGate,
    .joinAfterBranch, .afterGate]

/-- The run for 2025-03-01, a date with an even row count, takes the full refresh. -/
theorem af6_final_even : ∃ s, Reach ((af6 .noneFailedMinOneSuccess "2025-03-01").Step allSucceed) TaskGraph.start s ∧
    s .runFullRefresh = .success ∧ s .runIncremental = .skipped ∧ s .joinAfterBranch = .success ∧
      s .afterGate = .success := by
  have hplay : ((af6 .noneFailedMinOneSuccess "2025-03-01").play allSucceed TaskGraph.start
      fullRefreshMoves).isSome = true := by decide
  obtain ⟨s, hs⟩ := Option.isSome_iff_exists.1 hplay
  have hterm : ((af6 .noneFailedMinOneSuccess "2025-03-01").play allSucceed TaskGraph.start
      fullRefreshMoves).map (fun s => [Task.pickBranch, .runFullRefresh, .runIncremental, .joinAfterBranch,
        .gate, .afterGate].all fun t => (s t).terminal) = some true := by decide
  rw [hs, Option.map_some, Option.some.injEq, List.all_eq_true] at hterm
  have hreach := BranchGraph.reach_of_play _ _ hs
  have hfinal := af6_final "2025-03-01" allSucceed s hreach fun t => hterm t (by cases t <;> decide)
  refine ⟨s, hreach, ?_⟩
  rw [hfinal]
  decide

/-- **The default rule.** In every reachable state of the DAG with `all_success` at the join, whatever
the date and the attempts, the join has not been started: it is untouched, skipped or failed by an
upstream task. -/
theorem naive_join_never_runs (ds : String) (R : Runner Task) (s : State Task)
    (hr : Reach ((af6 .allSuccess ds).Step R) TaskGraph.start s) :
    s .joinAfterBranch = .none ∨ s .joinAfterBranch = .skipped ∨ s .joinAfterBranch = .upstreamFailed := by
  have hs := BranchGraph.consistent_reach hr
  have hnot : ¬((af6 .allSuccess ds).Ready s .joinAfterBranch ∧ (af6 .allSuccess ds).Spared s .joinAfterBranch) := by
    rintro ⟨hready, -⟩
    -- both arms would have succeeded, also the one that is skipped
    have hother : s (otherArm ds) = .success := hready _ (mem_arms.2 (Or.inr rfl))
    have hok := hs (otherArm ds)
    rw [hother] at hok
    obtain ⟨harm, hspared, -⟩ := hok
    have hskips : (af6 .allSuccess ds).skips .pickBranch (otherArm ds) = true := by
      unfold otherArm
      by_cases heven : rowCountForInterval ds % 2 = 0
      · simp [af6, pickBranch, heven]
      · simp [af6, pickBranch, heven]
    have hup : Task.pickBranch ∈ (af6 .allSuccess ds).upstream (otherArm ds) :=
      (af6 .allSuccess ds).direct _ _ hskips
    have hrule : (af6 .allSuccess ds).rule (otherArm ds) = .allSuccess := by
      unfold otherArm
      split <;> rfl
    unfold BranchGraph.Ready at harm
    rw [hrule] at harm
    exact hspared _ hskips (harm _ hup)
  rcases BranchGraph.cases_of_not_ready hs hnot with h | ⟨h, -⟩ | ⟨h, -⟩
  · exact Or.inl h
  · exact Or.inr (Or.inr h)
  · exact Or.inr (Or.inl h)

/-- The same moves up to the join, which is skipped although the chosen arm succeeded. -/
theorem naive_join_skipped : ∃ s, Reach ((af6 .allSuccess "2025-03-01").Step allSucceed) TaskGraph.start s ∧
    s .runFullRefresh = .success ∧ s .joinAfterBranch ≠ .success := by
  have hplay : ((af6 .allSuccess "2025-03-01").play allSucceed TaskGraph.start
      (fullRefreshMoves.take 7)).isSome = true := by decide
  obtain ⟨s, hs⟩ := Option.isSome_iff_exists.1 hplay
  have hfull : ((af6 .allSuccess "2025-03-01").play allSucceed TaskGraph.start
      (fullRefreshMoves.take 7)).map (fun s => s .runFullRefresh) = some .success := by decide
  rw [hs, Option.map_some, Option.some.injEq] at hfull
  have hreach := BranchGraph.reach_of_play _ _ hs
  refine ⟨s, hreach, hfull, fun h => ?_⟩
  rcases naive_join_never_runs "2025-03-01" allSucceed s hreach with h' | h' | h' <;>
    exact absurd (h.symm.trans h') (by decide)

end SparkDev.Airflow.Af6
