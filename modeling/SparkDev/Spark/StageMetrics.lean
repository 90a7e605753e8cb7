import Mathlib.Algebra.GroupWithZero.Nat
import Mathlib.Algebra.Order.BigOperators.Group.Finset
import Mathlib.Data.List.MinMax
import Mathlib.Data.Nat.Find
import Mathlib.Data.Prod.Lex
import SparkDev.Runs.Poll

/-!
# `measure`: the stages of one action

The Spark UI lists completed stages with a delay. `measure` takes the ids listed before
the action, runs it, and polls until something new is listed; from that one listing it takes
the totals and the stage whose task times it reads.

* `settle_eq`: the loop ends with the first listing that shows a new stage.
* `tally_accounts_iff`: what is read from a part of the stages accounts for all of them
  exactly when the rest moved nothing.
* `measure_iff`: so `measure` accounts for the action exactly when no poll shows only a part of it.
-/

namespace SparkDev.Spark

open Runs

/-- An entry of the UI's list of stages, as far as it is read. -/
structure Stage where
  stageId : ℕ
  attemptId : Option ℕ
  numTasks : Option ℕ
  shuffleReadBytes : Option ℕ
  shuffleWriteBytes : Option ℕ
  memoryBytesSpilled : Option ℕ
  diskBytesSpilled : Option ℕ
  deriving DecidableEq, Repr

/-- What `measure` reports of the stages. `heavy` is the stage whose task summary is asked for, and
`taskSummary` the answer, from which the task times, the skew ratio and the peak memory are read. -/
structure Metrics (τ : Type) where
  numTasks : Option ℕ := none
  shuffleReadBytes : Option ℕ := none
  shuffleWriteBytes : Option ℕ := none
  spillMemBytes : Option ℕ := none
  spillDiskBytes : Option ℕ := none
  heavy : Option Stage := none
  taskSummary : Option τ := none
  deriving DecidableEq

/-- The UI's REST API during one call: each request answers or raises. -/
structure StagesUi (ε τ : Type) where
  appId : Except ε String
  /-- The completed stages listed before the action. -/
  before : Except ε (List Stage)
  /-- The completed stages listed at each poll after it. -/
  completedStages : ℕ → Except ε (List Stage)
  taskSummary : (stageId attemptId : ℕ) → Except ε τ

/-- `_SETTLE_RETRIES`. -/
def settleRetries : ℕ := 6

/-- `[s for s in … if s["stageId"] not in before_ids]`. -/
def newStages (beforeIds : List ℕ) (listed : List Stage) : List Stage :=
  listed.filter fun s => s.stageId ∉ beforeIds

/-- `sum(s.get(key, 0) for s in new_stages)`. -/
def total (key : Stage → Option ℕ) (stages : List Stage) : ℕ := (stages.map fun s => (key s).getD 0).sum

/-- The key by which the heavy stage is the maximum. -/
def Stage.weight (s : Stage) : ℕ ×ₗ ℕ ×ₗ ℕ :=
  toLex (s.shuffleReadBytes.getD 0, toLex (s.memoryBytesSpilled.getD 0, s.numTasks.getD 0))

variable {ε τ : Type} (ui : StagesUi ε τ)

/-- The settle loop, from poll `i` on, with `n` polls left. -/
def settle (beforeIds : List ℕ) : (n i : ℕ) → Except ε (List Stage)
  | 0, _ => .ok []
  | n + 1, i =>
    match ui.completedStages i with
    | .error e => .error e
    | .ok listed =>
      if newStages beforeIds listed = [] then settle beforeIds n (i + 1)
      else .ok (newStages beforeIds listed)

/-- What is read from the new stages. -/
def tally (stages : List Stage) : Metrics τ where
  numTasks := some (total Stage.numTasks stages)
  shuffleReadBytes := some (total Stage.shuffleReadBytes stages)
  shuffleWriteBytes := some (total Stage.shuffleWriteBytes stages)
  spillMemBytes := some (total Stage.memoryBytesSpilled stages)
  spillDiskBytes := some (total Stage.diskBytesSpilled stages)
  heavy := stages.argmax Stage.weight
  taskSummary := (stages.argmax Stage.weight).bind fun h =>
    (ui.taskSummary h.stageId (h.attemptId.getD 0)).toOption

/-- `measure`, of an action that returns. A request that raises costs only the metrics, and without
the listing from before the action every stage counts as new. -/
def measure : Metrics τ :=
  match ui.appId with
  | .error _ => {}
  | .ok _ =>
    let beforeIds := match ui.before with
      | .error _ => []
      | .ok listed => listed.map Stage.stageId
    match settle ui beforeIds settleRetries 0 with
    | .error _ => {}
    | .ok [] => {}
    | .ok stages => tally ui stages

/-- The UI over one action that runs the stages `F`: it lists `B` before, and `l k` at poll `k`. -/
structure Listed (B : List Stage) (l : ℕ → List Stage) (F : Finset Stage) : Prop where
  appId : ∃ id, ui.appId = .ok id
  before : ui.before = .ok B
  completedStages : ∀ k < settleRetries, ui.completedStages k = .ok (l k)
  /-- A stage has one entry in a listing. -/
  once : ∀ k, (l k).Nodup
  /-- A listed stage stays listed. -/
  stays : ∀ {i j s}, i ≤ j → s ∈ l i → s ∈ l j
  /-- No other job is on the application. -/
  alone : ∀ {k s}, s ∈ l k → s ∈ B ∨ s ∈ F
  /-- Every stage is listed in time. -/
  inTime : ∀ s ∈ F, ∃ k < settleRetries, s ∈ l k

/-- The metrics account for all the stages `F`. -/
structure Accounts (m : Metrics τ) (F : Finset Stage) : Prop where
  numTasks : m.numTasks = some (∑ s ∈ F, s.numTasks.getD 0)
  shuffleReadBytes : m.shuffleReadBytes = some (∑ s ∈ F, s.shuffleReadBytes.getD 0)
  shuffleWriteBytes : m.shuffleWriteBytes = some (∑ s ∈ F, s.shuffleWriteBytes.getD 0)
  spillMemBytes : m.spillMemBytes = some (∑ s ∈ F, s.memoryBytesSpilled.getD 0)
  spillDiskBytes : m.spillDiskBytes = some (∑ s ∈ F, s.diskBytesSpilled.getD 0)
  heavy : ∃ s ∈ F, m.heavy = some s ∧ ∀ t ∈ F, t.weight ≤ s.weight

/-- A stage with nothing to count. -/
structure Stage.Idle (s : Stage) : Prop where
  numTasks : s.numTasks.getD 0 = 0
  shuffleReadBytes : s.shuffleReadBytes.getD 0 = 0
  shuffleWriteBytes : s.shuffleWriteBytes.getD 0 = 0
  memoryBytesSpilled : s.memoryBytesSpilled.getD 0 = 0
  diskBytesSpilled : s.diskBytesSpilled.getD 0 = 0

/-- The listing `listed` shows `s` as a new stage. -/
def Shows (B listed : List Stage) (s : Stage) : Prop := s ∈ listed ∧ s.stageId ∉ B.map Stage.stageId

/-- The new stages of a listing, when there are any. -/
def anyNew (B listed : List Stage) : Option (List Stage) :=
  if newStages (B.map Stage.stageId) listed = [] then none else some (newStages (B.map Stage.stageId) listed)

variable {ui} {B : List Stage} {l : ℕ → List Stage} {F : Finset Stage} {stages listed : List Stage} {s : Stage}

theorem mem_newStages : s ∈ newStages (B.map Stage.stageId) listed ↔ Shows B listed s := by
  unfold newStages Shows
  rw [List.mem_filter, decide_eq_true_iff]

theorem anyNew_of_shows (hs : Shows B listed s) :
    anyNew B listed = some (newStages (B.map Stage.stageId) listed) :=
  if_neg (List.ne_nil_of_mem (mem_newStages.2 hs))

theorem anyNew_of_not_shows (h : ∀ s, ¬Shows B listed s) : anyNew B listed = none := by
  have hempty : newStages (B.map Stage.stageId) listed = [] :=
    List.eq_nil_iff_forall_not_mem.2 fun s hs => h s (mem_newStages.1 hs)
  exact if_pos hempty

/-- **The settle loop.** It ends with the first listing that shows something new. -/
theorem settle_eq (h : Listed ui B l F) : ∀ {n i : ℕ}, i + n ≤ settleRetries →
    settle ui (B.map Stage.stageId) n i = .ok ((firstSome (fun k => anyNew B (l k)) n i).getD []) := by
  intro n
  induction n with
  | zero =>
    intro i _
    rfl
  | succ n ih =>
    intro i hi
    unfold settle firstSome anyNew
    rw [h.completedStages i (by omega)]
    by_cases hnew : newStages (B.map Stage.stageId) (l i) = []
    · simp only [hnew, if_true]
      exact ih (by omega)
    · simp only [hnew, if_false, Option.getD_some]

theorem measure_eq (h : Listed ui B l F) : measure ui =
    match settle ui (B.map Stage.stageId) settleRetries 0 with
    | .error _ => {}
    | .ok [] => {}
    | .ok stages => tally ui stages := by
  obtain ⟨id, hid⟩ := h.appId
  unfold measure
  rw [hid, h.before]

/-- Nothing new is listed in time. -/
theorem measure_of_not_shows (h : Listed ui B l F) (hnone : ∀ k < settleRetries, ∀ s, ¬Shows B (l k) s) :
    measure ui = {} := by
  have hfirst : firstSome (fun k => anyNew B (l k)) settleRetries 0 = none :=
    firstSome_eq_none.2 fun k _ hk => anyNew_of_not_shows (hnone k (by omega))
  rw [measure_eq h, settle_eq h (by omega), hfirst]
  rfl

/-- The first poll that shows something new is the one that is read. -/
theorem measure_of_shows {k : ℕ} (h : Listed ui B l F) (hk : k < settleRetries) (hs : Shows B (l k) s)
    (hfirst : ∀ j < k, ∀ t, ¬Shows B (l j) t) :
    measure ui = tally ui (newStages (B.map Stage.stageId) (l k)) := by
  have hsome : firstSome (fun k => anyNew B (l k)) settleRetries 0 =
      some (newStages (B.map Stage.stageId) (l k)) :=
    firstSome_eq_some.2 ⟨k, Nat.zero_le k, by omega, anyNew_of_shows hs,
      fun j _ hj => anyNew_of_not_shows (hfirst j hj)⟩
  rw [measure_eq h, settle_eq h (by omega), hsome, Option.getD_some]
  split
  · next heq => cases heq
  · next heq => exact absurd (Except.ok.inj heq) (List.ne_nil_of_mem (mem_newStages.2 hs))
  · next heq => rw [Except.ok.inj heq]

/-- A total over some of the stages is the total over all exactly when the others add nothing. -/
theorem total_eq_iff (hnd : stages.Nodup) (hsub : ∀ s ∈ stages, s ∈ F) (key : Stage → Option ℕ) :
    total key stages = ∑ s ∈ F, (key s).getD 0 ↔ ∀ s ∈ F, s ∉ stages → (key s).getD 0 = 0 := by
  have hsum : total key stages = ∑ s ∈ stages.toFinset, (key s).getD 0 := (List.sum_toFinset _ hnd).symm
  have hF : stages.toFinset ⊆ F := fun s hs => hsub s (List.mem_toFinset.1 hs)
  have hsplit := Finset.sum_sdiff (f := fun s => (key s).getD 0) hF
  rw [hsum, ← hsplit, eq_comm, Nat.add_eq_right, Finset.sum_eq_zero_iff]
  simp only [Finset.mem_sdiff, List.mem_toFinset, and_imp]

theorem Stage.Idle.weight_le (hs : s.Idle) (t : Stage) : s.weight ≤ t.weight := by
  have hzero : s.weight = toLex (0, toLex (0, 0)) := by
    unfold Stage.weight
    rw [hs.shuffleReadBytes, hs.memoryBytesSpilled, hs.numTasks]
  rw [hzero]
  unfold Stage.weight
  rw [Prod.Lex.toLex_le_toLex, Prod.Lex.toLex_le_toLex]
  simp only
  omega

/-- The heavy stage is one of the stages, and none of them outweighs it. -/
theorem heavy_spec (hs : s ∈ stages) :
    ∃ h ∈ stages, stages.argmax Stage.weight = some h ∧ ∀ t ∈ stages, t.weight ≤ h.weight := by
  rcases hmax : stages.argmax Stage.weight with _ | h
  · rw [List.argmax_eq_none] at hmax
    rw [hmax] at hs
    exact absurd hs List.not_mem_nil
  · exact ⟨h, List.argmax_mem hmax, rfl, fun t ht => List.le_of_mem_argmax ht hmax⟩

/-- **Reading a part of the stages.** It accounts for all of them exactly when the others are idle. -/
theorem tally_accounts_iff (hnd : stages.Nodup) (hsub : ∀ s ∈ stages, s ∈ F) (hs : s ∈ stages) :
    Accounts (tally ui stages) F ↔ ∀ t ∈ F, t ∉ stages → t.Idle := by
  have htotal := total_eq_iff hnd hsub
  constructor
  · intro ha t ht hout
    exact {
      numTasks := (htotal _).1 (Option.some.inj ha.numTasks) t ht hout
      shuffleReadBytes := (htotal _).1 (Option.some.inj ha.shuffleReadBytes) t ht hout
      shuffleWriteBytes := (htotal _).1 (Option.some.inj ha.shuffleWriteBytes) t ht hout
      memoryBytesSpilled := (htotal _).1 (Option.some.inj ha.spillMemBytes) t ht hout
      diskBytesSpilled := (htotal _).1 (Option.some.inj ha.spillDiskBytes) t ht hout }
  · -- idle stages add nothing to the totals, nor weigh more than the heaviest
    intro hidle
    obtain ⟨h, hmem, hmax, hle⟩ := heavy_spec hs
    have hheavy : ∀ t ∈ F, t.weight ≤ h.weight := fun t ht => by
      by_cases hin : t ∈ stages
      · exact hle t hin
      · exact (hidle t ht hin).weight_le h
    exact {
      numTasks := congrArg some ((htotal _).2 fun t ht hout => (hidle t ht hout).numTasks)
      shuffleReadBytes := congrArg some ((htotal _).2 fun t ht hout => (hidle t ht hout).shuffleReadBytes)
      shuffleWriteBytes := congrArg some ((htotal _).2 fun t ht hout => (hidle t ht hout).shuffleWriteBytes)
      spillMemBytes := congrArg some ((htotal _).2 fun t ht hout => (hidle t ht hout).memoryBytesSpilled)
      spillDiskBytes := congrArg some ((htotal _).2 fun t ht hout => (hidle t ht hout).diskBytesSpilled)
      heavy := ⟨h, hsub h hmem, hmax, hheavy⟩ }

theorem Listed.mem_of_shows {k : ℕ} (h : Listed ui B l F) (hs : Shows B (l k) s) : s ∈ F := by
  rcases h.alone hs.1 with hB | hF
  · exact absurd (List.mem_map_of_mem hB) hs.2
  · exact hF

/-- The listing read at the first poll that shows something. -/
theorem Listed.accounts_iff {k : ℕ} (h : Listed ui B l F) (hk : k < settleRetries) (hs : Shows B (l k) s)
    (hfirst : ∀ j < k, ∀ t, ¬Shows B (l j) t) :
    Accounts (measure ui) F ↔ ∀ t ∈ F, ¬Shows B (l k) t → t.Idle := by
  rw [measure_of_shows h hk hs hfirst]
  have hnd : (newStages (B.map Stage.stageId) (l k)).Nodup := (h.once k).filter _
  rw [tally_accounts_iff hnd (fun t ht => h.mem_of_shows (mem_newStages.1 ht)) (mem_newStages.2 hs)]
  simp only [mem_newStages]

/-- **When `measure` accounts for the action.** Exactly when some poll shows a stage of it, and any
poll that does shows all its stages but idle ones. -/
theorem measure_iff (h : Listed ui B l F) : Accounts (measure ui) F ↔
    (∃ k < settleRetries, ∃ s ∈ F, Shows B (l k) s) ∧
    ∀ k < settleRetries, (∃ s ∈ F, Shows B (l k) s) → ∀ t ∈ F, ¬Shows B (l k) t → t.Idle := by
  classical
  by_cases hex : ∃ k, k < settleRetries ∧ ∃ s, Shows B (l k) s
  · -- the first poll that shows something
    obtain ⟨hk, s, hs⟩ := Nat.find_spec hex
    set k := Nat.find hex
    have hfirst : ∀ j < k, ∀ t, ¬Shows B (l j) t := fun j hj t ht =>
      Nat.find_min hex hj ⟨hj.trans hk, t, ht⟩
    rw [h.accounts_iff hk hs hfirst]
    constructor
    · intro hidle
      refine ⟨⟨k, hk, s, h.mem_of_shows hs, hs⟩, fun j hj hshown t ht hnot => ?_⟩
      obtain ⟨s', -, hs'⟩ := hshown
      have hkj : k ≤ j := Nat.find_min' hex ⟨hj, s', hs'⟩
      -- what it leaves out later it leaves out at the first
      exact hidle t ht fun hshow => hnot ⟨h.stays hkj hshow.1, hshow.2⟩
    · rintro ⟨-, hall⟩
      exact hall k hk ⟨s, h.mem_of_shows hs, hs⟩
  · have hnone : ∀ k < settleRetries, ∀ s, ¬Shows B (l k) s := fun k hk s hs => hex ⟨k, hk, s, hs⟩
    rw [measure_of_not_shows h hnone]
    refine iff_of_false (fun ha => by cases ha.numTasks) ?_
    rintro ⟨⟨k, hk, s, -, hs⟩, -⟩
    exact hnone k hk s hs

/-- A scan of four tasks that writes what the next stage shuffles. -/
def scanStage : Stage := ⟨0, some 0, some 4, some 0, some 4096, some 0, some 0⟩

/-- The stage that reads it. -/
def shuffleStage : Stage := ⟨1, some 0, some 8, some 4096, some 0, some 1024, some 512⟩

/-- A UI that lists `first` at the first poll and both stages from the next one on. -/
def uiListing (first : List Stage) : StagesUi String PUnit where
  appId := .ok "app"
  before := .ok []
  completedStages := fun k => .ok (if k = 0 then first else [scanStage, shuffleStage])
  taskSummary := fun _ _ => .ok ⟨⟩

/-- Both are listed by the second poll, whatever part of them the first one shows. -/
theorem uiListing_listed {first : List Stage} (hnd : first.Nodup) (hsub : first ⊆ [scanStage, shuffleStage]) :
    Listed (uiListing first) [] (fun k => if k = 0 then first else [scanStage, shuffleStage])
      {scanStage, shuffleStage} where
  appId := ⟨"app", rfl⟩
  before := rfl
  completedStages := fun _ _ => rfl
  once := fun k => by
    by_cases hk : k = 0
    · rwa [if_pos hk]
    · rw [if_neg hk]
      decide
  stays := fun {i j s} hij hs => by
    by_cases hj : j = 0
    · have hi : i = 0 := by omega
      rw [if_pos hi] at hs
      rwa [if_pos hj]
    · rw [if_neg hj]
      by_cases hi : i = 0
      · rw [if_pos hi] at hs
        exact hsub hs
      · rwa [if_neg hi] at hs
  alone := fun {k s} hs => by
    have hin : s ∈ [scanStage, shuffleStage] := by
      by_cases hk : k = 0
      · rw [if_pos hk] at hs
        exact hsub hs
      · rwa [if_neg hk] at hs
    simpa using hin
  inTime := fun s hs => ⟨1, by decide, by simpa using hs⟩

/-- `measure_iff` where the UI lists both stages at once. -/
theorem measure_iff_both :
    Accounts (measure (uiListing [scanStage, shuffleStage])) {scanStage, shuffleStage} := by
  have hlisted : Listed (uiListing [scanStage, shuffleStage]) []
      (fun k => if k = 0 then [scanStage, shuffleStage] else [scanStage, shuffleStage])
      {scanStage, shuffleStage} := uiListing_listed (by decide) (List.Subset.refl _)
  refine (measure_iff hlisted).2 ⟨⟨0, by decide, scanStage, by decide, ?_⟩, fun k _ _ t ht hnot => ?_⟩
  · exact ⟨by decide, List.not_mem_nil⟩
  · refine absurd ⟨?_, List.not_mem_nil⟩ hnot
    rw [ite_self]
    simpa using ht

/-- The first poll shows the scan alone, and the stage that shuffles is never counted. -/
theorem first_poll_shows_a_part : ¬∀ (ui : StagesUi String PUnit) (B : List Stage) (l : ℕ → List Stage)
    (F : Finset Stage), Listed ui B l F → Accounts (measure ui) F := by
  intro h
  have hacc := h _ _ _ _ (uiListing_listed (List.nodup_singleton scanStage) (by decide))
  have htasks := hacc.numTasks
  exact absurd htasks (by decide)

end SparkDev.Spark
