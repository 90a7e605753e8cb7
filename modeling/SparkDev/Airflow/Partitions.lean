import Mathlib.Data.List.Induction
import Mathlib.Logic.Function.Basic
import SparkDev.Py.StrHash
import SparkDev.Text.Encodings

/-!
# Writing a partition again

`overwrite_partition` and `write_partition` write the file of a date anew; what they
write has `hash(ds)` in it, and every run is a process with a hash secret of its own.

* `run_frame`: a run for one partition leaves the files of all others alone.
* `after_path`: a file that is overwritten holds what the last run of its partition wrote.
* `replay_iff`: two histories of the same partitions leave the same files exactly when
  the last runs of each have the hash of the date in one class modulo 50.
* `replay_diverges`: two processes for which it is not.
-/

namespace SparkDev.Airflow

open Text

/-- The date of `data_interval_start`. -/
structure Date where
  year : ℕ
  month : ℕ
  day : ℕ
  year_ok : 1 ≤ year ∧ year ≤ 9999
  month_ok : 1 ≤ month ∧ month ≤ 12
  day_ok : 1 ≤ day ∧ day ≤ 31
  deriving DecidableEq

/-- `%m` and `%d`. -/
def pad2 (n : ℕ) : String := if n < 10 then "0" ++ toString n else toString n

/-- `strftime("%Y-%m-%d")`. -/
def Date.ds (d : Date) : String := toString d.year ++ "-" ++ pad2 d.month ++ "-" ++ pad2 d.day

/-- The tasks that write a partition. -/
inductive Task where
  | appendPartition
  | overwritePartition
  | writePartition
  deriving DecidableEq, Repr

/-- How `open` is asked for the file. -/
inductive Mode where
  /-- `"a"`. -/
  | append
  /-- `"w"`. -/
  | write
  deriving DecidableEq, Repr

/-- The mode of a task. -/
def Task.mode : Task → Mode
  | .appendPartition => .append
  | .overwritePartition => .write
  | .writePartition => .write

/-- `_partition_path`. -/
def partitionPath (repo kind ds : String) : String :=
  repo ++ "/.tmp/af1_idempotency/" ++ kind ++ "/dt=" ++ ds ++ "/data.jsonl"

/-- The file a task writes. -/
def Task.path (repo : String) (task : Task) (ds : String) : String :=
  match task with
  | .appendPartition => partitionPath repo "append_broken" ds
  | .overwritePartition => partitionPath repo "overwrite_fixed" ds
  | .writePartition => repo ++ "/.tmp/af3_catchup" ++ "/dt=" ++ ds ++ "/data.txt"

/-- A row of AF-1. -/
structure Row where
  dt : String
  metric : String
  value : ℤ

/-- `json.dumps(r)`, for texts without characters to escape. -/
def jsonDumps (r : Row) : String :=
  "\x7b\"dt\": \"" ++ r.dt ++ "\", \"metric\": \"" ++ r.metric ++ "\", \"value\": " ++ toString r.value ++
    "\x7d"

/-- `100 + (hash(ds) % 50)`. -/
def value (hash : String → ℤ) (ds : String) : ℤ := 100 + hash ds % 50

/-- `_rows_for_interval`. -/
def rowsForInterval (hash : String → ℤ) (ds : String) : List Row :=
  (List.range 3).map fun _ => ⟨ds, "orders", value hash ds⟩

/-- The lines of AF-1. -/
def jsonLines (rows : List Row) : String := rows.foldl (fun text r => text ++ (jsonDumps r ++ "\n")) ""

/-- What a task writes. -/
def Task.text (task : Task) (hash : String → ℤ) (ds : String) : String :=
  match task with
  | .appendPartition => jsonLines (rowsForInterval hash ds)
  | .overwritePartition => jsonLines (rowsForInterval hash ds)
  | .writePartition => "partition dt=" ++ ds ++ "\n" ++
      ("rows=3 metric=orders value=" ++ toString (100 + hash ds % 50) ++ "\n")

/-- The files, by path. -/
abbrev Files := String → Option String

/-- A completed run of a task, in a process with this hash secret. -/
structure TaskRun (σ : Type) where
  secret : σ
  task : Task
  date : Date

variable {σ : Type}

/-- The file of a run. -/
def TaskRun.path (repo : String) (r : TaskRun σ) : String := r.task.path repo r.date.ds

/-- The files after a run. -/
def run (hash : σ → String → ℤ) (repo : String) (files : Files) (r : TaskRun σ) : Files :=
  let text := r.task.text (hash r.secret) r.date.ds
  Function.update files (r.path repo) <| some <|
    match r.task.mode with
    | .append => (files (r.path repo)).getD "" ++ text
    | .write => text

/-- The files after a history of runs. -/
def after (hash : σ → String → ℤ) (repo : String) (files : Files) (history : List (TaskRun σ)) : Files :=
  history.foldl (run hash repo) files

/-- The last run of a partition. -/
def lastRun (history : List (TaskRun σ)) (task : Task) (d : Date) : Option (TaskRun σ) :=
  (history.filter fun r => decide (r.task = task ∧ r.date = d)).getLast?

/-- The histories overwrite the same partitions. -/
def SamePartitions (history history' : List (TaskRun σ)) : Prop :=
  ∀ task d, task.mode = .write →
    ((∃ r ∈ history, r.task = task ∧ r.date = d) ↔ ∃ r ∈ history', r.task = task ∧ r.date = d)

variable {hash : σ → String → ℤ} {repo : String} {files : Files} {history : List (TaskRun σ)}
  {task task' : Task} {d d' : Date} {ds ds' : String} {r : TaskRun σ}

/-! ## Paths -/

/-- What `pad2` writes can be read back. -/
theorem pad2_inj {m n : ℕ} (hm : m < 100) (hn : n < 100) (h : pad2 m = pad2 n) : m = n := by
  have hread : ∀ k < 100, (pad2 k).toList.foldl (fun v c => 10 * v + (c.toNat - 48)) 0 = k := by decide
  rw [← hread m hm, ← hread n hn, h]

theorem pad2_length {n : ℕ} (hn : n < 100) : (pad2 n).toList.length = 2 := by
  have hall : ∀ k < 100, (pad2 k).toList.length = 2 := by decide
  exact hall n hn

/-- **Different dates have different texts**: month and day take two characters each. -/
theorem ds_inj (h : d.ds = d'.ds) : d = d' := by
  have hlist := congrArg String.toList h
  unfold Date.ds at hlist
  simp only [String.toList_append] at hlist
  have hmonth : ∀ e : Date, e.month < 100 := fun e => by have := e.month_ok; omega
  have hday : ∀ e : Date, e.day < 100 := fun e => by have := e.day_ok; omega
  -- the texts are read from the right
  obtain ⟨hlist, hd⟩ := List.append_inj' hlist (by rw [pad2_length (hday d), pad2_length (hday d')])
  have hlist := List.append_cancel_right hlist
  obtain ⟨hlist, hm⟩ := List.append_inj' hlist (by rw [pad2_length (hmonth d), pad2_length (hmonth d')])
  have hy : d.year = d'.year :=
    toString_inj (String.toList_inj.1 (List.append_cancel_right hlist))
  have hm : d.month = d'.month := pad2_inj (hmonth d) (hmonth d') (String.toList_inj.1 hm)
  have hd : d.day = d'.day := pad2_inj (hday d) (hday d') (String.toList_inj.1 hd)
  rcases d
  rcases d'
  cases hy
  cases hm
  cases hd
  rfl

/-- Different tasks and different dates have different files. -/
theorem path_inj (h : task.path repo ds = task'.path repo ds') : task = task' ∧ ds = ds' := by
  rcases task <;> rcases task' <;>
    simp [Task.path, partitionPath, ← String.toList_inj] at h ⊢ <;>
    exact h

/-! ## What is written -/

variable {h h' : String → ℤ}

/-- The value is one of fifty numbers of three digits. -/
theorem value_eq (h : String → ℤ) (ds : String) :
    ∃ k < (50 : ℕ), h ds % 50 = k ∧ value h ds = ((100 + k : ℕ) : ℤ) := by
  have hnonneg : 0 ≤ h ds % 50 := Int.emod_nonneg _ (by decide)
  have hlt : h ds % 50 < 50 := Int.emod_lt_of_pos _ (by decide)
  obtain ⟨k, hk⟩ := Int.eq_ofNat_of_zero_le hnonneg
  refine ⟨k, by omega, hk, ?_⟩
  unfold value
  omega

theorem value_length (h : String → ℤ) (ds : String) : (toString (value h ds)).toList.length = 3 := by
  have hall : ∀ k < 50, (toString (100 + k)).toList.length = 3 := by decide
  obtain ⟨k, hk, -, hval⟩ := value_eq h ds
  rw [hval]
  exact hall k hk

theorem value_inj (heq : toString (value h ds) = toString (value h' ds)) : h ds % 50 = h' ds % 50 := by
  obtain ⟨k, -, hk, hval⟩ := value_eq h ds
  obtain ⟨k', -, hk', hval'⟩ := value_eq h' ds
  rw [hval, hval'] at heq
  have hnat : 100 + k = 100 + k' := toString_inj heq
  rw [hk, hk']
  omega

theorem jsonDumps_value (heq : jsonDumps ⟨ds, "orders", value h ds⟩ = jsonDumps ⟨ds, "orders", value h' ds⟩) :
    h ds % 50 = h' ds % 50 := by
  refine value_inj ?_
  unfold jsonDumps at heq
  rw [String.append_left_inj, String.append_right_inj] at heq
  exact heq

/-- The first of equally long lines. -/
theorem jsonLines_value
    (heq : jsonLines (rowsForInterval h ds) = jsonLines (rowsForInterval h' ds)) :
    h ds % 50 = h' ds % 50 := by
  refine jsonDumps_value ?_
  have hlen : (jsonDumps ⟨ds, "orders", value h ds⟩).toList.length =
      (jsonDumps ⟨ds, "orders", value h' ds⟩).toList.length := by
    simp only [jsonDumps, String.toList_append, List.length_append, value_length]
  have hlist := congrArg String.toList heq
  simp only [jsonLines, rowsForInterval, List.range_succ, List.range_zero, List.nil_append,
    List.map_cons, List.map_nil, List.cons_append, List.foldl_cons, List.foldl_nil,
    String.toList_append, List.append_assoc] at hlist
  exact String.toList_inj.1 (List.append_inj (List.append_cancel_left hlist) hlen).1

/-- **What a task writes is the hash of the date modulo 50**, and nothing else of the process. -/
theorem text_eq_iff : task.text h ds = task.text h' ds ↔ h ds % 50 = h' ds % 50 := by
  constructor
  · intro heq
    rcases task
    · exact jsonLines_value heq
    · exact jsonLines_value heq
    · unfold Task.text at heq
      simp only [String.append_right_inj, String.append_left_inj] at heq
      exact value_inj heq
  · intro heq
    rcases task <;> simp only [Task.text, rowsForInterval, value, heq]

/-! ## Histories -/

/-- **A run for one partition leaves the files of all others alone.** -/
theorem run_frame (hne : ¬(r.task = task ∧ r.date = d)) :
    run hash repo files r (task.path repo d.ds) = files (task.path repo d.ds) := by
  refine Function.update_of_ne (fun heq => hne ?_) _ _
  obtain ⟨htask, hds⟩ := path_inj heq
  exact ⟨htask.symm, (ds_inj hds).symm⟩

theorem run_write (hmode : r.task.mode = .write) :
    run hash repo files r (r.task.path repo r.date.ds) = some (r.task.text (hash r.secret) r.date.ds) := by
  unfold run
  rw [hmode]
  exact Function.update_self _ _ _

theorem lastRun_append_of_eq (history : List (TaskRun σ)) (r : TaskRun σ) :
    lastRun (history ++ [r]) r.task r.date = some r := by
  simp [lastRun]

theorem lastRun_append_of_ne (hne : ¬(r.task = task ∧ r.date = d)) :
    lastRun (history ++ [r]) task d = lastRun history task d := by
  simp [lastRun, hne]

theorem lastRun_eq_none : lastRun history task d = none ↔ ¬∃ r ∈ history, r.task = task ∧ r.date = d := by
  simp [lastRun]

theorem after_append (history : List (TaskRun σ)) (r : TaskRun σ) :
    after hash repo files (history ++ [r]) = run hash repo (after hash repo files history) r := by
  rw [after, List.foldl_append]
  rfl

/-- **A file that is overwritten holds what the last run of its partition wrote**, by induction
on the history from its end. -/
theorem after_path (hash : σ → String → ℤ) (repo : String) (files : Files) (d : Date)
    (hmode : task.mode = .write) (history : List (TaskRun σ)) :
    after hash repo files history (task.path repo d.ds) =
      ((lastRun history task d).map fun r => task.text (hash r.secret) d.ds).or
        (files (task.path repo d.ds)) := by
  induction history using List.reverseRecOn with
  | nil => rfl
  | append_singleton history r ih =>
    rw [after_append]
    by_cases hr : r.task = task ∧ r.date = d
    · obtain ⟨rfl, rfl⟩ := hr
      rw [run_write hmode, lastRun_append_of_eq, Option.map_some, Option.some_or]
    · rw [run_frame hr, ih, lastRun_append_of_ne hr]

/-- Two histories leave the same file for a partition exactly when its last runs agree on the
hash of the date modulo 50. -/
theorem after_path_eq_iff {history' : List (TaskRun σ)} (hmode : task.mode = .write)
    (hsame : (∃ r ∈ history, r.task = task ∧ r.date = d) ↔ ∃ r ∈ history', r.task = task ∧ r.date = d) :
    after hash repo files history (task.path repo d.ds) =
        after hash repo files history' (task.path repo d.ds) ↔
      ∀ r ∈ lastRun history task d, ∀ r' ∈ lastRun history' task d,
        hash r.secret d.ds % 50 = hash r'.secret d.ds % 50 := by
  have hnone : lastRun history task d = none ↔ lastRun history' task d = none := by
    rw [lastRun_eq_none, lastRun_eq_none, hsame]
  rw [after_path hash repo files d hmode, after_path hash repo files d hmode]
  rcases hl : lastRun history task d with _ | r
  · rw [hnone.1 hl]
    simp
  · rcases hl' : lastRun history' task d with _ | r'
    · rw [hnone.2 hl'] at hl
      cases hl
    · simp only [Option.map_some, Option.some_or, Option.some.injEq, text_eq_iff, Option.mem_def,
        forall_eq']

/-- Running a partition again changes nothing exactly when the new run agrees with the last one
on the hash of the date modulo 50. -/
theorem rerun_eq_iff {last : TaskRun σ} (hmode : r.task.mode = .write)
    (hlast : lastRun history r.task r.date = some last) :
    after hash repo files (history ++ [r]) = after hash repo files history ↔
      hash r.secret r.date.ds % 50 = hash last.secret r.date.ds % 50 := by
  have hbefore := after_path hash repo files r.date hmode history
  rw [hlast, Option.map_some, Option.some_or] at hbefore
  have htext : r.task.text (hash r.secret) r.date.ds = r.task.text (hash last.secret) r.date.ds ↔
      hash r.secret r.date.ds % 50 = hash last.secret r.date.ds % 50 := text_eq_iff
  rw [after_append, ← htext]
  unfold run
  rw [hmode]
  constructor
  · intro heq
    have hfile := congrFun heq (r.path repo)
    rw [Function.update_self] at hfile
    exact Option.some.inj (hfile.trans hbefore)
  · intro heq
    exact Function.update_eq_self_iff.2 ((congrArg some heq).trans hbefore.symm)

/-- **When replays converge.** For every hash of strings and every file system before: two
histories of the same partitions, in any order and with any repetitions, leave the same files
exactly when the last runs of every partition agree on the hash of its date modulo 50, and so it
is with one more run of a partition. No run changes the file of another partition. -/
theorem replay_iff (hash : σ → String → ℤ) (repo : String) (files : Files) :
    (∀ history history', SamePartitions history history' →
      ((∀ (task : Task) (d : Date), task.mode = .write → after hash repo files history (task.path repo d.ds) =
          after hash repo files history' (task.path repo d.ds)) ↔
        ∀ (task : Task) (d : Date), task.mode = .write →
          ∀ r ∈ lastRun history task d, ∀ r' ∈ lastRun history' task d,
            hash r.secret d.ds % 50 = hash r'.secret d.ds % 50)) ∧
    (∀ history r last, r.task.mode = .write → lastRun history r.task r.date = some last →
      (after hash repo files (history ++ [r]) = after hash repo files history ↔
        hash r.secret r.date.ds % 50 = hash last.secret r.date.ds % 50)) ∧
    ∀ history r (task : Task) (d : Date), ¬(r.task = task ∧ r.date = d) →
      after hash repo files (history ++ [r]) (task.path repo d.ds) =
        after hash repo files history (task.path repo d.ds) := by
  refine ⟨fun history history' hsame => ?_, fun history r last hmode hlast => ?_,
    fun history r task d hne => ?_⟩
  · exact forall₃_congr fun task d hmode => after_path_eq_iff hmode (hsame task d hmode)
  · exact rerun_eq_iff hmode hlast
  · rw [after_append]
    exact run_frame hne

/-! ## Two processes -/

/-- 2025-03-01. -/
def march1 : Date := ⟨2025, 3, 1, by decide, by decide, by decide⟩

/-- A run of `overwrite_partition` in a process with the secret of PYTHONHASHSEED=0. -/
def firstRun : TaskRun Py.HashSecret := ⟨⟨0, 0⟩, .overwritePartition, march1⟩

/-- The same in a process with the secret of PYTHONHASHSEED=1. -/
def secondRun : TaskRun Py.HashSecret :=
  ⟨⟨12598376723466036009#64, 16999324916296290386#64⟩, .overwritePartition, march1⟩

/-- **Two processes write different files for one date**: the rows have the value 124 in the one
and 115 in the other. -/
theorem replay_diverges :
    SamePartitions [firstRun] [secondRun] ∧
    ¬∀ (task : Task) (d : Date), task.mode = .write →
      after Py.strHash "" (fun _ => none) [firstRun] (task.path "" d.ds) =
        after Py.strHash "" (fun _ => none) [secondRun] (task.path "" d.ds) := by
  constructor
  · intro task d _
    simp [firstRun, secondRun]
  · intro h
    have hfile := h .overwritePartition march1 rfl
    rw [after_path Py.strHash "" _ march1 rfl, after_path Py.strHash "" _ march1 rfl] at hfile
    simp only [lastRun, firstRun, secondRun, List.filter_cons, List.filter_nil, decide_true, and_self,
      if_true, List.getLast?_singleton, Option.map_some, Option.some_or, Option.some.injEq,
      text_eq_iff] at hfile
    exact absurd hfile (by decide +kernel)

end SparkDev.Airflow
