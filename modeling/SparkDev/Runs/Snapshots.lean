import Mathlib.Data.List.Basic
import Mathlib.Data.List.MinMax
import Mathlib.Data.List.Nodup
import SparkDev.Runs.Chain
import SparkDev.Sql.Keyed

/-!
# Snapshots over a store of files

A table is a list of snapshots, each a list of names of files that are never written
again. A writer puts its files on disk first and commits them later, or never. How a table
format commits, expires snapshots, removes orphans and rolls back is known by what it promises
(`Format.Documented`).

* `Versioned.OK`: the invariant of every run in which no writer is overtaken by a removal of
  orphans: every file of every snapshot is on disk.
* `readFiles_run`: what a snapshot reads never changes.
* `plain_documented`: a format that keeps the promises.
-/

namespace SparkDev.Runs

open Sql

/-- A file on disk. -/
structure DataFile (ν γ : Type*) where
  name : ν
  modified : ℕ
  content : γ
  deriving DecidableEq, Repr

/-- The file a name is looked up by. -/
def DataFile.key {ν γ : Type*} (f : DataFile ν γ) : Option ν := some f.name

/-- A snapshot. -/
structure Commit (ν : Type*) where
  id : ℕ
  time : ℕ
  files : List ν
  deriving DecidableEq, Repr

/-- A table and its directory. -/
structure Versioned (ν γ : Type*) where
  now : ℕ
  disk : List (DataFile ν γ)
  /-- The current snapshot and its ancestors. -/
  lineage : List (Commit ν)
  /-- The snapshots that are not. -/
  others : List (Commit ν)
  /-- The files of writers that have not committed. -/
  writing : List ν
  /-- The ids that were ever given to a snapshot. -/
  issued : List ℕ

namespace Versioned

variable {ν γ : Type*}

/-- A new table. -/
def start : Versioned ν γ := ⟨0, [], [], [], [], []⟩

/-- All snapshots. -/
def snapshots (s : Versioned ν γ) : List (Commit ν) := s.lineage ++ s.others

/-- The files of the current snapshot. -/
def currentFiles (s : Versioned ν γ) : List ν :=
  match s.lineage with
  | [] => []
  | c :: _ => c.files

variable [DecidableEq ν]

/-- Some snapshot has the file. -/
def refersTo (snapshots : List (Commit ν)) (n : ν) : Bool := snapshots.any fun c => decide (n ∈ c.files)

/-- **A commit** makes a snapshot of files of the current one that it keeps and files its writer added. -/
structure Committed (kept added : List ν) (s t : Versioned ν γ) : Prop where
  kept_subset : kept ⊆ s.currentFiles
  added_subset : added ⊆ s.writing
  nodup : (kept ++ added).Nodup
  snapshot : ∃ c : Commit ν, t.lineage = c :: s.lineage ∧ c.files = kept ++ added ∧ c.id ∉ s.issued ∧
    t.issued = c.id :: s.issued
  others : t.others = s.others
  disk : t.disk = s.disk
  writing : t.writing = s.writing.filter fun n => !decide (n ∈ added)

/-- **An expiry** drops the snapshots that are older than `olderThan`, but not the current one nor the last
`retainLast` of its lineage, and the files that were in snapshots and are in none any more. -/
structure Expired (olderThan retainLast : ℕ) (s t : Versioned ν γ) : Prop where
  lineage : t.lineage.Sublist s.lineage
  others : t.others.Sublist s.others
  current : t.currentFiles = s.currentFiles
  kept_iff : ∀ c ∈ s.snapshots, c ∈ t.snapshots ↔ olderThan ≤ c.time ∨ c ∈ s.lineage.take (max 1 retainLast)
  disk : t.disk.Sublist s.disk
  disk_iff : ∀ f ∈ s.disk, f ∈ t.disk ↔
    (refersTo s.snapshots f.name = true → refersTo t.snapshots f.name = true)
  writing : t.writing = s.writing
  issued : t.issued = s.issued

/-- **A removal of orphans**, refused for files younger than `guard`, deletes the files that no snapshot has
and that are older than `olderThan`. -/
structure Swept (guard olderThan : ℕ) (s t : Versioned ν γ) : Prop where
  guarded : olderThan + guard ≤ s.now
  disk : t.disk.Sublist s.disk
  disk_iff : ∀ f ∈ s.disk, f ∈ t.disk ↔ refersTo s.snapshots f.name = true ∨ olderThan ≤ f.modified
  lineage : t.lineage = s.lineage
  others : t.others = s.others
  writing : t.writing = s.writing
  issued : t.issued = s.issued

/-- **A rollback** to an ancestor of the current snapshot makes its files current. It drops no snapshot,
and may record one of its own. -/
structure RolledBack (id : ℕ) (s t : Versioned ν γ) : Prop where
  target : ∃ c ∈ s.lineage, c.id = id ∧ t.currentFiles = c.files ∧
    (t.snapshots.Perm s.snapshots ∧ t.issued = s.issued ∨
      ∃ d : Commit ν, d.files = c.files ∧ d.id ∉ s.issued ∧ t.snapshots.Perm (d :: s.snapshots) ∧
        t.issued = d.id :: s.issued)
  disk : t.disk = s.disk
  writing : t.writing = s.writing

end Versioned

/-- What a table format does to a table. -/
structure Format (ν γ : Type*) where
  commit : List ν → List ν → Versioned ν γ → Versioned ν γ → Prop
  expire : ℕ → ℕ → Versioned ν γ → Versioned ν γ → Prop
  removeOrphans : ℕ → Versioned ν γ → Versioned ν γ → Prop
  rollback : ℕ → Versioned ν γ → Versioned ν γ → Prop

open Versioned in
/-- What it promises. -/
structure Format.Documented {ν γ : Type*} [DecidableEq ν] (F : Format ν γ) (guard : ℕ) : Prop where
  commit {kept added : List ν} {s t : Versioned ν γ} (h : F.commit kept added s t) : Committed kept added s t
  expire {olderThan retainLast : ℕ} {s t : Versioned ν γ} (h : F.expire olderThan retainLast s t) :
    Expired olderThan retainLast s t
  removeOrphans {olderThan : ℕ} {s t : Versioned ν γ} (h : F.removeOrphans olderThan s t) : Swept guard olderThan s t
  rollback {id : ℕ} {s t : Versioned ν γ} (h : F.rollback id s t) : RolledBack id s t

/-- A step of a table. -/
inductive VersionedAct (ν γ : Type*) where
  | tick (d : ℕ)
  | write (name : ν) (content : γ)
  | abandon (name : ν)
  | touch (name : ν) (time : ℕ)
  | commit (kept added : List ν)
  | expire (olderThan retainLast : ℕ)
  | removeOrphans (olderThan : ℕ)
  | rollback (id : ℕ)

/-- Nobody commits or rolls back. -/
def VersionedAct.Maintains {ν γ : Type*} : VersionedAct ν γ → Prop
  | .commit _ _ => False
  | .rollback _ => False
  | _ => True

namespace Versioned

variable {ν γ : Type*} [DecidableEq ν]

/-- The steps. The name of a new file is not on disk, and in no snapshot. -/
inductive Step (F : Format ν γ) : Versioned ν γ → VersionedAct ν γ → Versioned ν γ → Prop where
  | tick {s : Versioned ν γ} {d : ℕ} : Step F s (.tick d) { s with now := s.now + d }
  | write {s : Versioned ν γ} {n : ν} {x : γ} (hfresh : lookup DataFile.key s.disk n = none)
      (hunused : refersTo s.snapshots n = false) :
      Step F s (.write n x) { s with disk := s.disk ++ [⟨n, s.now, x⟩], writing := s.writing ++ [n] }
  | abandon {s : Versioned ν γ} {n : ν} :
      Step F s (.abandon n) { s with writing := s.writing.filter fun m => !decide (m = n) }
  | touch {s : Versioned ν γ} {n : ν} {time : ℕ} :
      Step F s (.touch n time)
        { s with disk := s.disk.map fun f => if f.name = n then { f with modified := time } else f }
  | commit {s t : Versioned ν γ} {kept added : List ν} (h : F.commit kept added s t) :
      Step F s (.commit kept added) t
  | expire {s t : Versioned ν γ} {olderThan retainLast : ℕ} (h : F.expire olderThan retainLast s t) :
      Step F s (.expire olderThan retainLast) t
  | removeOrphans {s t : Versioned ν γ} {olderThan : ℕ} (h : F.removeOrphans olderThan s t) :
      Step F s (.removeOrphans olderThan) t
  | rollback {s t : Versioned ν γ} {id : ℕ} (h : F.rollback id s t) : Step F s (.rollback id) t

/-- No file of a writer is older than `guard`. -/
def InTime (guard : ℕ) (s : Versioned ν γ) : Prop :=
  ∀ f ∈ s.disk, f.name ∈ s.writing → s.now ≤ f.modified + guard

instance (guard : ℕ) (s : Versioned ν γ) : Decidable (s.InTime guard) :=
  inferInstanceAs (Decidable (∀ f ∈ s.disk, f.name ∈ s.writing → s.now ≤ f.modified + guard))

/-- The steps in which no writer takes longer than `guard`. -/
def TimelyStep (F : Format ν γ) (guard : ℕ) (s : Versioned ν γ) (a : VersionedAct ν γ) (t : Versioned ν γ) : Prop :=
  Step F s a t ∧ s.InTime guard

/-- The contents of some files, if all of them are on disk. -/
def readFiles (s : Versioned ν γ) : List ν → Option (List γ)
  | [] => some []
  | n :: ns => (lookup DataFile.key s.disk n).bind fun f => (s.readFiles ns).map (f.content :: ·)

/-- What the table reads. -/
def readCurrent (s : Versioned ν γ) : Option (List γ) := s.readFiles s.currentFiles

/-- `VERSION AS OF`. -/
def versionAsOf (s : Versioned ν γ) (id : ℕ) : Option (List γ) :=
  (s.snapshots.find? fun c => decide (c.id = id)).bind fun c => s.readFiles c.files

/-- The invariant of a table. -/
structure OK (s : Versioned ν γ) : Prop where
  names : UniqueKey DataFile.key s.disk
  present : ∀ c ∈ s.snapshots, ∀ n ∈ c.files, lookup DataFile.key s.disk n ≠ none
  uncommitted : ∀ n ∈ s.writing, lookup DataFile.key s.disk n ≠ none ∧ refersTo s.snapshots n = false
  files : ∀ c ∈ s.snapshots, c.files.Nodup
  ids : ∀ c ∈ s.snapshots, c.id ∈ s.issued
  distinct : (s.snapshots.map Commit.id).Nodup

variable {F : Format ν γ} {guard : ℕ} {s t : Versioned ν γ} {act : VersionedAct ν γ}

/-! ## Files -/

theorem refersTo_iff {snapshots : List (Commit ν)} {n : ν} :
    refersTo snapshots n = true ↔ ∃ c ∈ snapshots, n ∈ c.files := by
  unfold refersTo
  rw [List.any_eq_true]
  simp only [decide_eq_true_eq]

theorem refersTo_of_mem {snapshots : List (Commit ν)} {c : Commit ν} {n : ν} (hc : c ∈ snapshots)
    (hn : n ∈ c.files) : refersTo snapshots n = true := refersTo_iff.2 ⟨c, hc, hn⟩

theorem refersTo_false_of_files {a b : List (Commit ν)} {n : ν}
    (hfiles : ∀ c ∈ b, n ∈ c.files → ∃ c' ∈ a, n ∈ c'.files) (h : refersTo a n = false) : refersTo b n = false := by
  rw [Bool.eq_false_iff] at h ⊢
  intro hb
  obtain ⟨c, hc, hn⟩ := refersTo_iff.1 hb
  exact h (refersTo_iff.2 (hfiles c hc hn))

omit [DecidableEq ν] in
theorem currentFiles_subset (s : Versioned ν γ) {n : ν} (hn : n ∈ s.currentFiles) :
    ∃ c ∈ s.snapshots, n ∈ c.files := by
  unfold currentFiles at hn
  cases hlineage : s.lineage with
  | nil =>
    rw [hlineage] at hn
    cases hn
  | cons c l =>
    rw [hlineage] at hn
    refine ⟨c, ?_, hn⟩
    unfold snapshots
    rw [hlineage]
    exact List.mem_append_left _ List.mem_cons_self

/-- A file that stays is found as before. -/
theorem lookup_sublist {a b : List (DataFile ν γ)} (hU : UniqueKey DataFile.key b) (hsub : a.Sublist b)
    {f : DataFile ν γ} {n : ν} (hf : lookup DataFile.key b n = some f) (hkept : f ∈ a) :
    lookup DataFile.key a n = some f := by
  have hUa : UniqueKey DataFile.key a := hU.sublist (hsub.filterMap DataFile.key)
  exact hUa.lookup_iff.2 ⟨hkept, lookup_key hf⟩

/-- What is read of files that are found as before. -/
theorem readFiles_congr {ns : List ν} (h : ∀ n ∈ ns, (lookup DataFile.key t.disk n).map DataFile.content =
    (lookup DataFile.key s.disk n).map DataFile.content) : t.readFiles ns = s.readFiles ns := by
  induction ns with
  | nil => rfl
  | cons n ns ih =>
    have hrest := ih fun m hm => h m (List.mem_cons_of_mem n hm)
    have hone := h n List.mem_cons_self
    simp only [readFiles, hrest]
    cases hs : lookup DataFile.key s.disk n with
    | none =>
      rw [hs, Option.map_none, Option.map_eq_none_iff] at hone
      rw [hone]
    | some f =>
      rw [hs, Option.map_some, Option.map_eq_some_iff] at hone
      obtain ⟨g, hg, hcontent⟩ := hone
      rw [hg, Option.bind_some, Option.bind_some, hcontent]

/-- Files that are all on disk are read. -/
theorem readFiles_isSome {ns : List ν} (h : ∀ n ∈ ns, lookup DataFile.key s.disk n ≠ none) :
    (s.readFiles ns).isSome = true := by
  induction ns with
  | nil => rfl
  | cons n ns ih =>
    have hrest := ih fun m hm => h m (List.mem_cons_of_mem n hm)
    obtain ⟨f, hf⟩ := Option.ne_none_iff_exists'.1 (h n List.mem_cons_self)
    simp only [readFiles, hf, Option.bind_some, Option.isSome_map, hrest]

theorem lookup_ne_none_of_content {n : ν} (h : (lookup DataFile.key t.disk n).map DataFile.content =
    (lookup DataFile.key s.disk n).map DataFile.content) (hs : lookup DataFile.key s.disk n ≠ none) :
    lookup DataFile.key t.disk n ≠ none := by
  intro hnone
  rw [hnone, Option.map_none] at h
  exact hs (Option.map_eq_none_iff.1 h.symm)

/-! ## What a step does to the snapshots -/

/-- How the snapshots change: some are dropped, or one is added, of files that are there. -/
inductive Grows (s t : Versioned ν γ) : Prop where
  | drops (h : t.snapshots.Subperm s.snapshots) (hissued : t.issued = s.issued)
  | adds (d : Commit ν) (h : t.snapshots.Perm (d :: s.snapshots)) (hid : d.id ∉ s.issued)
      (hissued : t.issued = d.id :: s.issued) (hnodup : d.files.Nodup)
      (hfiles : ∀ n ∈ d.files, n ∈ s.writing ∧ n ∉ t.writing ∨ ∃ c ∈ s.snapshots, n ∈ c.files)

theorem Step.grows (h : Step F s act t) (hF : F.Documented guard) (hok : s.OK) : Grows s t := by
  rcases h with _ | _ | _ | _ | h | h | h | h
  · exact .drops (List.Subperm.refl _) rfl
  · exact .drops (List.Subperm.refl _) rfl
  · exact .drops (List.Subperm.refl _) rfl
  · exact .drops (List.Subperm.refl _) rfl
  · -- a commit adds a snapshot, of files of the current one and of its writer
    have hc := hF.commit h
    obtain ⟨c, hlineage, hfiles, hid, hissued⟩ := hc.snapshot
    refine .adds c ?_ hid hissued (by rw [hfiles]; exact hc.nodup) fun n hn => ?_
    · unfold snapshots
      rw [hlineage, hc.others, List.cons_append]
    · rw [hfiles] at hn
      rcases List.mem_append.1 hn with hn | hn
      · exact Or.inr (currentFiles_subset s (hc.kept_subset hn))
      · refine Or.inl ⟨hc.added_subset hn, ?_⟩
        rw [hc.writing, List.mem_filter]
        rintro ⟨-, hnot⟩
        rw [decide_eq_true hn] at hnot
        cases hnot
  · have he := hF.expire h
    exact .drops (he.lineage.append he.others).subperm he.issued
  · have hs := hF.removeOrphans h
    have hsame : t.snapshots = s.snapshots := congrArg₂ (· ++ ·) hs.lineage hs.others
    exact .drops (hsame ▸ List.Subperm.refl _) hs.issued
  · -- a rollback may add one with the files of the ancestor
    obtain ⟨c, hc, -, -, hsnapshots⟩ := (hF.rollback h).target
    rcases hsnapshots with ⟨hperm, hissued⟩ | ⟨d, hfiles, hid, hperm, hissued⟩
    · exact .drops hperm.subperm hissued
    · have hmem : c ∈ s.snapshots := List.mem_append_left _ hc
      refine .adds d hperm hid hissued (by rw [hfiles]; exact hok.files c hmem) fun n hn => ?_
      rw [hfiles] at hn
      exact Or.inr ⟨c, hmem, hn⟩

omit [DecidableEq ν] in
/-- A snapshot that is there after a step was there before, or has a new id. -/
theorem Grows.mem (h : Grows s t) : s.issued ⊆ t.issued ∧
    ∀ c ∈ t.snapshots, c ∈ s.snapshots ∨ c.id ∉ s.issued := by
  rcases h with ⟨hsub, hissued⟩ | ⟨d, hperm, hid, hissued, -, -⟩
  · rw [hissued]
    exact ⟨List.Subset.refl _, fun c hc => Or.inl (hsub.subset hc)⟩
  · rw [hissued]
    refine ⟨List.subset_cons_self _ _, fun c hc => ?_⟩
    rcases List.mem_cons.1 (hperm.mem_iff.1 hc) with rfl | hc
    · exact Or.inr hid
    · exact Or.inl hc

/-- What a step does to the files on disk and of the writers. -/
theorem TimelyStep.content (h : TimelyStep F guard s act t) (hF : F.Documented guard) (hok : s.OK) {n : ν}
    (hfound : lookup DataFile.key s.disk n ≠ none) (hneeded : refersTo t.snapshots n = true ∨ n ∈ t.writing) :
    (lookup DataFile.key t.disk n).map DataFile.content = (lookup DataFile.key s.disk n).map DataFile.content := by
  obtain ⟨f, hf⟩ := Option.ne_none_iff_exists'.1 hfound
  have hkeyf : f.key = some n := lookup_key hf
  have hname : f.name = n := Option.some.inj hkeyf
  obtain ⟨hstep, htime⟩ := h
  -- only expiry and the removal of orphans take files away
  rcases hstep with _ | _ | _ | _ | h | h | h | h
  · rfl
  · rename_i m x hfresh hunused
    show (lookup DataFile.key (s.disk ++ [⟨m, s.now, x⟩]) n).map _ = _
    rw [lookup_append, hf, Option.some_or]
  · rfl
  · rename_i m time
    have hkey : ∀ g : DataFile ν γ, DataFile.key (if g.name = m then { g with modified := time } else g) = g.key :=
      fun g => by
        split <;> rfl
    show (lookup DataFile.key (s.disk.map _) n).map _ = _
    rw [lookup_map hkey, hf, Option.map_some, Option.map_some, Option.map_some]
    split <;> rfl
  · rw [(hF.commit h).disk]
  · have he := hF.expire h
    have hkept : f ∈ t.disk := by
      rw [he.disk_iff f (lookup_mem hf), hname]
      intro hwas
      rcases hneeded with hneeded | hwriting
      · exact hneeded
      · rw [he.writing] at hwriting
        rw [(hok.uncommitted n hwriting).2] at hwas
        cases hwas
    rw [lookup_sublist hok.names he.disk hf hkept, hf]
  · have hs := hF.removeOrphans h
    have hkept : f ∈ t.disk := by
      rw [hs.disk_iff f (lookup_mem hf), hname]
      rcases hneeded with hneeded | hwriting
      · refine Or.inl ?_
        unfold snapshots at hneeded ⊢
        rw [hs.lineage, hs.others] at hneeded
        exact hneeded
      · -- no writer is as old as the guard
        rw [hs.writing] at hwriting
        have hage := htime f (lookup_mem hf) (hname ▸ hwriting)
        have hguard := hs.guarded
        exact Or.inr (by omega)
    rw [lookup_sublist hok.names hs.disk hf hkept, hf]
  · rw [(hF.rollback h).disk]

theorem Step.names (h : Step F s act t) (hF : F.Documented guard) (hok : s.OK) : UniqueKey DataFile.key t.disk := by
  rcases h with _ | ⟨hfresh, -⟩ | _ | _ | h | h | h | h
  · exact hok.names
  · refine hok.names.append (List.nodup_singleton _) fun f hf g hg k hfk hgk => ?_
    rw [List.mem_singleton.1 hg] at hgk
    exact lookup_eq_none.1 hfresh f hf (hfk.trans hgk.symm)
  · exact hok.names
  · refine hok.names.map fun f => ?_
    split <;> rfl
  · rw [(hF.commit h).disk]
    exact hok.names
  · exact hok.names.sublist ((hF.expire h).disk.filterMap DataFile.key)
  · exact hok.names.sublist ((hF.removeOrphans h).disk.filterMap DataFile.key)
  · rw [(hF.rollback h).disk]
    exact hok.names

/-- A writer's file was its before, or has just been written. -/
theorem Step.writing (h : Step F s act t) (hF : F.Documented guard) {n : ν} (hn : n ∈ t.writing) :
    n ∈ s.writing ∨ lookup DataFile.key t.disk n ≠ none ∧ refersTo s.snapshots n = false ∧
      t.snapshots = s.snapshots := by
  rcases h with _ | ⟨hfresh, hunused⟩ | _ | _ | h | h | h | h
  · exact Or.inl hn
  · rename_i m x
    rcases List.mem_append.1 hn with hn | hn
    · exact Or.inl hn
    · obtain rfl : n = m := List.mem_singleton.1 hn
      refine Or.inr ⟨fun hnone => ?_, hunused, rfl⟩
      exact lookup_eq_none.1 hnone ⟨n, s.now, x⟩ (List.mem_append_right _ List.mem_cons_self) rfl
  · exact Or.inl (List.mem_filter.1 hn).1
  · exact Or.inl hn
  · rw [(hF.commit h).writing] at hn
    exact Or.inl (List.mem_filter.1 hn).1
  · rw [(hF.expire h).writing] at hn
    exact Or.inl hn
  · rw [(hF.removeOrphans h).writing] at hn
    exact Or.inl hn
  · rw [(hF.rollback h).writing] at hn
    exact Or.inl hn

/-! ## The invariant -/

/-- **One step.** -/
theorem OK.step (hok : s.OK) (hF : F.Documented guard) (h : TimelyStep F guard s act t) : t.OK := by
  have hgrows := h.1.grows hF hok
  have hcontent := fun {n : ν} => h.content hF hok (n := n)
  -- a file that was there and is needed is still there
  have hstays : ∀ n, lookup DataFile.key s.disk n ≠ none → refersTo t.snapshots n = true ∨ n ∈ t.writing →
      lookup DataFile.key t.disk n ≠ none := fun n hfound hneeded =>
    lookup_ne_none_of_content (hcontent hfound hneeded) hfound
  have hfound : ∀ c ∈ t.snapshots, ∀ n ∈ c.files, lookup DataFile.key s.disk n ≠ none := by
    intro c hc n hn
    rcases hgrows with ⟨hsub, -⟩ | ⟨d, hperm, -, -, -, hfiles⟩
    · exact hok.present c (hsub.subset hc) n hn
    · rcases List.mem_cons.1 (hperm.mem_iff.1 hc) with rfl | hc
      · rcases hfiles n hn with ⟨hwriting, -⟩ | ⟨c', hc', hn'⟩
        · exact (hok.uncommitted n hwriting).1
        · exact hok.present c' hc' n hn'
      · exact hok.present c hc n hn
  have hunused : ∀ n ∈ t.writing, refersTo s.snapshots n = false → refersTo t.snapshots n = false := by
    intro n hn hold
    refine refersTo_false_of_files (fun c hc hcn => ?_) hold
    rcases hgrows with ⟨hsub, -⟩ | ⟨d, hperm, -, -, -, hfiles⟩
    · exact ⟨c, hsub.subset hc, hcn⟩
    · rcases List.mem_cons.1 (hperm.mem_iff.1 hc) with rfl | hc
      · rcases hfiles n hcn with ⟨-, hgone⟩ | hthere
        · exact absurd hn hgone
        · exact hthere
      · exact ⟨c, hc, hcn⟩
  -- the new snapshot has files that were there, and it takes them from its writer
  refine ⟨h.1.names hF hok, fun c hc n hn => hstays n (hfound c hc n hn) (Or.inl (refersTo_of_mem hc hn)),
    fun n hn => ?_, ?_, ?_, ?_⟩
  · rcases h.1.writing hF hn with hwas | ⟨hthere, hfalse, hsame⟩
    · obtain ⟨hdisk, hfalse⟩ := hok.uncommitted n hwas
      exact ⟨hstays n hdisk (Or.inr hn), hunused n hn hfalse⟩
    · exact ⟨hthere, by rw [hsame]; exact hfalse⟩
  · intro c hc
    rcases hgrows with ⟨hsub, -⟩ | ⟨d, hperm, -, -, hnodup, -⟩
    · exact hok.files c (hsub.subset hc)
    · rcases List.mem_cons.1 (hperm.mem_iff.1 hc) with rfl | hc
      · exact hnodup
      · exact hok.files c hc
  · intro c hc
    rcases hgrows with ⟨hsub, hissued⟩ | ⟨d, hperm, -, hissued, -, -⟩
    · rw [hissued]
      exact hok.ids c (hsub.subset hc)
    · rw [hissued]
      rcases List.mem_cons.1 (hperm.mem_iff.1 hc) with rfl | hc
      · exact List.mem_cons_self
      · exact List.mem_cons_of_mem _ (hok.ids c hc)
  · rcases hgrows with ⟨hsub, -⟩ | ⟨d, hperm, hid, -, -, -⟩
    · obtain ⟨l, hl, hsl⟩ := hsub
      exact ((hl.map Commit.id).nodup_iff).1 (hok.distinct.sublist (hsl.map Commit.id))
    · refine ((hperm.map Commit.id).nodup_iff).2 (List.nodup_cons.2 ⟨fun hmem => ?_, hok.distinct⟩)
      obtain ⟨c, hc, hcd⟩ := List.mem_map.1 hmem
      exact hid (hcd ▸ hok.ids c hc)

theorem start_ok : (start : Versioned ν γ).OK where
  names := unique_nil
  present := by rintro c ⟨⟩
  uncommitted := by rintro n ⟨⟩
  files := by rintro c ⟨⟩
  ids := by rintro c ⟨⟩
  distinct := List.nodup_nil

theorem OK.reach (hok : s.OK) (hF : F.Documented guard) (h : Reach (TimelyStep F guard) s t) : t.OK :=
  reach_invariant (fun _ _ _ hs hst => hs.step hF hst) hok h

/-! ## Reading a snapshot -/

/-- A snapshot that is there reads. -/
theorem OK.reads (hok : s.OK) {c : Commit ν} (hc : c ∈ s.snapshots) : (s.readFiles c.files).isSome = true :=
  readFiles_isSome (hok.present c hc)

/-- A snapshot that was there before and is there after a run was there all along. -/
theorem mem_of_final (hF : F.Documented guard) (tr : List (VersionedAct ν γ × Versioned ν γ)) :
    ∀ {s : Versioned ν γ} {c : Commit ν}, s.OK → Chain (TimelyStep F guard) s tr → c.id ∈ s.issued →
      c ∈ (final s tr).snapshots → c ∈ s.snapshots := by
  -- on the run: a step brings back no snapshot, since its id would be new
  induction tr with
  | nil => exact fun _ _ _ hc => hc
  | cons x tr ih =>
    intro s c hok hchain hid hc
    obtain ⟨a, u⟩ := x
    obtain ⟨hissued, hsnapshots⟩ := (hchain.1.1.grows hF hok).mem
    have hu : c ∈ u.snapshots := ih (hok.step hF hchain.1) hchain.2 (hissued hid) hc
    rcases hsnapshots c hu with hs | hnew
    · exact hs
    · exact absurd hid hnew

/-- **What a snapshot reads never changes**, as long as it is there. -/
theorem readFiles_run (hF : F.Documented guard) (tr : List (VersionedAct ν γ × Versioned ν γ)) :
    ∀ {s : Versioned ν γ} {c : Commit ν}, s.OK → Chain (TimelyStep F guard) s tr → c ∈ s.snapshots →
      c ∈ (final s tr).snapshots → (final s tr).readFiles c.files = s.readFiles c.files := by
  induction tr with
  | nil => exact fun _ _ _ _ => rfl
  | cons x tr ih =>
    intro s c hok hchain hs hc
    obtain ⟨a, u⟩ := x
    obtain ⟨hstep, hrest⟩ := hchain
    have hok' := hok.step hF hstep
    have hid : c.id ∈ u.issued := (hstep.1.grows hF hok).mem.1 (hok.ids c hs)
    have hu : c ∈ u.snapshots := mem_of_final hF tr hok' hrest hid hc
    have hone : u.readFiles c.files = s.readFiles c.files :=
      readFiles_congr fun n hn => hstep.content hF hok (hok.present c hs n hn) (Or.inl (refersTo_of_mem hu hn))
    rw [final_cons, ih hok' hrest hu hc, hone]

/-- A version is the snapshot with its id. -/
theorem OK.versionAsOf_eq (hok : s.OK) {c : Commit ν} (hc : c ∈ s.snapshots) :
    s.versionAsOf c.id = s.readFiles c.files := by
  unfold versionAsOf
  cases hfind : s.snapshots.find? fun c' => decide (c'.id = c.id) with
  | none =>
    rw [List.find?_eq_none] at hfind
    exact absurd (decide_eq_true rfl) (hfind c hc)
  | some c' =>
    have hid : c'.id = c.id := by simpa using List.find?_some hfind
    have heq : c' = c := List.inj_on_of_nodup_map hok.distinct (List.mem_of_find?_eq_some hfind) hc hid
    rw [heq, Option.bind_some]

theorem versionAsOf_eq_none {id : ℕ} (h : id ∉ s.snapshots.map Commit.id) : s.versionAsOf id = none := by
  unfold versionAsOf
  have hfind : s.snapshots.find? (fun c => decide (c.id = id)) = none := by
    rw [List.find?_eq_none]
    intro c hc hid
    exact h (List.mem_map.2 ⟨c, hc, of_decide_eq_true hid⟩)
  rw [hfind]
  rfl

/-! ## Maintenance -/

theorem Step.currentFiles (h : Step F s act t) (hF : F.Documented guard) (hact : act.Maintains) :
    t.currentFiles = s.currentFiles := by
  rcases h with _ | _ | _ | _ | _ | h | h | _
  · rfl
  · rfl
  · rfl
  · rfl
  · cases hact
  · exact (hF.expire h).current
  · unfold Versioned.currentFiles
    rw [(hF.removeOrphans h).lineage]
  · cases hact

/-- An id that no snapshot had. -/
def newId (s : Versioned ν γ) : ℕ := s.issued.foldr max 0 + 1

/-- A writer commits files of the current snapshot that it keeps, and its own. -/
def committed (s : Versioned ν γ) (kept added : List ν) : Versioned ν γ :=
  { s with
    lineage := ⟨s.newId, s.now, kept ++ added⟩ :: s.lineage
    writing := s.writing.filter fun n => !decide (n ∈ added)
    issued := s.newId :: s.issued }

/-- What expiry keeps of the current snapshot and its ancestors: the last ones and the young ones. -/
def keptLineage (s : Versioned ν γ) (olderThan retainLast : ℕ) : List (Commit ν) :=
  s.lineage.take (max 1 retainLast) ++
    (s.lineage.drop (max 1 retainLast)).filter fun c => decide (olderThan ≤ c.time)

/-- What it keeps of the others: the young ones. -/
def keptOthers (s : Versioned ν γ) (olderThan : ℕ) : List (Commit ν) :=
  s.others.filter fun c => decide (olderThan ≤ c.time)

/-- The files of the snapshots that are dropped go, unless a snapshot that stays has them. -/
def expired (s : Versioned ν γ) (olderThan retainLast : ℕ) : Versioned ν γ :=
  { s with
    disk := s.disk.filter fun f => !refersTo s.snapshots f.name ||
      refersTo (s.keptLineage olderThan retainLast ++ s.keptOthers olderThan) f.name
    lineage := s.keptLineage olderThan retainLast
    others := s.keptOthers olderThan }

/-- The old files that no snapshot has go. -/
def swept (s : Versioned ν γ) (olderThan : ℕ) : Versioned ν γ :=
  { s with disk := s.disk.filter fun f => refersTo s.snapshots f.name || decide (olderThan ≤ f.modified) }

/-- The snapshots newer than an ancestor leave the lineage. -/
def rolledBack (s : Versioned ν γ) (newer older : List (Commit ν)) (c : Commit ν) : Versioned ν γ :=
  { s with lineage := c :: older, others := newer ++ s.others }

/-- The format that counts its snapshots and does nothing else. -/
def plain (guard : ℕ) : Format ν γ where
  commit kept added s t :=
    kept ⊆ s.currentFiles ∧ added ⊆ s.writing ∧ (kept ++ added).Nodup ∧ t = s.committed kept added
  expire olderThan retainLast s t := t = s.expired olderThan retainLast
  removeOrphans olderThan s t := olderThan + guard ≤ s.now ∧ t = s.swept olderThan
  rollback id s t := ∃ newer older c, s.lineage = newer ++ c :: older ∧ c.id = id ∧ t = s.rolledBack newer older c

omit [DecidableEq ν] in
theorem newId_not_mem (s : Versioned ν γ) : s.newId ∉ s.issued := by
  intro hmem
  have hle : s.newId ≤ s.issued.foldr max 0 := List.le_max_of_le' 0 hmem (Nat.le_refl _)
  exact Nat.not_succ_le_self _ hle

theorem expired_documented (s : Versioned ν γ) (olderThan retainLast : ℕ) :
    Expired olderThan retainLast s (s.expired olderThan retainLast) := by
  have hsplit := List.take_append_drop (max 1 retainLast) s.lineage
  refine ⟨?_, List.filter_sublist, ?_, fun c hc => ?_, List.filter_sublist, fun f hf => ?_, rfl, rfl⟩
  · have happend := (List.Sublist.refl (s.lineage.take (max 1 retainLast))).append
      (List.filter_sublist (l := s.lineage.drop (max 1 retainLast)) (p := fun c => decide (olderThan ≤ c.time)))
    rw [hsplit] at happend
    exact happend
  · obtain ⟨k, hk⟩ : ∃ k, max 1 retainLast = k + 1 := ⟨max 1 retainLast - 1, by omega⟩
    show (match s.keptLineage olderThan retainLast with
      | [] => []
      | c :: _ => c.files) = s.currentFiles
    unfold keptLineage currentFiles
    rw [hk]
    cases s.lineage with
    | nil => rfl
    | cons c l => rfl
  · have hs : c ∈ s.lineage.take (max 1 retainLast) ∨ c ∈ s.lineage.drop (max 1 retainLast) ∨ c ∈ s.others := by
      rw [← or_assoc, ← List.mem_append, hsplit]
      exact List.mem_append.1 hc
    show c ∈ s.keptLineage olderThan retainLast ++ s.keptOthers olderThan ↔ _
    unfold keptLineage keptOthers
    rw [List.mem_append, List.mem_append, List.mem_filter, List.mem_filter, decide_eq_true_eq]
    tauto
  · show f ∈ s.disk.filter _ ↔ _
    rw [List.mem_filter, Bool.or_eq_true, Bool.not_eq_true', Bool.eq_false_iff]
    constructor
    · exact fun h hwas => h.2.resolve_left (not_not_intro hwas)
    · exact fun h => ⟨hf, or_iff_not_imp_left.2 fun hwas => h (not_not.1 hwas)⟩

omit [DecidableEq ν] in
theorem rolledBack_perm {newer older : List (Commit ν)} {c : Commit ν} (hlineage : s.lineage = newer ++ c :: older) :
    (s.rolledBack newer older c).snapshots.Perm s.snapshots := by
  show ((c :: older) ++ (newer ++ s.others)).Perm s.snapshots
  unfold snapshots
  rw [hlineage]
  have hswap : (c :: older ++ newer).Perm (newer ++ c :: older) := List.perm_append_comm
  rw [← List.append_assoc]
  exact hswap.append_right _

/-- **It keeps them.** -/
theorem plain_documented (guard : ℕ) : (plain guard : Format ν γ).Documented guard where
  commit := by
    rintro kept added s t ⟨hkept, hadded, hnodup, rfl⟩
    exact ⟨hkept, hadded, hnodup, ⟨_, rfl, rfl, newId_not_mem s, rfl⟩, rfl, rfl, rfl⟩
  expire := by
    rintro olderThan retainLast s t rfl
    exact expired_documented s olderThan retainLast
  removeOrphans := by
    rintro olderThan s t ⟨hguard, rfl⟩
    refine ⟨hguard, List.filter_sublist, fun f hf => ?_, rfl, rfl, rfl, rfl⟩
    show f ∈ s.disk.filter _ ↔ _
    rw [List.mem_filter, Bool.or_eq_true, decide_eq_true_eq]
    exact and_iff_right hf
  rollback := by
    rintro id s t ⟨newer, older, c, hlineage, hid, rfl⟩
    have hc : c ∈ s.lineage := by
      rw [hlineage]
      exact List.mem_append_right _ List.mem_cons_self
    exact ⟨⟨c, hc, hid, rfl, Or.inl ⟨rolledBack_perm hlineage, rfl⟩⟩, rfl, rfl⟩

end Versioned

end SparkDev.Runs
