import Mathlib.Data.List.Perm.Basic
import SparkDev.Sql.Window

/-!
# `qualify row_number() over (…) = 1`

A window function sorts each partition in some way the `ORDER BY` allows, numbers the rows
from 1 and leaves the choice between ties to the sort. `Qualify` says so with the sort in
it; `RowNumberOne` says what can come out.

* `qualify_iff`: the two are the same, so a row that no row of its partition is sorted
  before comes first in some sort.
-/

namespace SparkDev.Sql

variable {α κ : Type*} [DecidableEq κ]

/-- `ORDER BY key`. -/
def RowOrder.asc {α β : Type*} [LinearOrder β] (f : α → β) : RowOrder α where
  before a b := decide (f a < f b)
  asymm a b h := by
    rw [decide_eq_true_eq] at h
    rw [decide_eq_false_iff_not]
    exact h.asymm
  trans_neg a b c hab hbc := by
    rw [decide_eq_false_iff_not, not_lt] at *
    exact le_trans hbc hab

/-- The partitions of `rows`, each sorted in a way the `ORDER BY` allows. -/
structure WindowSort (part : α → κ) (ord : RowOrder α) (rows : List α) (sorted : κ → List α) : Prop where
  perm : ∀ k, (sorted k).Perm (rows.filter fun r => decide (part r = k))
  ordered : ∀ k, (sorted k).Pairwise fun a b => ord.before b a = false

/-- The rows of a sorted partition with `row_number() = 1`. -/
def firstRows (partition : List α) : List α :=
  ((partition.zipIdx 1).filter fun r => decide (r.2 = 1)).map Prod.fst

/-- `out` is a possible result of `qualify row_number() over (partition by … order by …) = 1`:
the partitions come in some order, each in some sort. -/
def Qualify (part : α → κ) (ord : RowOrder α) (rows out : List α) : Prop :=
  ∃ sorted, WindowSort part ord rows sorted ∧ ∃ keys : List κ, keys.Nodup ∧
    (∀ k, k ∈ keys ↔ k ∈ rows.map part) ∧ out = keys.flatMap fun k => firstRows (sorted k)

variable {part : α → κ} {ord : RowOrder α} {rows out : List α}

/-- The numbers grow, so only the first row has number 1. -/
theorem firstRows_cons (r : α) (partition : List α) : firstRows (r :: partition) = [r] := by
  unfold firstRows
  rw [List.zipIdx_cons, List.filter_cons_of_pos (by rfl)]
  have hrest : (partition.zipIdx (1 + 1)).filter (fun r => decide (r.2 = 1)) = [] := by
    rw [List.filter_eq_nil_iff]
    intro x hx
    have hle := (List.mem_zipIdx hx).1
    rw [decide_eq_true_eq]
    omega
  rw [hrest]
  rfl

theorem mem_firstRows {r : α} {partition : List α} (h : r ∈ firstRows partition) :
    ∃ rest, partition = r :: rest := by
  rcases partition with _ | ⟨s, rest⟩
  · exact absurd h List.not_mem_nil
  · rw [firstRows_cons, List.mem_singleton] at h
    exact ⟨rest, by rw [h]⟩

theorem WindowSort.mem {sorted : κ → List α} (h : WindowSort part ord rows sorted) (k : κ) (r : α) :
    r ∈ sorted k ↔ r ∈ rows ∧ part r = k := by
  rw [(h.perm k).mem_iff, List.mem_filter, decide_eq_true_eq]

/-- The first row of a sorted partition. -/
theorem WindowSort.first {sorted : κ → List α} (h : WindowSort part ord rows sorted) {k : κ} {s : α}
    (hs : s ∈ firstRows (sorted k)) :
    s ∈ rows ∧ part s = k ∧ ∀ r ∈ rows, part r = k → ord.before r s = false := by
  obtain ⟨rest, hrest⟩ := mem_firstRows hs
  have hmem := (h.mem k s).1 (hrest ▸ List.mem_cons_self)
  refine ⟨hmem.1, hmem.2, fun r hr hk => ?_⟩
  have hordered := h.ordered k
  rw [hrest, List.pairwise_cons] at hordered
  have hin : r ∈ s :: rest := hrest ▸ (h.mem k r).2 ⟨hr, hk⟩
  rcases List.mem_cons.1 hin with rfl | hin
  · exact ord.irrefl r
  · exact hordered.1 r hin

theorem rowNumberOne_of_qualify (h : Qualify part ord rows out) : RowNumberOne part ord rows out := by
  obtain ⟨sorted, hsort, keys, hnodup, hkeys, rfl⟩ := h
  -- every partition that is there has one first row
  have hone : ∀ k ∈ keys, ∃ s, firstRows (sorted k) = [s] ∧ part s = k := by
    intro k hk
    obtain ⟨r, hr, hrk⟩ := List.mem_map.1 ((hkeys k).1 hk)
    rcases hp : sorted k with _ | ⟨s, rest⟩
    · exact absurd ((hsort.mem k r).2 ⟨hr, hrk⟩) (by rw [hp]; exact List.not_mem_nil)
    · exact ⟨s, firstRows_cons s rest, ((hsort.mem k s).1 (hp ▸ List.mem_cons_self)).2⟩
  have hparts : ∀ l : List κ, (∀ k ∈ l, k ∈ keys) →
      (l.flatMap fun k => firstRows (sorted k)).map part = l := by
    intro l
    induction l with
    | nil => intro _; rfl
    | cons k l ih =>
      intro hl
      obtain ⟨s, hs, hk⟩ := hone k (hl k List.mem_cons_self)
      rw [List.flatMap_cons, hs, List.map_append, ih fun k' hk' => hl k' (List.mem_cons_of_mem _ hk'),
        List.map_singleton, hk, List.singleton_append]
  refine ⟨?_, ?_, ?_, ?_⟩
  · intro r hr
    obtain ⟨k, -, hk⟩ := List.mem_flatMap.1 hr
    exact (hsort.first hk).1
  · rw [hparts keys fun _ hk => hk]
    exact hnodup
  · intro r hr
    have hk : part r ∈ keys := (hkeys _).2 (List.mem_map_of_mem hr)
    obtain ⟨s, hs, hp⟩ := hone (part r) hk
    exact ⟨s, List.mem_flatMap.2 ⟨part r, hk, hs ▸ List.mem_singleton_self s⟩, hp⟩
  · intro s hs r hr hp
    obtain ⟨k, -, hk⟩ := List.mem_flatMap.1 hs
    obtain ⟨-, hsk, hfirst⟩ := hsort.first hk
    exact hfirst r hr (hp.trans hsk)

/-- Any sort of a list by an `ORDER BY`. -/
theorem RowOrder.pairwise_mergeSort (ord : RowOrder α) (l : List α) :
    (l.mergeSort fun a b => !ord.before b a).Pairwise fun a b => ord.before b a = false := by
  have htrans : ∀ a b c : α, (!ord.before b a) = true → (!ord.before c b) = true →
      (!ord.before c a) = true := by
    intro a b c hab hbc
    rw [Bool.not_eq_true'] at *
    exact ord.trans_neg c b a hbc hab
  have htotal : ∀ a b : α, (!ord.before b a || !ord.before a b) = true := by
    intro a b
    rcases h : ord.before b a
    · rfl
    · rw [ord.asymm b a h]
      rfl
  refine (List.pairwise_mergeSort htrans htotal l).imp ?_
  intro a b h
  rwa [Bool.not_eq_true'] at h

/-- A row that nothing in the list is sorted before comes first in some sort of it. -/
theorem RowOrder.exists_sort_cons (ord : RowOrder α) {l : List α} {s : α} (hs : s ∈ l)
    (htop : ∀ r ∈ l, ord.before r s = false) :
    ∃ rest, (s :: rest).Perm l ∧ (s :: rest).Pairwise fun a b => ord.before b a = false := by
  classical
  refine ⟨(l.erase s).mergeSort fun a b => !ord.before b a, ?_, ?_⟩
  · exact ((List.mergeSort_perm _ _).cons s).trans (List.perm_cons_erase hs).symm
  · rw [List.pairwise_cons]
    refine ⟨fun r hr => ?_, ord.pairwise_mergeSort _⟩
    rw [List.mem_mergeSort] at hr
    exact htop r (List.mem_of_mem_erase hr)

/-- **What `qualify` can leave**: one row of each partition that nothing is sorted before. -/
theorem qualify_iff : Qualify part ord rows out ↔ RowNumberOne part ord rows out := by
  refine ⟨rowNumberOne_of_qualify, fun h => ?_⟩
  -- sort each partition with the row that is kept in front
  have hsort : ∀ k, ∃ l : List α, l.Perm (rows.filter fun r => decide (part r = k)) ∧
      (l.Pairwise fun a b => ord.before b a = false) ∧ ∀ s ∈ out, part s = k → firstRows l = [s] := by
    intro k
    by_cases hk : ∃ s ∈ out, part s = k
    · obtain ⟨s, hs, hsk⟩ := hk
      have hmem : s ∈ rows.filter fun r => decide (part r = k) := by
        rw [List.mem_filter, decide_eq_true_eq]
        exact ⟨h.mem s hs, hsk⟩
      obtain ⟨rest, hperm, hordered⟩ := ord.exists_sort_cons hmem fun r hr => by
        rw [List.mem_filter, decide_eq_true_eq] at hr
        exact h.top s hs r hr.1 (hr.2.trans hsk.symm)
      refine ⟨s :: rest, hperm, hordered, fun s' hs' hsk' => ?_⟩
      rw [firstRows_cons, List.inj_on_of_nodup_map h.nodup hs hs' (hsk.trans hsk'.symm)]
    · exact ⟨_, List.mergeSort_perm _ _, ord.pairwise_mergeSort _,
        fun s hs hsk => absurd ⟨s, hs, hsk⟩ hk⟩
  choose sorted hperm hordered hfirst using hsort
  refine ⟨sorted, ⟨hperm, hordered⟩, out.map part, h.nodup, ?_, ?_⟩
  · intro k
    rw [List.mem_map, List.mem_map]
    constructor
    · rintro ⟨s, hs, hk⟩
      exact ⟨s, h.mem s hs, hk⟩
    · rintro ⟨r, hr, hk⟩
      obtain ⟨s, hs, hp⟩ := h.cover r hr
      exact ⟨s, hs, hp.trans hk⟩
  · rw [List.flatMap_map, List.flatMap_congr fun s hs => hfirst (part s) s hs rfl]
    exact (List.flatMap_singleton' out).symm

/-- Every table has a result. -/
theorem exists_qualify (part : α → κ) (ord : RowOrder α) (rows : List α) :
    ∃ out, Qualify part ord rows out :=
  ⟨rowNumberOne part ord rows, qualify_iff.2 (rowNumberOne_spec part ord rows)⟩

end SparkDev.Sql
