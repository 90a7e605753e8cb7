import Mathlib.Order.Lattice
import SparkDev.Sql.Keyed

/-!
# `row_number() over (partition by … order by …) = 1`

SQL leaves the order of ties open, so the result of the filter `rn = 1` is a
relation (`RowNumberOne`): one row of each partition, none of which has a row of
its partition sorted before it. `rowNumberOne` computes one such result (ties go
to the row that arrives first), `rowNumberOne_spec`.

* `RowNumberOne.eq_of_top`: where a partition has one top row up to equal copies,
  every result picks it.
-/

namespace SparkDev.Sql

variable {α κ : Type*}

/-- An `ORDER BY`: a strict weak order, `before a b` when `a` is sorted strictly
before `b`. -/
structure RowOrder (α : Type*) where
  before : α → α → Bool
  asymm : ∀ a b, before a b = true → before b a = false
  trans_neg : ∀ a b c, before a b = false → before b c = false → before a c = false

/-- `ORDER BY key DESC NULLS LAST`. -/
def RowOrder.descNullsLast {β : Type*} [LinearOrder β] (f : α → Option β) : RowOrder α where
  before a b :=
    match f a, f b with
    | some x, some y => decide (y < x)
    | some _, none => true
    | none, _ => false
  asymm a b := by
    cases f a <;> cases f b <;> simp
    exact fun h => le_of_lt h
  trans_neg a b c := by
    cases f a <;> cases f b <;> cases f c <;> simp
    exact fun h1 h2 => le_trans h1 h2

/-- `out` is a possible result of keeping the rows of `rows` with `row_number() = 1`,
partitioned by `part` and sorted by `ord`. -/
structure RowNumberOne (part : α → κ) (ord : RowOrder α) (rows out : List α) : Prop where
  mem : ∀ r ∈ out, r ∈ rows
  nodup : (out.map part).Nodup
  cover : ∀ r ∈ rows, ∃ s ∈ out, part s = part r
  top : ∀ s ∈ out, ∀ r ∈ rows, part r = part s → ord.before r s = false

/-- One row of each partition, ties going to the row that arrives first. -/
def rowNumberOne [DecidableEq κ] (part : α → κ) (ord : RowOrder α) : List α → List α
  | [] => []
  | r :: rows =>
    match (rowNumberOne part ord rows).find? fun s => decide (part s = part r) with
    | none => r :: rowNumberOne part ord rows
    | some s =>
      -- `r` arrived before `s`, so it also keeps a tie
      if ord.before s r then rowNumberOne part ord rows
      else r :: (rowNumberOne part ord rows).filter fun s => decide (part s ≠ part r)

variable {part : α → κ} {ord : RowOrder α} {rows rows' out : List α}

theorem RowOrder.irrefl (ord : RowOrder α) (a : α) : ord.before a a = false := by
  cases h : ord.before a a with
  | false => rfl
  | true => rw [← ord.asymm a a h, h]

/-- One more row, sorted strictly after the row its partition has. -/
theorem RowNumberOne.cons_keep (h : RowNumberOne part ord rows out) {r s : α} (hs : s ∈ out)
    (hp : part s = part r) (hb : ord.before s r = true) : RowNumberOne part ord (r :: rows) out where
  mem x hx := List.mem_cons_of_mem _ (h.mem x hx)
  nodup := h.nodup
  cover x hx := by
    rcases List.mem_cons.1 hx with rfl | hx
    · exact ⟨s, hs, hp⟩
    · exact h.cover x hx
  top s' hs' x hx he := by
    rcases List.mem_cons.1 hx with rfl | hx
    · have hss : s' = s := List.inj_on_of_nodup_map h.nodup hs' hs (he.symm.trans hp.symm)
      rw [hss]
      exact ord.asymm _ _ hb
    · exact h.top s' hs' x hx he

/-- One more row that nothing of its partition is sorted before. -/
theorem RowNumberOne.cons_top [DecidableEq κ] (h : RowNumberOne part ord rows out) {r : α}
    (htop : ∀ x ∈ rows, part x = part r → ord.before x r = false) :
    RowNumberOne part ord (r :: rows) (r :: out.filter fun s => decide (part s ≠ part r)) := by
  -- the new row takes the place of the top row of its partition
  have hmem : ∀ x, x ∈ out.filter (fun s => decide (part s ≠ part r)) ↔ x ∈ out ∧ part x ≠ part r := by
    intro x
    rw [List.mem_filter, decide_eq_true_eq]
  refine ⟨?_, ?_, ?_, ?_⟩
  · intro x hx
    rcases List.mem_cons.1 hx with rfl | hx
    · exact List.mem_cons_self
    · exact List.mem_cons_of_mem _ (h.mem x ((hmem x).1 hx).1)
  · rw [List.map_cons, List.nodup_cons, List.mem_map]
    refine ⟨fun ⟨s, hs, he⟩ => ((hmem s).1 hs).2 he, ?_⟩
    exact h.nodup.sublist (List.filter_sublist.map part)
  · intro x hx
    by_cases hxr : part x = part r
    · exact ⟨r, List.mem_cons_self, hxr.symm⟩
    · rcases List.mem_cons.1 hx with rfl | hx
      · exact absurd rfl hxr
      · obtain ⟨s, hs, he⟩ := h.cover x hx
        have hsr : part s ≠ part r := fun hh => hxr (he.symm.trans hh)
        exact ⟨s, List.mem_cons_of_mem _ ((hmem s).2 ⟨hs, hsr⟩), he⟩
  · intro s hs x hx he
    rcases List.mem_cons.1 hs with rfl | hs <;> rcases List.mem_cons.1 hx with rfl | hx
    · exact ord.irrefl _
    · exact htop x hx he
    · exact absurd he.symm ((hmem s).1 hs).2
    · exact h.top s ((hmem s).1 hs).1 x hx he

/-- **The computed result is a possible one.** -/
theorem rowNumberOne_spec [DecidableEq κ] (part : α → κ) (ord : RowOrder α) (rows : List α) :
    RowNumberOne part ord rows (rowNumberOne part ord rows) := by
  induction rows with
  | nil => exact ⟨by simp [rowNumberOne], by simp [rowNumberOne], by simp, by simp⟩
  | cons r rows ih =>
    unfold rowNumberOne
    rcases hf : (rowNumberOne part ord rows).find? fun s => decide (part s = part r) with _ | s₀
    · -- the first row of its partition
      rw [List.find?_eq_none] at hf
      have hnew : ∀ s ∈ rowNumberOne part ord rows, part s ≠ part r := by simpa using hf
      have hall : (rowNumberOne part ord rows).filter (fun s => decide (part s ≠ part r)) =
          rowNumberOne part ord rows :=
        List.filter_eq_self.2 fun s hs => decide_eq_true (hnew s hs)
      have hcons := ih.cons_top (r := r) fun x hx he => by
        obtain ⟨s, hs, hsx⟩ := ih.cover x hx
        exact absurd (hsx.trans he) (hnew s hs)
      rw [hall] at hcons
      exact hcons
    · have hs₀ := List.mem_of_find?_eq_some hf
      have hp₀ : part s₀ = part r := by simpa using List.find?_some hf
      simp only
      split
      · rename_i hb
        exact ih.cons_keep hs₀ hp₀ hb
      · -- `r` beats the old top row, which nothing in `rows` is sorted before
        rename_i hb
        rw [Bool.not_eq_true] at hb
        exact ih.cons_top fun x hx he => ord.trans_neg _ _ _ (ih.top s₀ hs₀ x hx (he.trans hp₀.symm)) hb

/-- A row that is sorted before every other row of its partition, up to equal copies, is
the one every result keeps. -/
theorem RowNumberOne.eq_of_top (h : RowNumberOne part ord rows out) {r s : α} (hr : r ∈ rows)
    (htop : ∀ x ∈ rows, part x = part r → x ≠ r → ord.before r x = true) (hs : s ∈ out)
    (hp : part s = part r) : s = r := by
  by_contra hne
  have hb := htop s (h.mem s hs) hp hne
  rw [h.top s hs r hr hp.symm] at hb
  cases hb

theorem RowNumberOne.mem_of_top (h : RowNumberOne part ord rows out) {r : α} (hr : r ∈ rows)
    (htop : ∀ x ∈ rows, part x = part r → x ≠ r → ord.before r x = true) : r ∈ out := by
  obtain ⟨s, hs, he⟩ := h.cover r hr
  rw [← h.eq_of_top hr htop hs he]
  exact hs

/-- A window result has one row for each key. -/
theorem RowNumberOne.unique {key : α → Option κ} (h : RowNumberOne key ord rows out) :
    UniqueKey key out := unique_of_nodup_map h.nodup

end SparkDev.Sql
