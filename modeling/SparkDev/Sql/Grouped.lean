import Mathlib.Algebra.BigOperators.Group.Finset.Basic
import Mathlib.Algebra.BigOperators.Group.Finset.Piecewise
import Mathlib.Data.List.Dedup

/-!
# Grouped rows

`GROUP BY`: one row for each key, aggregated over the rows that have it.

* `groupBy_perm`: the order of the rows does not matter.
* `groupBy_keys`: each key has one row.
* `sum_groupBy`: totals of the groups add up to the total of the rows.
-/

namespace SparkDev.Sql

variable {α β κ M : Type*} [DecidableEq κ]

/-- `GROUP BY key`. Null is a key of its own. -/
def groupBy (key : α → κ) (agg : κ → List α → β) (l : List α) : List β :=
  (l.map key).dedup.map fun k => agg k (l.filter fun r => decide (key r = k))

variable {key : α → κ} {agg : κ → List α → β} {l l' : List α}

/-- **Rows in another order** give the same groups. -/
theorem groupBy_perm (hagg : ∀ k (a b : List α), a.Perm b → agg k a = agg k b) (h : l.Perm l') :
    (groupBy key agg l).Perm (groupBy key agg l') := by
  have hgroup : (fun k => agg k (l.filter fun r => decide (key r = k))) =
      fun k => agg k (l'.filter fun r => decide (key r = k)) :=
    funext fun k => hagg k _ _ (h.filter _)
  unfold groupBy
  rw [hgroup]
  exact (h.map key).dedup.map _

/-- **One row for each key.** -/
theorem groupBy_keys {keyOf : β → κ} (hkey : ∀ k rows, keyOf (agg k rows) = k) (l : List α) :
    (groupBy key agg l).map keyOf = (l.map key).dedup := by
  unfold groupBy
  rw [List.map_map]
  have hid : keyOf ∘ (fun k => agg k (l.filter fun r => decide (key r = k))) = id := funext fun k => hkey k _
  rw [hid, List.map_id]

variable [AddCommMonoid M]

/-- Over any keys without repetition that all rows have one of. -/
theorem sum_filter_keys (f : α → M) {ks : List κ} (hnodup : ks.Nodup) :
    ∀ l : List α, (∀ r ∈ l, key r ∈ ks) →
      (ks.map fun k => ((l.filter fun r => decide (key r = k)).map f).sum).sum = (l.map f).sum := by
  intro l
  induction l with
  | nil =>
    intro _
    simp
  | cons r l ih =>
    intro hks
    have hrest := ih fun x hx => hks x (List.mem_cons_of_mem r hx)
    have hone : (ks.map fun k => if key r = k then f r else 0).sum = f r := by
      rw [← List.sum_toFinset _ hnodup, Finset.sum_ite_eq, if_pos]
      exact List.mem_toFinset.2 (hks r List.mem_cons_self)
    have hcons : ∀ k, (((r :: l).filter fun x => decide (key x = k)).map f).sum =
        (if key r = k then f r else 0) + ((l.filter fun x => decide (key x = k)).map f).sum := by
      intro k
      by_cases hk : key r = k
      · rw [List.filter_cons_of_pos (by simpa using hk), if_pos hk, List.map_cons, List.sum_cons]
      · rw [List.filter_cons_of_neg (by simpa using hk), if_neg hk, zero_add]
    simp only [hcons]
    rw [List.sum_map_add, hone, hrest, List.map_cons, List.sum_cons]

/-- **The groups add up** to the rows, for a total that each group has of its rows. -/
theorem sum_groupBy (f : α → M) (g : β → M)
    (hg : ∀ k, ∀ rows : List α, (∀ r ∈ rows, r ∈ l) → g (agg k rows) = (rows.map f).sum) :
    ((groupBy key agg l).map g).sum = (l.map f).sum := by
  have hgroups : (groupBy key agg l).map g =
      (l.map key).dedup.map fun k => ((l.filter fun r => decide (key r = k)).map f).sum := by
    unfold groupBy
    rw [List.map_map]
    exact List.map_congr_left fun k _ => hg k _ fun r hr => (List.mem_filter.1 hr).1
  rw [hgroups]
  exact sum_filter_keys f (List.nodup_dedup _) l fun r hr => List.mem_dedup.2 (List.mem_map_of_mem hr)

end SparkDev.Sql
