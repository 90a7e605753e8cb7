import SparkDev.Sql.Keyed
import Mathlib.Data.List.Flatten

/-!
# Inner joins, and joins spread over copies of the right side

`nestedLoop` lists the matching pairs row by row. An engine may return them in any
order, so the result of a join is a relation, `InnerJoin`.

* `InnerJoin.left_perm`: where each left row matches exactly one right row, the join keeps every
  left row once.
* `nestedLoop_spread`: give each left row one of some distinct marks, copy the right side
  once for each mark, and join on the mark as well: every pair is found exactly once.
-/

namespace SparkDev.Sql

variable {α β μ : Type*}

/-- The pairs that match, left row by left row. -/
def nestedLoop (on : α → β → Bool) (L : List α) (R : List β) : List (α × β) :=
  L.flatMap fun a => (R.filter (on a)).map fun b => (a, b)

/-- `out` is a result of the inner join, with `row` building its rows. -/
def InnerJoin {ρ : Type*} (on : α → β → Bool) (row : α → β → ρ) (L : List α) (R : List β)
    (out : List ρ) : Prop :=
  out.Perm ((nestedLoop on L R).map fun p => row p.1 p.2)

/-! ## Joins that keep the left side -/

section Total

variable {ρ κ : Type*} {on : α → β → Bool} {row : α → β → ρ} {left : ρ → α} {L : List α} {R : List β}
  {out : List ρ}

/-- Each left row is found once when it matches one right row. -/
theorem nestedLoop_map_fst (h : ∀ a ∈ L, R.countP (on a) = 1) : (nestedLoop on L R).map Prod.fst = L := by
  unfold nestedLoop
  rw [List.map_flatMap]
  have hone : ∀ a ∈ L, ((R.filter (on a)).map fun b => (a, b)).map Prod.fst = [a] := by
    intro a ha
    rw [List.map_map, Function.comp_def, List.map_const', ← List.countP_eq_length_filter, h a ha]
    rfl
  rw [List.flatMap_congr hone]
  exact List.flatMap_singleton' L

/-- **A total join keeps its left side**: each row once, and no other. -/
theorem InnerJoin.left_perm (hj : InnerJoin on row L R out) (hleft : ∀ a b, left (row a b) = a)
    (h : ∀ a ∈ L, R.countP (on a) = 1) : (out.map left).Perm L := by
  have hfst : (nestedLoop on L R).map (left ∘ fun p => row p.1 p.2) = L := by
    have hcomp : (left ∘ fun p : α × β => row p.1 p.2) = Prod.fst := funext fun p => hleft p.1 p.2
    rw [hcomp]
    exact nestedLoop_map_fst h
  have hp := hj.map left
  rwa [List.map_map, hfst] at hp

/-- A key that is there, among unique keys, is matched once. -/
theorem UniqueKey.countP_eq_one [DecidableEq κ] {key : β → Option κ} (hU : UniqueKey key R) {k : κ}
    (hk : some k ∈ R.map key) : (R.countP fun b => keyEq (some k) (key b)) = 1 := by
  have hle := hU.countP_le_one (some k)
  have hpos : 0 < R.countP fun b => keyEq (some k) (key b) := by
    obtain ⟨b, hb, hkb⟩ := List.mem_map.1 hk
    rw [List.countP_pos_iff]
    exact ⟨b, hb, keyEq_iff.2 ⟨k, rfl, hkb⟩⟩
  omega

end Total

/-! ## Joins spread over copies of the right side -/

/-- Each row of `R` once with each mark. -/
def spread (marks : List μ) (R : List β) : List (β × μ) :=
  R.flatMap fun b => marks.map fun m => (b, m)

/-- Both the rows and the marks match. -/
def onMarked [DecidableEq μ] (on : α → β → Bool) (a : α × μ) (b : β × μ) : Bool :=
  on a.1 b.1 && decide (a.2 = b.2)

variable [DecidableEq μ] {on : α → β → Bool} {marks : List μ} {L : List (α × μ)} {R : List β}

theorem filter_mark (hnodup : marks.Nodup) {m : μ} (hm : m ∈ marks) :
    marks.filter (fun m' => decide (m = m')) = [m] := by
  have hcount : marks.count m = 1 := List.count_eq_one_of_mem hnodup hm
  have hfun : (fun m' => decide (m = m')) = fun m' => m' == m := by
    funext m'
    rw [Bool.eq_iff_iff, decide_eq_true_eq, beq_iff_eq, eq_comm]
  rw [hfun, List.filter_beq, hcount]
  rfl

/-- Of the copies of a right row only the one with the mark matches. -/
theorem filter_spread (hnodup : marks.Nodup) (a : α × μ) (ha : a.2 ∈ marks) (R : List β) :
    (spread marks R).filter (onMarked on a) = (R.filter (on a.1)).map fun b => (b, a.2) := by
  unfold spread
  induction R with
  | nil => rfl
  | cons b R ih =>
    rw [List.flatMap_cons, List.filter_append, ih, List.filter_map]
    by_cases hab : on a.1 b = true
    · have hmark : (onMarked on a ∘ fun m => (b, m)) = fun m => decide (a.2 = m) := by
        funext m
        simp [onMarked, hab]
      rw [hmark, filter_mark hnodup ha, List.filter_cons_of_pos hab]
      rfl
    · have hmark : (onMarked on a ∘ fun m => (b, m)) = fun _ => false := by
        funext m
        simp [onMarked, hab]
      rw [hmark, List.filter_cons_of_neg hab]
      simp

/-- **Spreading the right side over the marks changes no pair**, whatever mark each left row
has. -/
theorem nestedLoop_spread (hnodup : marks.Nodup) (hL : ∀ a ∈ L, a.2 ∈ marks) :
    (nestedLoop (onMarked on) L (spread marks R)).map (fun p => (p.1.1, p.2.1)) =
      nestedLoop on (L.map Prod.fst) R := by
  unfold nestedLoop
  rw [List.map_flatMap, List.flatMap_map]
  refine List.flatMap_congr fun a ha => ?_
  rw [filter_spread hnodup a (hL a ha), List.map_map, List.map_map]
  rfl

end SparkDev.Sql
