import Mathlib.Data.List.Basic
import Mathlib.Data.List.Perm.Basic
import Mathlib.Data.List.ReduceOption
import Mathlib.Order.MinMax

/-!
# SQL's three-valued logic

A condition is TRUE, FALSE or UNKNOWN, and a `WHERE` keeps the rows on which it
is TRUE. A comparison with a `NULL` is UNKNOWN; `IN` is the disjunction of the
comparisons with the list, so it is FALSE on an empty list and is never FALSE on
a list that holds a `NULL`, other than by being empty.

* `isIn_eq_tt`, `isIn_eq_ff`: what `IN` says of a nullable value and a nullable list.
* `filter_partition_iff`: filtering by a condition and by its negation splits a
  table exactly when the condition is UNKNOWN on none of its rows.
-/

namespace SparkDev.Sql

/-- The value of a condition. -/
inductive Truth where
  | tt
  | ff
  | unknown
  deriving DecidableEq, Repr

namespace Truth

/-- `NOT`. -/
def not : Truth → Truth
  | tt => ff
  | ff => tt
  | unknown => unknown

/-- `AND`. -/
def and : Truth → Truth → Truth
  | tt, b => b
  | ff, _ => ff
  | unknown, ff => ff
  | unknown, _ => unknown

/-- `OR`. -/
def or : Truth → Truth → Truth
  | tt, _ => tt
  | ff, b => b
  | unknown, tt => tt
  | unknown, _ => unknown

/-- A row is kept when the condition is TRUE. -/
def holds (t : Truth) : Bool := decide (t = tt)

/-- The disjunction of a list of conditions. -/
def any : List Truth → Truth
  | [] => ff
  | t :: ts => t.or (any ts)

/-- The conjunction of a list of conditions. -/
def all : List Truth → Truth
  | [] => tt
  | t :: ts => t.and (all ts)

variable {a b : Truth} {ts : List Truth}

@[simp] theorem holds_iff : a.holds = true ↔ a = tt := by simp [holds]

@[simp] theorem not_not (a : Truth) : a.not.not = a := by cases a <;> rfl

@[simp] theorem not_eq_tt : a.not = tt ↔ a = ff := by cases a <;> simp [not]

theorem not_and (a b : Truth) : (a.and b).not = a.not.or b.not := by
  cases a <;> cases b <;> rfl

theorem not_or (a b : Truth) : (a.or b).not = a.not.and b.not := by
  cases a <;> cases b <;> rfl

/-- De Morgan over a list, however many of the conditions are UNKNOWN. -/
theorem not_any (ts : List Truth) : (any ts).not = all (ts.map not) := by
  induction ts with
  | nil => rfl
  | cons t ts ih => rw [any, not_or, ih, List.map_cons, all]

theorem not_all (ts : List Truth) : (all ts).not = any (ts.map not) := by
  induction ts with
  | nil => rfl
  | cons t ts ih => rw [all, not_and, ih, List.map_cons, any]

@[simp] theorem and_eq_tt : a.and b = tt ↔ a = tt ∧ b = tt := by
  cases a <;> cases b <;> simp [and]

@[simp] theorem and_eq_ff : a.and b = ff ↔ a = ff ∨ b = ff := by
  cases a <;> cases b <;> simp [and]

@[simp] theorem or_eq_tt : a.or b = tt ↔ a = tt ∨ b = tt := by
  cases a <;> cases b <;> simp [or]

@[simp] theorem or_eq_ff : a.or b = ff ↔ a = ff ∧ b = ff := by
  cases a <;> cases b <;> simp [or]

theorem ne_unknown_iff : a ≠ unknown ↔ a = ff ∨ a = tt := by cases a <;> simp

theorem any_eq_tt : any ts = tt ↔ tt ∈ ts := by
  induction ts with
  | nil => simp [any]
  | cons t ts ih => rw [any, or_eq_tt, ih, List.mem_cons, eq_comm]

theorem any_eq_ff : any ts = ff ↔ ∀ t ∈ ts, t = ff := by
  induction ts with
  | nil => simp [any]
  | cons t ts ih => rw [any, or_eq_ff, ih, List.forall_mem_cons]

end Truth

open Truth

variable {α : Type*} {x y : Option α} {l : List (Option α)} {r : α → α → Bool}

/-! ## Comparisons -/

/-- A comparison: UNKNOWN when a side is `NULL`. -/
def compare (r : α → α → Bool) : Option α → Option α → Truth
  | some a, some b => if r a b = true then tt else ff
  | _, _ => unknown

theorem compare_eq_tt : compare r x y = tt ↔ ∃ a ∈ x, ∃ b ∈ y, r a b = true := by
  rcases x with _ | a <;> rcases y with _ | b <;> simp [compare]

theorem compare_eq_ff : compare r x y = ff ↔ ∃ a ∈ x, ∃ b ∈ y, r a b = false := by
  rcases x with _ | a <;> rcases y with _ | b <;> simp [compare]

theorem compare_not (r : α → α → Bool) (x y : Option α) :
    compare (fun a b => !r a b) x y = (compare r x y).not := by
  rcases x with _ | a
  · rfl
  rcases y with _ | b
  · rfl
  rcases h : r a b <;> simp [compare, h, Truth.not]

variable [DecidableEq α]

/-- `x = y`. -/
def eq (x y : Option α) : Truth := compare (fun a b => decide (a = b)) x y

/-- `x IN (l)`, for a list of values or the rows of a subquery. -/
def isIn (x : Option α) (l : List (Option α)) : Truth := any (l.map (eq x))

theorem isIn_eq_tt : isIn x l = tt ↔ x ≠ none ∧ x ∈ l := by
  have he : ∀ v, eq x v = tt ↔ x ≠ none ∧ v = x := by
    intro v
    unfold eq
    rw [compare_eq_tt]
    rcases x with _ | a <;> rcases v with _ | b <;> simp [eq_comm]
  unfold isIn
  rw [any_eq_tt, List.mem_map]
  simp only [he]
  constructor
  · rintro ⟨v, hv, hx, rfl⟩
    exact ⟨hx, hv⟩
  · rintro ⟨hx, hl⟩
    exact ⟨x, hl, hx, rfl⟩

/-- `IN` is FALSE on an empty list, whatever the value, and else only when neither the
value nor the list has a `NULL`. -/
theorem isIn_eq_ff : isIn x l = ff ↔ l = [] ∨ (x ≠ none ∧ none ∉ l ∧ x ∉ l) := by
  have he : ∀ v, eq x v = ff ↔ x ≠ none ∧ v ≠ none ∧ x ≠ v := by
    intro v
    unfold eq
    rw [compare_eq_ff]
    rcases x with _ | a <;> rcases v with _ | b <;> simp
  unfold isIn
  rw [any_eq_ff, List.forall_mem_map]
  simp only [he]
  rcases l with _ | ⟨v, l⟩
  · simp
  constructor
  · intro h
    have hx : x ≠ none := (h v List.mem_cons_self).1
    exact Or.inr ⟨hx, fun hn => (h none hn).2.1 rfl, fun hm => (h x hm).2.2 rfl⟩
  · rintro (h | ⟨hx, hn, hm⟩) w hw
    · cases h
    · exact ⟨hx, fun he => hn (he ▸ hw), fun he => hm (he ▸ hw)⟩

/-! ## Splitting a table by a condition -/

/-- **A condition and its negation split a table** exactly when the condition is UNKNOWN
on none of the rows. -/
theorem filter_partition_iff {ρ : Type*} (c : ρ → Truth) (T : List ρ) :
    T.Perm (T.filter (fun r => (c r).holds) ++ T.filter fun r => (c r).not.holds) ↔
      ∀ r ∈ T, c r ≠ unknown := by
  constructor
  · intro hp r hr hc
    rcases List.mem_append.1 (hp.mem_iff.1 hr) with h | h
    · have ht := (List.mem_filter.1 h).2
      simp [hc, Truth.holds] at ht
    · have ht := (List.mem_filter.1 h).2
      simp [hc, Truth.holds, Truth.not] at ht
  · intro h
    -- without UNKNOWN the negation keeps the rows the condition drops
    have he : (T.filter fun r => (c r).not.holds) = T.filter fun r => !(c r).holds := by
      refine List.filter_congr fun r hr => ?_
      have hu := h r hr
      rcases hc : c r
      · rfl
      · rfl
      · exact absurd hc hu
    rw [he]
    exact (List.filter_append_perm _ T).symm

/-- A row is kept by a condition, by its negation, or the condition is UNKNOWN on it. -/
theorem length_filter_holds {ρ : Type*} (c : ρ → Truth) (T : List ρ) :
    (T.filter fun r => (c r).holds).length + (T.filter fun r => (c r).not.holds).length +
      (T.filter fun r => decide (c r = unknown)).length = T.length := by
  induction T with
  | nil => rfl
  | cons r T ih =>
    simp only [List.filter_cons, List.length_cons, ← ih]
    rcases hc : c r
    all_goals
      simp [Truth.holds, Truth.not]
      omega

/-! ## `MAX` over a nullable column -/

/-- `MAX`, which skips `NULL`s and is `NULL` when nothing is left. -/
def maxOf {β : Type*} [Max β] (l : List (Option β)) : Option β := l.reduceOption.max?

theorem maxOf_eq_some {β : Type*} [LinearOrder β] {l : List (Option β)} {m : β} :
    maxOf l = some m ↔ some m ∈ l ∧ ∀ b, some b ∈ l → b ≤ m := by
  unfold maxOf
  rw [List.max?_eq_some_iff, List.reduceOption_mem_iff]
  simp only [List.reduceOption_mem_iff]

theorem maxOf_eq_none {β : Type*} [LinearOrder β] {l : List (Option β)} :
    maxOf l = none ↔ ∀ b, some b ∉ l := by
  unfold maxOf
  rw [List.max?_eq_none_iff, List.eq_nil_iff_forall_not_mem]
  simp only [List.reduceOption_mem_iff]

/-- A column with a value has a maximum. -/
theorem exists_maxOf {β : Type*} [LinearOrder β] {l : List (Option β)} {b : β} (h : some b ∈ l) :
    ∃ m, maxOf l = some m := by
  rw [← Option.ne_none_iff_exists', ne_eq, maxOf_eq_none]
  intro hnone
  exact hnone b h

/-- `MAX` reads the column as a set. -/
theorem maxOf_congr {β : Type*} [LinearOrder β] {l l' : List (Option β)} (h : ∀ x, x ∈ l ↔ x ∈ l') :
    maxOf l = maxOf l' := by
  apply Option.ext
  intro m
  rw [maxOf_eq_some, maxOf_eq_some]
  simp only [h]

end SparkDev.Sql
