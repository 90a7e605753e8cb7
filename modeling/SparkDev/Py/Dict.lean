import Mathlib.Algebra.BigOperators.Group.List.Basic
import Mathlib.Algebra.GroupWithZero.Nat
import Mathlib.Data.List.Nodup

/-!
# Dictionaries

A `dict` lists its items in insertion order and has no key twice. Setting a key that is
there keeps its place.

* `get?_set`, `get?_update`: what a lookup finds after an assignment and after `update`.
* `get?_counted`, `sum_counted`: a dict of counts holds for each key how often it was
  counted, and the counts add up to the number of things counted.
-/

namespace SparkDev.Py

variable {κ α : Type*} [DecidableEq κ]

/-- A `dict`. -/
structure Dict (κ α : Type*) where
  items : List (κ × α)
  nodup : (items.map Prod.fst).Nodup

namespace Dict

/-- `{}`. -/
def empty : Dict κ α := ⟨[], List.nodup_nil⟩

/-- The value of a key in a list of items. -/
def lookup (k : κ) : List (κ × α) → Option α
  | [] => none
  | item :: items => if item.1 = k then some item.2 else lookup k items

/-- Items with the value of a key replaced, or with the key in the last place. -/
def setItem (k : κ) (v : α) : List (κ × α) → List (κ × α)
  | [] => [(k, v)]
  | item :: items => if item.1 = k then (k, v) :: items else item :: setItem k v items

/-- `d.get(k)`. -/
def get? (d : Dict κ α) (k : κ) : Option α := lookup k d.items

theorem mem_keys_setItem {k k' : κ} {v : α} {items : List (κ × α)} :
    k' ∈ (setItem k v items).map Prod.fst ↔ k' = k ∨ k' ∈ items.map Prod.fst := by
  induction items with
  | nil => simp [setItem]
  | cons item items ih =>
    by_cases h : item.1 = k
    · simp [setItem, h]
    · rw [setItem, if_neg h, List.map_cons, List.mem_cons, ih, List.map_cons, List.mem_cons]
      exact or_left_comm

theorem nodup_setItem {k : κ} {v : α} {items : List (κ × α)} (h : (items.map Prod.fst).Nodup) :
    ((setItem k v items).map Prod.fst).Nodup := by
  induction items with
  | nil => exact List.nodup_singleton k
  | cons item items ih =>
    rw [List.map_cons, List.nodup_cons] at h
    by_cases hk : item.1 = k
    · rw [setItem, if_pos hk, List.map_cons, List.nodup_cons, ← hk]
      exact h
    · rw [setItem, if_neg hk, List.map_cons, List.nodup_cons, mem_keys_setItem, not_or]
      exact ⟨⟨hk, h.1⟩, ih h.2⟩

/-- `d[k] = v`. -/
def set (d : Dict κ α) (k : κ) (v : α) : Dict κ α := ⟨setItem k v d.items, nodup_setItem d.nodup⟩

/-- `d.update(e)`, and `{**d, **e}`. -/
def update (d e : Dict κ α) : Dict κ α := e.items.foldl (fun d item => d.set item.1 item.2) d

/-- A dict display: a later item replaces an earlier one of its key. -/
def ofItems (items : List (κ × α)) : Dict κ α := items.foldl (fun d item => d.set item.1 item.2) empty

/-- `{k: f(v) for k, v in d.items()}`. -/
def mapValues {β : Type*} (f : α → β) (d : Dict κ α) : Dict κ β where
  items := d.items.map fun item => (item.1, f item.2)
  nodup := by
    rw [List.map_map]
    exact d.nodup

variable {d e : Dict κ α} {k k' : κ} {v : α}

@[simp] theorem get?_empty (k : κ) : (empty : Dict κ α).get? k = none := rfl

theorem lookup_setItem (k k' : κ) (v : α) (items : List (κ × α)) :
    lookup k' (setItem k v items) = if k' = k then some v else lookup k' items := by
  induction items with
  | nil => simp [setItem, lookup, eq_comm]
  | cons item items ih =>
    by_cases hk : item.1 = k
    · rw [setItem, if_pos hk, lookup, lookup, hk]
      by_cases h : k' = k
      · simp [h]
      · simp [h, Ne.symm h]
    · rw [setItem, if_neg hk, lookup, lookup, ih]
      by_cases h : item.1 = k'
      · rw [if_pos h, if_pos h, if_neg fun he => hk (h.trans he)]
      · rw [if_neg h, if_neg h]

/-- **Lookup after an assignment.** -/
@[simp] theorem get?_set (d : Dict κ α) (k k' : κ) (v : α) :
    (d.set k v).get? k' = if k' = k then some v else d.get? k' := lookup_setItem k k' v d.items

theorem lookup_eq_none {items : List (κ × α)} : lookup k items = none ↔ k ∉ items.map Prod.fst := by
  induction items with
  | nil => simp [lookup]
  | cons item items ih =>
    by_cases h : item.1 = k
    · simp [lookup, h]
    · rw [lookup, if_neg h, ih, List.map_cons, List.mem_cons, not_or]
      exact (and_iff_right (Ne.symm h)).symm

theorem lookup_eq_some : ∀ {items : List (κ × α)}, (items.map Prod.fst).Nodup →
    (lookup k items = some v ↔ (k, v) ∈ items) := by
  intro items
  induction items with
  | nil => intro _; simp [lookup]
  | cons item items ih =>
    intro hnodup
    rw [List.map_cons, List.nodup_cons] at hnodup
    rw [lookup, List.mem_cons]
    by_cases h : item.1 = k
    · have hnew : (k, v) ∉ items := fun hm => hnodup.1 (h ▸ List.mem_map_of_mem hm)
      rw [if_pos h, Option.some.injEq, or_iff_left hnew]
      constructor
      · rintro rfl
        rw [← h]
      · rintro rfl
        rfl
    · have hne : (k, v) ≠ item := fun he => h (congrArg Prod.fst he).symm
      rw [if_neg h, ih hnodup.2, or_iff_right hne]

theorem lookup_reverse {items : List (κ × α)} (hnodup : (items.map Prod.fst).Nodup) :
    lookup k items.reverse = lookup k items := by
  have hreverse : (items.reverse.map Prod.fst).Nodup := by
    rw [List.map_reverse, List.nodup_reverse]
    exact hnodup
  ext v
  rw [lookup_eq_some hreverse, lookup_eq_some hnodup, List.mem_reverse]

theorem lookup_append (k : κ) (items items' : List (κ × α)) :
    lookup k (items ++ items') = (lookup k items).or (lookup k items') := by
  induction items with
  | nil => rfl
  | cons item items ih =>
    rw [List.cons_append, lookup, lookup]
    split
    · rfl
    · exact ih

/-- Lookup after a list of assignments, when no key is assigned twice. -/
theorem get?_foldl_set : ∀ {items : List (κ × α)}, (items.map Prod.fst).Nodup → ∀ d : Dict κ α,
    (items.foldl (fun d item => d.set item.1 item.2) d).get? k = (lookup k items).or (d.get? k) := by
  intro items
  induction items with
  | nil => intro _ d; rfl
  | cons item items ih =>
    intro hnodup d
    rw [List.map_cons, List.nodup_cons] at hnodup
    rw [List.foldl_cons, ih hnodup.2, get?_set, lookup]
    by_cases h : item.1 = k
    · have hnone : lookup k items = none := lookup_eq_none.2 (h ▸ hnodup.1)
      rw [hnone, if_pos h.symm, if_pos h]
      rfl
    · rw [if_neg h, if_neg (Ne.symm h)]

/-- **Lookup after `update`.** -/
@[simp] theorem get?_update (d e : Dict κ α) (k : κ) : (d.update e).get? k = (e.get? k).or (d.get? k) :=
  get?_foldl_set e.nodup d

/-! ## Counts -/

/-- `counts[k] = counts.get(k, 0) + 1`. -/
def count (counts : Dict κ ℕ) (k : κ) : Dict κ ℕ := counts.set k ((counts.get? k).getD 0 + 1)

/-- The sum of the values. -/
def sum (counts : Dict κ ℕ) : ℕ := (counts.items.map Prod.snd).sum

theorem sum_setItem (k : κ) (items : List (κ × ℕ)) :
    ((setItem k ((lookup k items).getD 0 + 1) items).map Prod.snd).sum =
      (items.map Prod.snd).sum + 1 := by
  induction items with
  | nil => rfl
  | cons item items ih =>
    by_cases h : item.1 = k
    · rw [lookup, setItem, if_pos h, if_pos h]
      simp only [List.map_cons, List.sum_cons, Option.getD_some]
      omega
    · rw [lookup, setItem, if_neg h, if_neg h, List.map_cons, List.sum_cons, ih, List.map_cons,
        List.sum_cons, add_assoc]

theorem sum_count (counts : Dict κ ℕ) (k : κ) : (counts.count k).sum = counts.sum + 1 :=
  sum_setItem k counts.items

/-- **The counts add up.** -/
theorem sum_counted : ∀ (ks : List κ) (counts : Dict κ ℕ),
    (ks.foldl count counts).sum = counts.sum + ks.length := by
  intro ks
  induction ks with
  | nil => intro counts; rfl
  | cons k ks ih =>
    intro counts
    rw [List.foldl_cons, ih, sum_count, List.length_cons]
    omega

/-- **What is counted for a key.** -/
theorem get?_counted (k : κ) : ∀ (ks : List κ) (counts : Dict κ ℕ),
    ((ks.foldl count counts).get? k).getD 0 = (counts.get? k).getD 0 + ks.count k := by
  intro ks
  induction ks with
  | nil => intro counts; rfl
  | cons k' ks ih =>
    intro counts
    rw [List.foldl_cons, ih, count, get?_set, List.count_cons]
    by_cases h : k = k'
    · subst h
      rw [if_pos rfl, if_pos (beq_self_eq_true k), Option.getD_some]
      omega
    · have hne : (k' == k) = false := beq_eq_false_iff_ne.2 (Ne.symm h)
      rw [if_neg h, hne]
      rfl

end Dict

end SparkDev.Py
