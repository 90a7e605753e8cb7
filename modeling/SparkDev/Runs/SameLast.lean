import Mathlib.Data.List.Basic

/-!
# Lists with the same last records

A log may be read or written out again from an earlier point, so that a part of it
comes twice. What survives is `SameLast`: under every test on records, the two lists
have the same last record that passes.

* `SameLast.resume`: a list that is still to be continued may go back in the log, and may
  have had some of the continuation already.
* `SameLast.mem_iff`: nothing is lost and nothing is added.
-/

namespace SparkDev.Runs

variable {μ : Type*} {a b c d d' l t u : List μ} {e : μ}

/-- Under every test the two lists have the same last record that passes. -/
def SameLast (a b : List μ) : Prop := ∀ p : μ → Bool, (a.filter p).getLast? = (b.filter p).getLast?

theorem SameLast.refl (a : List μ) : SameLast a a := fun _ => rfl

theorem SameLast.trans (h : SameLast a b) (h' : SameLast b c) : SameLast a c :=
  fun p => (h p).trans (h' p)

theorem SameLast.append_right (h : SameLast a b) (c : List μ) : SameLast (a ++ c) (b ++ c) := by
  intro p
  rw [List.filter_append, List.filter_append, List.getLast?_append, List.getLast?_append, h p]

/-- **Going on from an earlier point.** `t` was to be continued by `d`. It may be continued by
another end of the log that covers `d`, after any records of that end. -/
theorem SameLast.resume (h : SameLast (t ++ d) l) (hend : d' <:+ l) (hd : ∀ x ∈ d, x ∈ d')
    (hu : ∀ x ∈ u, x ∈ d') : SameLast (t ++ u ++ d') l := by
  intro p
  rcases hp : (d'.filter p).getLast? with _ | x
  · -- no record of the new end passes, so none of `u` and `d` does
    have hnone : ∀ x ∈ d', p x = false := by
      intro x hx
      rw [List.getLast?_eq_none_iff, List.filter_eq_nil_iff] at hp
      exact Bool.eq_false_iff.2 (hp x hx)
    have hempty : ∀ v : List μ, (∀ x ∈ v, x ∈ d') → v.filter p = [] := by
      intro v hv
      exact List.filter_eq_nil_iff.2 fun x hx => Bool.eq_false_iff.1 (hnone x (hv x hx))
    have hold := h p
    rw [List.filter_append, hempty d hd, List.append_nil] at hold
    rw [List.filter_append, List.filter_append, hempty u hu, hempty d' fun _ => id, List.append_nil,
      List.append_nil]
    exact hold
  · obtain ⟨front, rfl⟩ := hend
    have hlog : ((front ++ d').filter p).getLast? = some x := by
      rw [List.filter_append, List.getLast?_append, hp, Option.some_or]
    rw [hlog, List.filter_append, List.getLast?_append, hp, Option.some_or]

/-- Going back in the log. -/
theorem SameLast.rewind {m n : ℕ} (h : SameLast (t ++ l.drop n) l) (hmn : m ≤ n) :
    SameLast (t ++ l.drop m) l := by
  have hsub : ∀ x ∈ l.drop n, x ∈ l.drop m := fun x hx => (List.drop_subset_drop_left l hmn) hx
  have hres := h.resume (List.drop_suffix m l) hsub (u := []) fun x hx => absurd hx List.not_mem_nil
  rwa [List.append_nil] at hres

/-- **The same records.** -/
theorem SameLast.mem_iff (h : SameLast a b) : e ∈ a ↔ e ∈ b := by
  classical
  have hlast : ∀ v : List μ, e ∈ v ↔ (v.filter fun x => decide (x = e)).getLast? ≠ none := by
    intro v
    rw [ne_eq, List.getLast?_eq_none_iff, List.filter_eq_nil_iff]
    simp
  rw [hlast a, hlast b, h]

/-- What the last record of a kind is made into, when every record of the kind is made into
something. -/
theorem getLast?_filterMap_filter {ν : Type*} (f : μ → Option ν) (p : ν → Bool) (v : List μ) :
    ((v.filterMap f).filter p).getLast? = (v.filter fun x => (f x).any p).getLast?.bind f := by
  have hfilter : (v.filterMap f).filter p = (v.filter fun x => (f x).any p).filterMap f := by
    rw [List.filter_filterMap, List.filterMap_filter]
    refine List.filterMap_congr fun x _ => ?_
    rcases f x with _ | y
    · rfl
    · rcases hy : p y <;> simp [Option.filter, hy]
  rw [hfilter]
  rcases List.eq_nil_or_concat' (v.filter fun x => (f x).any p) with hv | ⟨w, x, hv⟩
  · rw [hv]; rfl
  · have hx : x ∈ v.filter fun x => (f x).any p := by rw [hv]; simp
    have hpx : (f x).any p = true := (List.mem_filter.1 hx).2
    obtain ⟨y, hy⟩ : ∃ y, f x = some y := by
      rcases hfx : f x with _ | y
      · rw [hfx] at hpx; cases hpx
      · exact ⟨y, rfl⟩
    rw [hv, List.filterMap_append, List.getLast?_append, List.getLast?_append]
    simp [hy]

end SparkDev.Runs
