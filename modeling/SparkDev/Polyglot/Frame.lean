import Mathlib.Data.List.Forall2
import SparkDev.Polyglot.Fixups

/-!
# What the fix-ups leave alone

`TouchesOnly` says which trees the fix-ups are meant to turn a tree into: comparisons
over a subquery may be rewritten, every other node keeps its class, its arguments
and the number of its children. The fix-up itself does not look at the operand.

* `touchesOnly_iff`: the result is such a tree exactly when every quantified comparison
  that stands inside no other has a query for its operand.
* `array_membership_touched`: `a = ANY (tags)` becomes `a IN` a subquery.
-/

namespace SparkDev.Polyglot

open Trees

/-- `tree'` is `tree` with some of the comparisons over a subquery rewritten, and nothing else
changed. -/
inductive TouchesOnly : Exp → Exp → Prop where
  | notIn {this this' q q' : Exp} (hq : isQuery q = true) (hthis : TouchesOnly this this')
      (hq' : TouchesOnly q q') :
      TouchesOnly (.node .neq [this, .node .all [q]])
        (.node .not [.node .inQuery [this', asSubquery q']])
  | isIn {this this' q q' : Exp} (hq : isQuery q = true) (hthis : TouchesOnly this this')
      (hq' : TouchesOnly q q') :
      TouchesOnly (.node .eq [this, .node .any [q]]) (.node .inQuery [this', asSubquery q'])
  | kept (c : Cls) {args args' : List Exp} (hargs : List.Forall₂ TouchesOnly args args') :
      TouchesOnly (.node c args) (.node c args')

variable {this q q' tree tree' node : Exp} {args args' : List Exp} {c : Cls}

namespace TouchesOnly

theorem refl (tree : Exp) : TouchesOnly tree tree := by
  induction tree using Rose.induct with
  | node c args ih => exact kept c (List.forall₂_same.2 ih)

/-- A tree with no comparison over a subquery has to stay as it is. -/
theorem eq_self (h : TouchesOnly tree tree') (hfree : QuantifierFree tree) : tree' = tree := by
  induction tree using Rose.induct generalizing tree' with
  | node c args ih =>
    obtain ⟨hroot, hfrees⟩ := Rose.free_node.1 hfree
    rcases h with ⟨hq, -, -⟩ | ⟨hq, -, -⟩ | ⟨c, hargs⟩
    · rw [overSubquery, hq] at hroot
      cases hroot
    · rw [overSubquery, hq] at hroot
      cases hroot
    · -- the children are related one by one, and each stays as it is
      have hall := (List.forall₂_and_left _ _).2 ⟨fun a ha => ha, hargs⟩
      have heq : List.Forall₂ Eq args _ := hall.imp fun a a' ha => (ih a ha.1 ha.2 (hfrees a ha.1)).symm
      rw [List.forall₂_eq_eq_eq] at heq
      rw [heq]

/-- A node that keeps its class may only change below. -/
theorem children (h : TouchesOnly (.node c args) (.node c args')) :
    List.Forall₂ TouchesOnly args args' := by
  rcases h with _ | _ | ⟨c, hargs⟩
  exact hargs

theorem query_of_notIn (h : TouchesOnly (.node .neq [this, .node .all [q]]) (.node .not args)) :
    isQuery q = true := by
  rcases h with ⟨hq, -, -⟩ | _
  exact hq

theorem query_of_isIn (h : TouchesOnly (.node .eq [this, .node .any [q]]) (.node .inQuery args)) :
    isQuery q = true := by
  rcases h with _ | ⟨hq, -, -⟩
  exact hq

/-- The rewritten form of a comparison is allowed exactly when the operand is a query. -/
theorem fixup_iff {node' : Exp} (hf : fixupQuantifiedSubquery node = some node') :
    TouchesOnly node node' ↔ overSubquery node = true := by
  rcases fixup_cases node with ⟨this, q, rfl⟩ | ⟨this, q, rfl⟩ | ⟨h, -, -⟩
  · cases hf
    exact ⟨query_of_notIn, fun hq => notIn hq (refl this) (refl q)⟩
  · cases hf
    exact ⟨query_of_isIn, fun hq => isIn hq (refl this) (refl q)⟩
  · rw [h] at hf
    cases hf

end TouchesOnly

/-! ## The comparisons the fix-up meets -/

/-- Every quantified comparison that stands inside no other one has a query for its operand. -/
def OutermostOverSubquery (tree : Exp) : Prop :=
  ∀ path n, tree.atPath path = some n → tree.outside isQuantified path = true →
    isQuantified n = true → overSubquery n = true

theorem outermost_of_quantified (h : isQuantified tree = true) :
    OutermostOverSubquery tree ↔ overSubquery tree = true := by
  constructor
  · intro hall
    exact hall [] tree rfl rfl h
  · rintro hover (_ | ⟨i, path⟩) n hn hout -
    · cases hn
      exact hover
    · -- a position below the root has the root above it
      rcases tree with ⟨c, args⟩
      obtain ⟨a, ha, -⟩ := Rose.atPath_cons.1 hn
      rw [((Rose.outside_cons ha).1 hout).1] at h
      cases h

theorem outermost_of_kept (h : isQuantified (.node c args) = false) :
    OutermostOverSubquery (.node c args) ↔ ∀ a ∈ args, OutermostOverSubquery a := by
  constructor
  · intro hall a ha path n hn hout
    obtain ⟨i, hi⟩ := List.mem_iff_getElem?.1 ha
    exact hall (i :: path) n (Rose.atPath_cons.2 ⟨a, hi, hn⟩) ((Rose.outside_cons hi).2 ⟨h, hout⟩)
  · rintro hall (_ | ⟨i, path⟩) n hn hout hq
    · cases hn
      rw [h] at hq
      cases hq
    · obtain ⟨a, ha, hn⟩ := Rose.atPath_cons.1 hn
      exact hall a (List.mem_of_getElem? ha) path n hn ((Rose.outside_cons ha).1 hout).2 hq

/-- Walking from the root, the fix-up touches only what it should exactly when the outermost
quantified comparisons are over subqueries. -/
theorem touchesOnly_transform (tree : Exp) :
    TouchesOnly tree (tree.transform fixupQuantifiedSubquery) ↔ OutermostOverSubquery tree := by
  induction tree using Rose.induct with
  | node c args ih =>
    rcases hf : fixupQuantifiedSubquery (.node c args) with _ | node'
    · -- the root is kept: the children decide
      rw [outermost_of_kept (fixup_eq_none_iff.1 hf), Rose.transform_none hf]
      constructor
      · intro h a ha
        have hargs := List.forall₂_map_right_iff.1 h.children
        exact (ih a ha).1 (List.forall₂_same.1 hargs a ha)
      · intro h
        refine TouchesOnly.kept c (List.forall₂_map_right_iff.2 (List.forall₂_same.2 ?_))
        exact fun a ha => (ih a ha).2 (h a ha)
    · -- the root is rewritten, whatever its operand
      rw [outermost_of_quantified (isQuantified_of_fixup hf), Rose.transform_some hf]
      exact TouchesOnly.fixup_iff hf

/-- **What the fix-ups touch.** They rewrite comparisons over a subquery and nothing else, so
that a tree without such a comparison comes back as it was, exactly when every quantified
comparison that stands inside no other one has a query for its operand: an array, a column or a
call there is wrapped into a subquery as well. -/
theorem touchesOnly_iff (tree : Exp) :
    (TouchesOnly tree (applyFixups tree) ∧ (QuantifierFree tree → applyFixups tree = tree)) ↔
      OutermostOverSubquery tree := by
  rw [← touchesOnly_transform]
  constructor
  · rintro ⟨h, -⟩
    exact h
  · intro h
    exact ⟨h, h.eq_self⟩

/-- `select a from t where a = any (tags)`, as the Postgres reader gives it. -/
def arrayMembership : Exp :=
  .node (.select []) [.node (.other "Column" ["a"]) [],
    .node (.other "From" []) [.node (.other "Table" ["t"]) []],
    .node (.other "Where" []) [.node .eq [.node (.other "Column" ["a"]) [],
      .node .any [.node (.other "Paren" []) [.node (.other "Column" ["tags"]) []]]]]]

/-- **A membership test of an array is rewritten**: the tree has no comparison over a subquery
and still changes. -/
theorem array_membership_touched :
    ¬(TouchesOnly arrayMembership (applyFixups arrayMembership) ∧
      (QuantifierFree arrayMembership → applyFixups arrayMembership = arrayMembership)) := by
  rintro ⟨-, h⟩
  have hfree : QuantifierFree arrayMembership := by
    simp [QuantifierFree, arrayMembership, Rose.free_node, overSubquery, isQuery]
  have hsame := h hfree
  simp [applyFixups, sparkFixups, arrayMembership, Rose.transform, Rose.transformAll,
    fixupQuantifiedSubquery] at hsame

end SparkDev.Polyglot
