import SparkDev.Trees.Rose

/-!
# The Spark fix-ups

A parsed statement is a tree of sqlglot nodes. `fixupQuantifiedSubquery` turns
`x <> ALL (q)` into `NOT x IN (q)` and `x = ANY (q)` into `x IN (q)`, and each fix-up
is applied by `Expression.transform`, which walks the tree from the root down and
does not enter a node it has just put in place.

* `quantifierFree_iff`: no quantified comparison over a subquery is left exactly when
  none stood inside another quantified comparison.
* `nested_not_in_left`: a `NOT IN` in the subquery of a `NOT IN` is left.
-/

namespace SparkDev.Polyglot

open Trees

/-- The class of a node: those the fix-ups name, the queries, and every other class with
its arguments that are not expressions. -/
inductive Cls where
  | neq
  | eq
  | all
  | any
  | not
  /-- `In` with its `query` argument. -/
  | inQuery
  | subquery
  | select (args : List String)
  | setOperation (args : List String)
  | other (cls : String) (args : List String)
  deriving DecidableEq, Repr

/-- A node is its class and its arguments that are expressions, `this` first, then
`expression` or `query`. -/
abbrev Exp := Rose Cls

/-- `isinstance(node, exp.Query)`. -/
def isQuery : Exp → Bool
  | .node .subquery _ => true
  | .node (.select _) _ => true
  | .node (.setOperation _) _ => true
  | _ => false

/-- `_as_subquery`. -/
def asSubquery (node : Exp) : Exp :=
  match node with
  | .node .subquery args => .node .subquery args
  | node => .node .subquery [node]

/-- `fixup_quantified_subquery`; `none` stands for `return node`. -/
def fixupQuantifiedSubquery : Exp → Option Exp
  | .node .neq [this, .node .all [q]] =>
    some (.node .not [.node .inQuery [this, asSubquery q]])
  | .node .eq [this, .node .any [q]] => some (.node .inQuery [this, asSubquery q])
  | _ => none

/-- `SPARK_FIXUPS`. -/
def sparkFixups : List (Exp → Option Exp) := [fixupQuantifiedSubquery]

/-- `for fixup in SPARK_FIXUPS: tree = tree.transform(fixup)`. -/
def applyFixups (tree : Exp) : Exp := sparkFixups.foldl (fun tree fixup => tree.transform fixup) tree

/-- `x <> ALL (q)` or `x = ANY (q)`, whatever `q` is. -/
def isQuantified : Exp → Bool
  | .node .neq [_, .node .all [_]] => true
  | .node .eq [_, .node .any [_]] => true
  | _ => false

/-- `x <> ALL (q)` or `x = ANY (q)` with a query `q`. -/
def overSubquery : Exp → Bool
  | .node .neq [_, .node .all [q]] => isQuery q
  | .node .eq [_, .node .any [q]] => isQuery q
  | _ => false

/-- No comparison that Spark does not have is left in the tree. -/
def QuantifierFree (tree : Exp) : Prop := Rose.Free overSubquery tree

variable {node this q d tree : Exp} {args : List Exp}

/-- The two shapes that are rewritten. -/
theorem fixup_cases (node : Exp) :
    (∃ this q, node = .node .neq [this, .node .all [q]]) ∨
      (∃ this q, node = .node .eq [this, .node .any [q]]) ∨
      (fixupQuantifiedSubquery node = none ∧ isQuantified node = false ∧ overSubquery node = false) := by
  fun_cases fixupQuantifiedSubquery node
  · exact Or.inl ⟨_, _, rfl⟩
  · exact Or.inr (Or.inl ⟨_, _, rfl⟩)
  · rename_i h₁ h₂
    refine Or.inr (Or.inr ⟨rfl, ?_, ?_⟩)
    · fun_cases isQuantified node
      · exact absurd rfl (h₁ _ _)
      · exact absurd rfl (h₂ _ _)
      · rfl
    · fun_cases overSubquery node
      · exact absurd rfl (h₁ _ _)
      · exact absurd rfl (h₂ _ _)
      · rfl

theorem fixup_eq_none_iff : fixupQuantifiedSubquery node = none ↔ isQuantified node = false := by
  rcases fixup_cases node with ⟨this, q, rfl⟩ | ⟨this, q, rfl⟩ | ⟨h, h', -⟩
  · simp [fixupQuantifiedSubquery, isQuantified]
  · simp [fixupQuantifiedSubquery, isQuantified]
  · simp [h, h']

/-- Only quantified comparisons are rewritten. -/
theorem isQuantified_of_fixup {node' : Exp} (h : fixupQuantifiedSubquery node = some node') :
    isQuantified node = true := by
  rcases hq : isQuantified node
  · rw [fixup_eq_none_iff.2 hq] at h
    cases h
  · rfl

theorem free_asSubquery : QuantifierFree (asSubquery q) ↔ QuantifierFree q := by
  unfold asSubquery QuantifierFree
  split
  · exact Iff.rfl
  · rw [Rose.free_node]
    simp [overSubquery]

theorem free_inQuery :
    QuantifierFree (.node .inQuery [this, asSubquery q]) ↔ QuantifierFree this ∧ QuantifierFree q := by
  rw [← free_asSubquery (q := q)]
  unfold QuantifierFree
  rw [Rose.free_node]
  simp [overSubquery]

/-- A rewritten node is free of them exactly when nothing below the old one is one: `ALL`
and `ANY` themselves are none. -/
theorem free_of_fixup {node' : Exp} (h : fixupQuantifiedSubquery node = some node') :
    QuantifierFree node' ↔ ∀ d ∈ node.descendants, overSubquery d = false := by
  -- the rewritten node is no quantified comparison itself: what counts is below it
  have hbelow : ∀ (c c' : Cls) (this q : Exp), overSubquery (.node c' [q]) = false →
      ((QuantifierFree this ∧ QuantifierFree q) ↔
        ∀ d ∈ (Rose.node c [this, .node c' [q]]).descendants, overSubquery d = false) := by
    intro c c' this q hc'
    have hq : QuantifierFree (.node c' [q]) ↔ QuantifierFree q := by
      unfold QuantifierFree
      rw [Rose.free_node]
      simp [hc']
    rw [← hq]
    unfold QuantifierFree Rose.Free
    simp only [Rose.mem_descendants, List.mem_cons, List.not_mem_nil, or_false]
    constructor
    · rintro ⟨h₁, h₂⟩ d ⟨c, rfl | rfl, hd⟩
      · exact h₁ d hd
      · exact h₂ d hd
    · intro h
      exact ⟨fun d hd => h d ⟨_, Or.inl rfl, hd⟩, fun d hd => h d ⟨_, Or.inr rfl, hd⟩⟩
  rcases fixup_cases node with ⟨this, q, rfl⟩ | ⟨this, q, rfl⟩ | ⟨h', -, -⟩
  · cases h
    rw [← hbelow .neq .all this q rfl, ← free_inQuery]
    unfold QuantifierFree
    rw [Rose.free_node]
    simp [overSubquery]
  · cases h
    rw [← hbelow .eq .any this q rfl, ← free_inQuery]
  · rw [h'] at h
    cases h

/-- What a tree turns into has the class of its root, unless the root is rewritten. -/
theorem transform_eq_node {c : Cls} (h : node.transform fixupQuantifiedSubquery = .node c args)
    (hnot : c ≠ .not) (hin : c ≠ .inQuery) :
    ∃ args', node = .node c args' ∧ args = args'.map (Rose.transform fixupQuantifiedSubquery) := by
  rcases node with ⟨c', args'⟩
  rcases fixup_cases (.node c' args') with ⟨this, q, he⟩ | ⟨this, q, he⟩ | ⟨hf, -, -⟩
  · cases he
    rw [Rose.transform_some (f := fixupQuantifiedSubquery) rfl] at h
    cases h
    exact absurd rfl hnot
  · cases he
    rw [Rose.transform_some (f := fixupQuantifiedSubquery) rfl] at h
    cases h
    exact absurd rfl hin
  · rw [Rose.transform_none hf] at h
    cases h
    exact ⟨args', rfl, rfl⟩

/-- A comparison with a quantifier in the result was one before. -/
theorem transform_eq_quantified {c c' : Cls} (hc : c ≠ .not ∧ c ≠ .inQuery)
    (hc' : c' ≠ .not ∧ c' ≠ .inQuery)
    (h : node.transform fixupQuantifiedSubquery = .node c [this, .node c' [q]]) :
    ∃ this₀ q₀, node = .node c [this₀, .node c' [q₀]] := by
  obtain ⟨args, rfl, hargs⟩ := transform_eq_node h hc.1 hc.2
  obtain ⟨this₀, rest, rfl, -, hrest⟩ := List.map_eq_cons_iff.1 hargs.symm
  obtain ⟨y, rest, rfl, hy, hnil⟩ := List.map_eq_cons_iff.1 hrest
  obtain ⟨qs, rfl, hqs⟩ := transform_eq_node hy hc'.1 hc'.2
  obtain ⟨q₀, qs, rfl, -, hnil'⟩ := List.map_eq_cons_iff.1 hqs.symm
  rw [List.map_eq_nil_iff.1 hnil, List.map_eq_nil_iff.1 hnil']
  exact ⟨this₀, q₀, rfl⟩

/-- A node that is kept does not become a quantified comparison. -/
theorem overSubquery_transform (h : fixupQuantifiedSubquery node = none) :
    overSubquery (node.transform fixupQuantifiedSubquery) = false := by
  rcases fixup_cases (node.transform fixupQuantifiedSubquery) with ⟨_, _, he⟩ | ⟨_, _, he⟩ | ⟨-, -, hq⟩
  · obtain ⟨_, _, rfl⟩ := transform_eq_quantified (by decide) (by decide) he
    cases h
  · obtain ⟨_, _, rfl⟩ := transform_eq_quantified (by decide) (by decide) he
    cases h
  · exact hq

/-- **When the fix-ups are complete**: exactly when no quantified comparison over a
subquery stands inside another quantified comparison. -/
theorem quantifierFree_iff (tree : Exp) :
    QuantifierFree (applyFixups tree) ↔
      ∀ n ∈ tree.subtrees, isQuantified n = true → ∀ d ∈ n.descendants, overSubquery d = false := by
  have h := Rose.transform_free_iff (f := fixupQuantifiedSubquery) (t := tree)
    (fun _ _ => free_of_fixup) (fun _ => overSubquery_transform)
  simp only [ne_eq, fixup_eq_none_iff, Bool.not_eq_false] at h
  exact h

/-- `select a from t where a not in (q)`, as the Snowflake reader gives it; the columns and
the table are cut down to their names. -/
def selectNotIn (q : Exp) : Exp :=
  .node (.select []) [.node (.other "Column" ["a"]) [],
    .node (.other "From" []) [.node (.other "Table" ["t"]) []],
    .node (.other "Where" []) [.node .neq [.node (.other "Column" ["a"]) [], .node .all [q]]]]

/-- A `NOT IN` in the subquery of a `NOT IN`. -/
def nestedNotIn : Exp :=
  selectNotIn (selectNotIn (.node (.select []) [.node (.other "Column" ["b"]) []]))

/-- **The inner `NOT IN` is left as `<> ALL`.** -/
theorem nested_not_in_left : ¬QuantifierFree (applyFixups nestedNotIn) := by
  intro h
  have hinner := h (.node .neq [.node (.other "Column" ["a"]) [],
    .node .all [.node (.select []) [.node (.other "Column" ["b"]) []]]]) (by
      simp [applyFixups, sparkFixups, nestedNotIn, selectNotIn, Rose.transform, Rose.transformAll,
        fixupQuantifiedSubquery, asSubquery, Rose.subtrees, Rose.subtreesAll])
  simp [overSubquery, isQuery] at hinner

end SparkDev.Polyglot
