import SparkDev.Polyglot.Fixups
import SparkDev.Sql.Logic

/-!
# The fix-ups keep the meaning

A semantics gives every node a meaning from the meanings of its children, in every
environment of outer rows. The nodes the fix-ups name have their SQL meaning: `<> ALL`
is a conjunction over the rows of the subquery, `= ANY` and `IN` a disjunction, NOT
is Kleene's. What the other nodes mean, the queries included, is a parameter.

* `neAll_eq_not_in`: `x <> ALL` and `NOT x IN` agree on every list of rows, `NULL`s
  and the empty one included.
* `applyFixups_meaning`: in every semantics, every tree and every position in it keeps
  its meaning.
-/

namespace SparkDev.Polyglot

open Trees Sql

/-- A row of nullable values; a value alone is a row of length one. -/
abbrev Row (α : Type) := List (Option α)

/-- What a node stands for: a value, a condition, the rows of a query, these under a
quantifier, or something else (a clause, a table, a branch of a CASE), of type `ω`. -/
inductive Meaning (α ω : Type) where
  | value (row : Row α)
  | truth (t : Truth)
  | rows (rs : List (Row α))
  | allOf (rs : List (Row α))
  | anyOf (rs : List (Row α))
  | clause (c : ω)
  deriving Repr, DecidableEq

/-- What the nodes mean that the fix-ups do not name, over environments `ε`. -/
structure Semantics (α ω ε : Type) where
  /-- A query, from its clauses. -/
  query : Cls → List (ε → Meaning α ω) → ε → List (Row α)
  /-- Any other node. -/
  other : Cls → List (ε → Meaning α ω) → ε → Meaning α ω
  /-- The value a meaning has as the side of a comparison. -/
  asRow : Meaning α ω → Row α
  /-- The condition a meaning has under NOT. -/
  asTruth : Meaning α ω → Truth
  asTruth_truth : ∀ t, asTruth (.truth t) = t

section rows

variable {α ω : Type} [DecidableEq α]

/-- `r = s`: every column is equal. -/
def rowEq (r s : Row α) : Truth := Truth.all (List.zipWith Sql.eq r s)

/-- `r <> s`: some column differs. -/
def rowNe (r s : Row α) : Truth :=
  Truth.any (List.zipWith (compare fun a b => !decide (a = b)) r s)

/-- `r IN` the rows. -/
def rowIn (r : Row α) (rs : List (Row α)) : Truth := Truth.any (rs.map (rowEq r))

/-- A comparison of a row with the other side, under its quantifier if it has one. -/
def quantified (p : Row α → Truth) (asRow : Meaning α ω → Row α) : Meaning α ω → Truth
  | .allOf rs => Truth.all (rs.map p)
  | .anyOf rs => Truth.any (rs.map p)
  | m => p (asRow m)

theorem rowNe_eq (r s : Row α) : rowNe r s = (rowEq r s).not := by
  unfold rowNe rowEq
  rw [Truth.not_all, List.map_zipWith]
  congr 2
  funext x y
  exact compare_not _ x y

/-- **`x <> ALL` is `NOT x IN`**, whatever rows there are and wherever `NULL`s stand. -/
theorem neAll_eq_not_in (r : Row α) (rs : List (Row α)) :
    Truth.all (rs.map (rowNe r)) = (rowIn r rs).not := by
  unfold rowIn
  rw [Truth.not_any, List.map_map]
  congr 1
  exact List.map_congr_left fun s _ => rowNe_eq r s

end rows

variable {α ω ε : Type} [DecidableEq α]

/-- The meaning of a node in a semantics, from those of its children. -/
def nodeMeaning (S : Semantics α ω ε) (c : Cls) (ms : List (ε → Meaning α ω)) (env : ε) : Meaning α ω :=
  match c, ms with
  | .neq, [x, y] => .truth (quantified (rowNe (S.asRow (x env))) S.asRow (y env))
  | .eq, [x, y] => .truth (quantified (rowEq (S.asRow (x env))) S.asRow (y env))
  | .all, [q] =>
    match q env with
    | .rows rs => .allOf rs
    | _ => S.other .all [q] env
  | .any, [q] =>
    match q env with
    | .rows rs => .anyOf rs
    | _ => S.other .any [q] env
  | .not, [m] => .truth (S.asTruth (m env)).not
  | .inQuery, [x, q] =>
    match q env with
    | .rows rs => .truth (rowIn (S.asRow (x env)) rs)
    | _ => S.other .inQuery [x, q] env
  | .subquery, [q] =>
    match q env with
    | .rows rs => .rows rs
    | _ => .rows (S.query .subquery [q] env)
  | .subquery, ms => .rows (S.query .subquery ms env)
  | .select args, ms => .rows (S.query (.select args) ms env)
  | .setOperation args, ms => .rows (S.query (.setOperation args) ms env)
  | c, ms => S.other c ms env

/-- The meaning of a tree. -/
def meaning (S : Semantics α ω ε) (tree : Exp) : ε → Meaning α ω := tree.fold (nodeMeaning S)

variable {S : Semantics α ω ε} {tree n q this : Exp} {env : ε}

theorem meaning_node (S : Semantics α ω ε) (c : Cls) (args : List Exp) :
    meaning S (.node c args) = nodeMeaning S c (args.map (meaning S)) :=
  Rose.fold_node _ c args

/-- A query stands for rows. -/
theorem meaning_query (S : Semantics α ω ε) (hq : isQuery q = true) (env : ε) :
    ∃ rs, meaning S q env = .rows rs := by
  fun_cases isQuery q with
  | case1 args =>
    rw [meaning_node]
    rcases args with _ | ⟨q, _ | ⟨q', args⟩⟩
    · exact ⟨_, rfl⟩
    · rcases hm : meaning S q env <;> simp [nodeMeaning, hm]
    · exact ⟨_, rfl⟩
  | case2 args cs =>
    rw [meaning_node]
    exact ⟨_, by rw [nodeMeaning]⟩
  | case3 args cs =>
    rw [meaning_node]
    exact ⟨_, by rw [nodeMeaning]⟩
  | case4 => grind [isQuery]

/-- Wrapping a query into a subquery keeps its rows. -/
theorem meaning_asSubquery {rs : List (Row α)} (h : meaning S q env = .rows rs) :
    meaning S (asSubquery q) env = .rows rs := by
  fun_cases asSubquery q with
  | case1 args => exact h
  | case2 q =>
    rw [meaning_node]
    simp only [List.map_cons, List.map_nil, nodeMeaning, h]

theorem meaning_not : meaning S (.node .not [n]) env = .truth (S.asTruth (meaning S n env)).not := by
  rw [meaning_node]
  rfl

theorem meaning_inQuery {rs : List (Row α)} (h : meaning S q env = .rows rs) :
    meaning S (.node .inQuery [this, asSubquery q]) env =
      .truth (rowIn (S.asRow (meaning S this env)) rs) := by
  rw [meaning_node]
  simp only [List.map_cons, List.map_nil, nodeMeaning, meaning_asSubquery h]

theorem meaning_neAll {rs : List (Row α)} (h : meaning S q env = .rows rs) :
    meaning S (.node .neq [this, .node .all [q]]) env =
      .truth (Truth.all (rs.map (rowNe (S.asRow (meaning S this env))))) := by
  rw [meaning_node]
  simp only [List.map_cons, List.map_nil, nodeMeaning, meaning_node S .all, h, quantified]

theorem meaning_eqAny {rs : List (Row α)} (h : meaning S q env = .rows rs) :
    meaning S (.node .eq [this, .node .any [q]]) env =
      .truth (rowIn (S.asRow (meaning S this env)) rs) := by
  rw [meaning_node]
  simp only [List.map_cons, List.map_nil, nodeMeaning, meaning_node S .any, h, quantified, rowIn]

/-- A rewritten comparison over a subquery keeps its meaning. -/
theorem meaning_fixup {n' : Exp} (hover : overSubquery n = true)
    (hf : fixupQuantifiedSubquery n = some n') : meaning S n' = meaning S n := by
  funext env
  rcases fixup_cases n with ⟨this, q, rfl⟩ | ⟨this, q, rfl⟩ | ⟨h, -, -⟩
  · -- `x <> ALL (q)`
    cases hf
    obtain ⟨rs, hrs⟩ := meaning_query S hover env
    rw [meaning_not, meaning_inQuery hrs, meaning_neAll hrs, S.asTruth_truth, neAll_eq_not_in]
  · -- `x = ANY (q)`
    cases hf
    obtain ⟨rs, hrs⟩ := meaning_query S hover env
    rw [meaning_inQuery hrs, meaning_eqAny hrs]
  · rw [h] at hf
    cases hf

/-- The fix-ups keep the meaning of a tree. -/
theorem meaning_transform (hquery : ∀ n ∈ tree.subtrees, isQuantified n = true → overSubquery n = true) :
    meaning S (tree.transform fixupQuantifiedSubquery) = meaning S tree := by
  refine Rose.fold_transform fun n hn n' hf => ?_
  exact meaning_fixup (hquery n hn (isQuantified_of_fixup hf)) hf

/-! ## Positions -/

/-- The position in a query that is wrapped into a subquery. -/
def inSubquery : Exp → List ℕ → List ℕ
  | .node .subquery _, path => path
  | _, path => 0 :: path

/-- Where a rewritten comparison has what stood at a position below it. The quantifier itself
is gone. -/
def movedBelow : Exp → List ℕ → Option (List ℕ)
  | .node .neq [_, .node .all [_]], 0 :: path => some (0 :: 0 :: path)
  | .node .neq [_, .node .all [q]], 1 :: 0 :: path => some (0 :: 1 :: inSubquery q path)
  | .node .eq [_, .node .any [_]], 0 :: path => some (0 :: path)
  | .node .eq [_, .node .any [q]], 1 :: 0 :: path => some (1 :: inSubquery q path)
  | _, _ => none

/-- Where the rewritten tree has what stood at a position. -/
def moved : List ℕ → Exp → Option (List ℕ)
  | [], _ => some []
  | i :: path, .node c args =>
    if isQuantified (.node c args) = true then movedBelow (.node c args) (i :: path)
    else args[i]?.bind fun a => (moved path a).map (i :: ·)

/-- `ALL` or `ANY`, which are no conditions. -/
def isQuantifier : Exp → Bool
  | .node .all _ => true
  | .node .any _ => true
  | _ => false

theorem atPath_asSubquery (q : Exp) (path : List ℕ) :
    (asSubquery q).atPath (inSubquery q path) = q.atPath path := by
  fun_cases asSubquery q with
  | case1 args => rw [inSubquery]
  | case2 q hq =>
    rw [inSubquery.eq_2 q path hq]
    rfl

/-- What stands below a quantified comparison, the quantifier apart, stands in its left side or in
its operand. -/
theorem atPath_comparison {c c' : Cls} {d : Exp} {i : ℕ} {path : List ℕ}
    (hc' : isQuantifier (.node c' [q]) = true)
    (hd : Rose.atPath (i :: path) (.node c [this, .node c' [q]]) = some d)
    (hcond : isQuantifier d = false) :
    (i = 0 ∧ this.atPath path = some d) ∨ ∃ rest, i = 1 ∧ path = 0 :: rest ∧ q.atPath rest = some d := by
  rcases i with _ | _ | i
  · exact Or.inl ⟨rfl, hd⟩
  · rcases path with _ | ⟨_ | j, rest⟩
    · -- the quantifier itself
      cases hd
      rw [hc'] at hcond
      cases hcond
    · exact Or.inr ⟨rest, rfl, rfl, hd⟩
    · cases hd
  · cases hd

/-- What stands below a rewritten comparison stands below its new form as it was. -/
theorem atPath_fixup {n' d : Exp} {i : ℕ} {path : List ℕ} (hf : fixupQuantifiedSubquery n = some n')
    (hd : n.atPath (i :: path) = some d) (hcond : isQuantifier d = false) :
    ∃ path', movedBelow n (i :: path) = some path' ∧ n'.atPath path' = some d := by
  rcases fixup_cases n with ⟨this, q, rfl⟩ | ⟨this, q, rfl⟩ | ⟨h, -, -⟩
  · cases hf
    rcases atPath_comparison rfl hd hcond with ⟨rfl, hd⟩ | ⟨rest, rfl, rfl, hd⟩
    · exact ⟨_, rfl, hd⟩
    · exact ⟨_, rfl, (atPath_asSubquery q rest).trans hd⟩
  · cases hf
    rcases atPath_comparison rfl hd hcond with ⟨rfl, hd⟩ | ⟨rest, rfl, rfl, hd⟩
    · exact ⟨_, rfl, hd⟩
    · exact ⟨_, rfl, (atPath_asSubquery q rest).trans hd⟩
  · rw [h] at hf
    cases hf

/-- Every position but that of a rewritten comparison's quantifier is moved somewhere, and has
there the rewritten form of what it had, or what it had. -/
theorem atPath_transform {d : Exp} {path : List ℕ} (hd : tree.atPath path = some d)
    (hcond : isQuantifier d = false) :
    ∃ path' d', moved path tree = some path' ∧
      (tree.transform fixupQuantifiedSubquery).atPath path' = some d' ∧
      (d' = d ∨ d' = d.transform fixupQuantifiedSubquery) := by
  induction path generalizing tree with
  | nil =>
    cases hd
    exact ⟨[], _, rfl, rfl, Or.inr rfl⟩
  | cons i path ih =>
    rcases tree with ⟨c, args⟩
    rcases hf : fixupQuantifiedSubquery (.node c args) with _ | n'
    · -- the root is kept
      obtain ⟨a, ha, hd⟩ := Rose.atPath_cons.1 hd
      obtain ⟨path', d', hmoved, hd', hor⟩ := ih hd
      rw [Rose.transform_none hf, moved, fixup_eq_none_iff.1 hf]
      refine ⟨i :: path', d', ?_, Rose.atPath_cons.2 ⟨_, ?_, hd'⟩, hor⟩
      · simp [ha, hmoved]
      · rw [List.getElem?_map, ha, Option.map_some]
    · obtain ⟨path', hmoved, hd'⟩ := atPath_fixup hf hd hcond
      rw [Rose.transform_some hf, moved, isQuantified_of_fixup hf]
      exact ⟨path', d, hmoved, hd', Or.inl rfl⟩

/-- **The fix-ups keep the meaning.** In every semantics of the other nodes, for every tree
whose quantified comparisons are over subqueries: the rewritten tree has the meaning of the
tree in every environment, and so has, wherever it is moved to, what stands at any position. -/
theorem applyFixups_meaning (S : Semantics α ω ε) (tree : Exp)
    (hquery : ∀ n ∈ tree.subtrees, isQuantified n = true → overSubquery n = true) :
    (∀ env, meaning S (applyFixups tree) env = meaning S tree env) ∧
    ∀ path d, tree.atPath path = some d → isQuantifier d = false →
      ∃ path' d', moved path tree = some path' ∧ (applyFixups tree).atPath path' = some d' ∧
        ∀ env, meaning S d' env = meaning S d env := by
  refine ⟨congrFun (meaning_transform hquery), fun path d hd hcond => ?_⟩
  obtain ⟨path', d', hmoved, hd', hor⟩ := atPath_transform hd hcond
  refine ⟨path', d', hmoved, hd', congrFun ?_⟩
  rcases hor with rfl | rfl
  · rfl
  · have hsub := Rose.mem_subtrees_of_atPath hd
    exact meaning_transform fun n hn => hquery n (Rose.subtrees_trans hsub hn)

/-- A meaning as the side of a comparison of texts. -/
def rowOf : Meaning String Empty → Row String
  | .value row => row
  | _ => [none]

/-- A meaning as the operand of a set operation. -/
def rowsOf : Meaning String Empty → List (Row String)
  | .rows rs => rs
  | _ => []

/-- A meaning as a condition. -/
def truthOf : Meaning String Empty → Truth
  | .truth t => t
  | _ => .unknown

/-- A small dialect: columns, text literals, `NULL`, AND, a `SELECT` without `FROM` and
`UNION ALL`. -/
def plainSql : Semantics String Empty (String → Option String) where
  query
    | .select _, columns, env => [columns.flatMap fun m => rowOf (m env)]
    | _, queries, env => queries.flatMap fun m => rowsOf (m env)
  other
    | .other "Column" [name], _, env => .value [env name]
    | .other "Literal" [text], _, _ => .value [some text]
    | .other "And" _, [m, m'], env => .truth ((truthOf (m env)).and (truthOf (m' env)))
    | _, _, _ => .value [none]
  asRow := rowOf
  asTruth := truthOf
  asTruth_truth := fun _ => rfl

/-- `a not in (select '1' union all select null) and b in (select '1')`. -/
def notInNull : Exp :=
  .node (.other "And" [])
    [.node .neq [.node (.other "Column" ["a"]) [], .node .all [.node (.setOperation ["UNION ALL"])
      [.node (.select []) [.node (.other "Literal" ["1"]) []],
        .node (.select []) [.node (.other "Null" []) []]]]],
    .node .eq [.node (.other "Column" ["b"]) [],
      .node .any [.node .subquery [.node (.select []) [.node (.other "Literal" ["1"]) []]]]]]

/-- The rewritten condition is UNKNOWN where `a` is not among the values and `b` is. -/
theorem applyFixups_meaning_null :
    meaning plainSql (applyFixups notInNull) (fun c => if c = "a" then some "2" else some "1") =
      .truth .unknown :=
  ((applyFixups_meaning plainSql notInNull (by decide)).1 _).trans (by decide +kernel)

end SparkDev.Polyglot
