import Mathlib.Data.List.Basic

/-!
# Labelled trees and pre-order rewriting

`transform f` walks a tree from the root down. Where `f` gives a new tree it takes
its place and is not entered; where it gives none the children are visited.

* `fold_transform`: a meaning computed from the children's is kept when rewriting a node keeps it.
* `transform_free_iff`: when rewriting a node removes the defects of the node itself
  and keeps those below it, the result has no defect exactly when no rewritten node
  has one below it.
-/

namespace SparkDev.Trees

/-- A tree with a label at every node. -/
inductive Rose (α : Type*) where
  | node (label : α) (children : List (Rose α))

namespace Rose

variable {α : Type*} {f : Rose α → Option (Rose α)} {a : α} {cs : List (Rose α)} {d n t t' : Rose α}

/-- Induction over a tree: the property of a node from that of its children. -/
@[elab_as_elim, induction_eliminator]
theorem induct {motive : Rose α → Prop}
    (node : ∀ a cs, (∀ c ∈ cs, motive c) → motive (node a cs)) (t : Rose α) : motive t := by
  cases t with
  | node a cs => exact node a cs fun c _ => induct node c

mutual

/-- A tree and every tree below it, in pre-order. -/
def subtrees : Rose α → List (Rose α)
  | node a cs => node a cs :: subtreesAll cs

/-- The subtrees of a list of trees. -/
def subtreesAll : List (Rose α) → List (Rose α)
  | [] => []
  | c :: cs => subtrees c ++ subtreesAll cs

end

/-- The trees strictly below the root. -/
def descendants : Rose α → List (Rose α)
  | node _ cs => subtreesAll cs

mutual

/-- Rewriting from the root down; a tree that was put in place is not entered. -/
def transform (f : Rose α → Option (Rose α)) : Rose α → Rose α
  | node a cs =>
    match f (node a cs) with
    | some t => t
    | none => node a (transformAll f cs)

/-- Rewriting each of a list of trees. -/
def transformAll (f : Rose α → Option (Rose α)) : List (Rose α) → List (Rose α)
  | [] => []
  | c :: cs => transform f c :: transformAll f cs

end

/-! ## Subtrees -/

theorem mem_subtreesAll : d ∈ subtreesAll cs ↔ ∃ c ∈ cs, d ∈ subtrees c := by
  induction cs with
  | nil => simp [subtreesAll]
  | cons c cs ih => rw [subtreesAll, List.mem_append, ih, List.exists_mem_cons_iff]

theorem mem_descendants : d ∈ descendants (node a cs) ↔ ∃ c ∈ cs, d ∈ subtrees c :=
  mem_subtreesAll

theorem subtrees_eq (t : Rose α) : subtrees t = t :: descendants t := by
  rcases t with ⟨a, cs⟩
  rw [subtrees, descendants]

theorem mem_subtrees : d ∈ subtrees t ↔ d = t ∨ d ∈ descendants t := by
  rw [subtrees_eq, List.mem_cons]

theorem mem_subtrees_self (t : Rose α) : t ∈ subtrees t := mem_subtrees.2 (Or.inl rfl)

/-- What is below a subtree is below the tree. -/
theorem descendants_of_subtree (hn : n ∈ subtrees t) (hd : d ∈ descendants n) : d ∈ descendants t := by
  induction t with
  | node a cs ih =>
    rcases mem_subtrees.1 hn with rfl | hn
    · exact hd
    · obtain ⟨c, hc, hn⟩ := mem_descendants.1 hn
      exact mem_descendants.2 ⟨c, hc, mem_subtrees.2 (Or.inr (ih c hc hn))⟩

theorem subtrees_trans (hn : n ∈ subtrees t) (hd : d ∈ subtrees n) : d ∈ subtrees t := by
  rcases mem_subtrees.1 hd with rfl | hd
  · exact hn
  · exact mem_subtrees.2 (Or.inr (descendants_of_subtree hn hd))

/-! ## Rewriting -/

theorem transformAll_eq (f : Rose α → Option (Rose α)) (cs : List (Rose α)) :
    transformAll f cs = cs.map (transform f) := by
  induction cs with
  | nil => rfl
  | cons c cs ih => rw [transformAll, ih, List.map_cons]

theorem transform_some (h : f t = some t') : transform f t = t' := by
  rcases t with ⟨a, cs⟩
  rw [transform, h]

theorem transform_none (h : f (node a cs) = none) :
    transform f (node a cs) = node a (cs.map (transform f)) := by
  rw [transform, h, transformAll_eq]

/-- No subtree has the defect. -/
def Free (bad : Rose α → Bool) (t : Rose α) : Prop := ∀ d ∈ subtrees t, bad d = false

theorem free_node {bad : Rose α → Bool} :
    Free bad (node a cs) ↔ bad (node a cs) = false ∧ ∀ c ∈ cs, Free bad c := by
  constructor
  · intro h
    refine ⟨h _ (mem_subtrees_self _), fun c hc d hd => h d ?_⟩
    exact mem_subtrees.2 (Or.inr (mem_descendants.2 ⟨c, hc, hd⟩))
  · rintro ⟨h, hcs⟩ d hd
    rcases mem_subtrees.1 hd with rfl | hd
    · exact h
    · obtain ⟨c, hc, hd⟩ := mem_descendants.1 hd
      exact hcs c hc d hd

/-- **What rewriting leaves behind.** Suppose a rewritten node is free of a defect exactly
when nothing below the old one has it, and that a node that is kept does not get it. Then
the result is free of the defect exactly when no rewritten node has it below: what was
below one is put in place unvisited. -/
theorem transform_free_iff {bad : Rose α → Bool}
    (hsome : ∀ t t', f t = some t' → (Free bad t' ↔ ∀ d ∈ descendants t, bad d = false))
    (hnone : ∀ t, f t = none → bad (transform f t) = false) :
    Free bad (transform f t) ↔
      ∀ n ∈ subtrees t, f n ≠ none → ∀ d ∈ descendants n, bad d = false := by
  induction t with
  | node a cs ih =>
    rcases hf : f (node a cs) with _ | t'
    · -- the root is kept: the children decide
      have hroot := hnone _ hf
      rw [transform_none hf] at hroot ⊢
      rw [free_node, List.forall_mem_map]
      constructor
      · rintro ⟨-, h⟩ n hn hfn
        rcases mem_subtrees.1 hn with rfl | hn
        · exact absurd hf hfn
        · obtain ⟨c, hc, hn⟩ := mem_descendants.1 hn
          exact (ih c hc).1 (h c hc) n hn hfn
      · intro h
        refine ⟨hroot, fun c hc => (ih c hc).2 fun n hn => h n ?_⟩
        exact mem_subtrees.2 (Or.inr (mem_descendants.2 ⟨c, hc, hn⟩))
    · -- the root is rewritten: everything below it is kept as it is
      rw [transform_some hf, hsome _ _ hf]
      constructor
      · intro h n hn _ d hd
        exact h d (descendants_of_subtree hn hd)
      · intro h
        exact h _ (mem_subtrees_self _) (by rw [hf]; exact Option.some_ne_none t')

/-! ## Positions -/

/-- The tree at a position, given by the number of the child to enter at each level. -/
def atPath : List ℕ → Rose α → Option (Rose α)
  | [], t => some t
  | i :: path, node _ cs => cs[i]?.bind (atPath path)

/-- No tree strictly above the position has the property. -/
def outside (p : Rose α → Bool) : List ℕ → Rose α → Bool
  | [], _ => true
  | i :: path, node a cs => !p (node a cs) && cs[i]?.all (outside p path)

variable {p : Rose α → Bool} {path : List ℕ} {i : ℕ}

theorem atPath_cons :
    atPath (i :: path) (node a cs) = some n ↔ ∃ c, cs[i]? = some c ∧ atPath path c = some n := by
  rw [atPath, Option.bind_eq_some_iff]

theorem outside_cons (hc : cs[i]? = some d) :
    outside p (i :: path) (node a cs) = true ↔ p (node a cs) = false ∧ outside p path d = true := by
  rw [outside, hc, Bool.and_eq_true, Bool.not_eq_true', Option.all_some]

theorem mem_subtrees_of_atPath (h : atPath path t = some n) : n ∈ subtrees t := by
  induction path generalizing t with
  | nil =>
    cases h
    exact mem_subtrees_self _
  | cons i path ih =>
    rcases t with ⟨a, cs⟩
    obtain ⟨c, hc, hn⟩ := atPath_cons.1 h
    exact mem_subtrees.2 (Or.inr (mem_descendants.2 ⟨c, List.mem_of_getElem? hc, ih hn⟩))

/-! ## Meanings -/

variable {β : Type*} {g : α → List β → β}

mutual

/-- The value of a tree, computed from the values of its children. -/
def fold (g : α → List β → β) : Rose α → β
  | node a cs => g a (foldAll g cs)

/-- The values of a list of trees. -/
def foldAll (g : α → List β → β) : List (Rose α) → List β
  | [] => []
  | c :: cs => fold g c :: foldAll g cs

end

theorem foldAll_eq (g : α → List β → β) (cs : List (Rose α)) : foldAll g cs = cs.map (fold g) := by
  induction cs with
  | nil => rfl
  | cons c cs ih => rw [foldAll, ih, List.map_cons]

theorem fold_node (g : α → List β → β) (a : α) (cs : List (Rose α)) :
    fold g (node a cs) = g a (cs.map (fold g)) := by
  rw [fold, foldAll_eq]

/-- **Rewriting keeps the meaning** of a tree when it keeps that of every node it rewrites. -/
theorem fold_transform (h : ∀ n ∈ subtrees t, ∀ n', f n = some n' → fold g n' = fold g n) :
    fold g (transform f t) = fold g t := by
  induction t with
  | node a cs ih =>
    rcases hf : f (node a cs) with _ | t'
    · have hcs : ∀ c ∈ cs, fold g (transform f c) = fold g c := fun c hc =>
        ih c hc fun n hn => h n (mem_subtrees.2 (Or.inr (mem_descendants.2 ⟨c, hc, hn⟩)))
      rw [transform_none hf, fold_node, fold_node, List.map_map]
      congr 1
      exact List.map_congr_left hcs
    · rw [transform_some hf]
      exact h _ (mem_subtrees_self _) t' hf

end Rose

end SparkDev.Trees
