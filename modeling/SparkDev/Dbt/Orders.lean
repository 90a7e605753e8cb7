import SparkDev.Sql.Logic
import SparkDev.Sql.Merge
import Mathlib.Algebra.Order.Ring.Int
import Mathlib.Algebra.Order.Ring.Rat
import Mathlib.Data.List.Chain

/-!
# `stg_orders` and the incremental `fct_orders`

A build of `fct_orders` is either full, and writes every row `stg_orders` shows,
or incremental, and merges by `order_id` the rows whose event time is past
`max(ordered_at) - lookback_hours` of the table. Rows become visible by their
load time, so an order may show up after its event time fell behind that mark.

* `incremental_perm`: one incremental build on a table that holds what was visible
  leaves what is visible now, when nothing newly visible is later than the lookback.
* `fct_orders_eq_full_refresh`: after every build of such a sequence the table is
  the one a full refresh would write.
-/

namespace SparkDev.Dbt

open Sql

/-- A row of `stg_orders`, timestamps in microseconds. `orderedAt` is the event time,
`loadedAt` the time the row landed. -/
structure Order where
  orderId : Option ℤ
  customerId : Option String
  amount : Option ℚ
  status : Option String
  orderedAt : Option ℤ
  loadedAt : Option ℤ
  deriving DecidableEq, Repr

/-- `interval '1' hour`. -/
def hour : ℤ := 3600000000

/-- One `dbt run -s stg_orders fct_orders`: its vars, and the orders loaded by then. -/
structure Build where
  fullRefresh : Bool := false
  /-- The var `load_through`, by default 2099-01-01 00:00:00. -/
  loadThrough : ℤ := 4070908800000000
  lookbackHours : ℕ := 0
  orders : List Order
  deriving DecidableEq

/-- `stg_orders`, on the rows of its `typed` part. -/
def stgOrders (loadThrough : ℤ) (typed : List Order) : List Order :=
  typed.filter fun o => (compare (fun a b => decide (a ≤ b)) o.loadedAt (some loadThrough)).holds

/-- What `stg_orders` shows the build. -/
def Build.stg (b : Build) : List Order := stgOrders b.loadThrough b.orders

/-- `is_incremental()`. -/
def isIncremental (b : Build) (this : Option (List Order)) : Bool := this.isSome && !b.fullRefresh

/-- `(select max(ordered_at) from this) - interval 'lookback_hours' hour`. -/
def watermark (b : Build) (this : List Order) : Option ℤ :=
  (maxOf (this.map Order.orderedAt)).map fun m => m - b.lookbackHours * hour

/-- The rows an incremental build selects. -/
def newRows (b : Build) (this : List Order) : List Order :=
  b.stg.filter fun o => (compare (fun a b => decide (b < a)) o.orderedAt (watermark b this)).holds

/-- A build of `fct_orders` on the table it finds, `none` when its `MERGE` fails. -/
def fctOrders (b : Build) (this : Option (List Order)) : Option (List Order) :=
  match this with
  | some t => if b.fullRefresh then some b.stg else (upsertAll Order.orderId).merge t (newRows b t)
  | none => some b.stg

/-- The table a full refresh would write. -/
def fullRefresh (b : Build) : List Order := b.stg

/-- The table after some more builds, `none` when one of them fails. -/
def buildAll : List Order → List Build → Option (List Order)
  | t, [] => some t
  | t, b :: bs => (fctOrders b (some t)).bind fun t' => buildAll t' bs

variable {b b' : Build} {bs : List Build} {this : Option (List Order)} {t t' orders : List Order} {o : Order}

theorem fctOrders_full (h : isIncremental b this = false) : fctOrders b this = some (fullRefresh b) := by
  rcases this with _ | t
  · rfl
  · have hf : b.fullRefresh = true := by simpa [isIncremental] using h
    simp [fctOrders, fullRefresh, hf]

theorem fctOrders_incremental (h : b.fullRefresh = false) :
    fctOrders b (some t) = (upsertAll Order.orderId).merge t (newRows b t) := by
  simp [fctOrders, h]

theorem mem_stgOrders {loadThrough : ℤ} :
    o ∈ stgOrders loadThrough orders ↔ o ∈ orders ∧ ∃ l ∈ o.loadedAt, l ≤ loadThrough := by
  unfold stgOrders
  rw [List.mem_filter, Truth.holds_iff, compare_eq_tt]
  simp

theorem mem_newRows : o ∈ newRows b t ↔ o ∈ b.stg ∧ ∃ x ∈ o.orderedAt,
    ∃ m ∈ maxOf (t.map Order.orderedAt), m - b.lookbackHours * hour < x := by
  unfold newRows watermark
  rw [List.mem_filter, Truth.holds_iff, compare_eq_tt]
  simp

/-! ## Append-only orders -/

/-- Orders that have an id of their own and both timestamps. -/
structure OrderSet (orders : List Order) : Prop where
  orderId_ne : ∀ o ∈ orders, o.orderId ≠ none
  orderId_unique : UniqueKey Order.orderId orders
  orderedAt_ne : ∀ o ∈ orders, o.orderedAt ≠ none
  loadedAt_ne : ∀ o ∈ orders, o.loadedAt ≠ none

/-- An incremental build after another one: orders were only appended, and no less is
loaded. -/
structure Follows (b b' : Build) : Prop where
  incremental : b'.fullRefresh = false
  append_only : b.orders <+: b'.orders
  loadThrough_le : b.loadThrough ≤ b'.loadThrough

/-- Every order that `b'` sees and `b` did not is less than the lookback of `b'` behind
the latest order `b` saw. -/
def WithinLookback (b b' : Build) : Prop :=
  ∀ o ∈ b'.stg, o ∉ b.stg → ∀ x ∈ o.orderedAt,
    ∀ m ∈ maxOf (b.stg.map Order.orderedAt), m - b'.lookbackHours * hour < x

instance (orders : List Order) : Decidable (OrderSet orders) :=
  decidable_of_iff ((∀ o ∈ orders, o.orderId ≠ none) ∧ UniqueKey Order.orderId orders ∧
      (∀ o ∈ orders, o.orderedAt ≠ none) ∧ ∀ o ∈ orders, o.loadedAt ≠ none)
    ⟨fun ⟨h₁, h₂, h₃, h₄⟩ => ⟨h₁, h₂, h₃, h₄⟩, fun h => ⟨h.1, h.2, h.3, h.4⟩⟩

instance (b b' : Build) : Decidable (Follows b b') :=
  decidable_of_iff (b'.fullRefresh = false ∧ b.orders <+: b'.orders ∧ b.loadThrough ≤ b'.loadThrough)
    ⟨fun ⟨h₁, h₂, h₃⟩ => ⟨h₁, h₂, h₃⟩, fun h => ⟨h.1, h.2, h.3⟩⟩

instance (b b' : Build) : Decidable (WithinLookback b b') :=
  inferInstanceAs (Decidable (∀ o ∈ b'.stg, o ∉ b.stg → ∀ x ∈ o.orderedAt,
    ∀ m ∈ maxOf (b.stg.map Order.orderedAt), m - b'.lookbackHours * hour < x))

theorem OrderSet.stg_unique (h : OrderSet b.orders) : UniqueKey Order.orderId b.stg :=
  h.orderId_unique.filter _

theorem mem_orders_of_stg (h : o ∈ b.stg) : o ∈ b.orders := (mem_stgOrders.1 h).1

/-- What was visible stays visible. -/
theorem Follows.stg_subset (h : Follows b b') (ho : o ∈ b.stg) : o ∈ b'.stg := by
  obtain ⟨hm, l, hl, hle⟩ := mem_stgOrders.1 ho
  exact mem_stgOrders.2 ⟨h.append_only.subset hm, l, hl, hle.trans h.loadThrough_le⟩

/-- The rows of a table that holds some visible order have a latest event time. -/
theorem exists_max (hset : OrderSet b.orders) (hne : b.stg ≠ []) :
    ∃ m, maxOf (b.stg.map Order.orderedAt) = some m := by
  obtain ⟨o, ho⟩ := List.exists_mem_of_ne_nil _ hne
  obtain ⟨x, hx⟩ := Option.ne_none_iff_exists'.1 (hset.orderedAt_ne o (mem_orders_of_stg ho))
  exact exists_maxOf (List.mem_map.2 ⟨o, ho, hx⟩)

/-- Every newly visible order is selected. -/
theorem mem_newRows_of_new (hset : OrderSet b.orders) (hset' : OrderSet b'.orders)
    (hne : b.stg ≠ []) (hlate : WithinLookback b b') (ht : t.Perm b.stg) (ho : o ∈ b'.stg)
    (hnew : o ∉ b.stg) : o ∈ newRows b' t := by
  obtain ⟨x, hx⟩ := Option.ne_none_iff_exists'.1 (hset'.orderedAt_ne o (mem_orders_of_stg ho))
  obtain ⟨m, hm⟩ := exists_max hset hne
  have hmax : maxOf (t.map Order.orderedAt) = some m := by
    rw [← hm]
    exact maxOf_congr fun y => (ht.map Order.orderedAt).mem_iff
  exact mem_newRows.2 ⟨ho, x, hx, m, hmax, hlate o ho hnew x hx m hm⟩

theorem newRows_unique (hstg : UniqueKey Order.orderId b.stg) (t : List Order) :
    UniqueKey Order.orderId (newRows b t) :=
  hstg.filter _

/-- **When an incremental build leaves what is visible**: on a table of some of the orders it
succeeds, and does so exactly when the table has only visible rows and the build selects those it
lacks. -/
theorem incremental_perm_stg (hset : OrderSet b.orders) (hinc : b.fullRefresh = false)
    (htu : UniqueKey Order.orderId t) (ht : ∀ r ∈ t, r ∈ b.orders) :
    ∃ t', fctOrders b (some t) = some t' ∧
      (t'.Perm b.stg ↔ (∀ r ∈ t, r ∈ b.stg) ∧ ∀ o ∈ b.stg, o ∉ t → o ∈ newRows b t) := by
  have hS := newRows_unique hset.stg_unique t
  obtain ⟨t', hm⟩ := MergeClauses.merge_isSome (m := upsertAll Order.orderId) hS t
  refine ⟨t', (fctOrders_incremental hinc).trans hm, ?_⟩
  exact upsertAll_perm_iff hset.orderId_unique hset.orderId_ne hset.stg_unique
    (fun o => mem_orders_of_stg) htu ht hS (fun o ho => (mem_newRows.1 ho).1) hm

/-- **One incremental build.** On a table that holds what the previous build saw, it
succeeds and leaves what it sees itself. -/
theorem incremental_perm (hset : OrderSet b.orders) (hset' : OrderSet b'.orders) (hne : b.stg ≠ [])
    (hf : Follows b b') (hlate : WithinLookback b b') (ht : t.Perm b.stg) :
    ∃ t', fctOrders b' (some t) = some t' ∧ t'.Perm b'.stg := by
  have hsub : ∀ r ∈ t, r ∈ b'.stg := fun r hr => hf.stg_subset (ht.mem_iff.1 hr)
  obtain ⟨t', hm, hiff⟩ := incremental_perm_stg hset' hf.incremental (hset.stg_unique.perm ht.symm)
    fun r hr => mem_orders_of_stg (hsub r hr)
  refine ⟨t', hm, hiff.2 ⟨hsub, fun o ho hnew => ?_⟩⟩
  -- a visible order that the table lacks was not visible before
  exact mem_newRows_of_new hset hset' hne hlate ht ho fun hold => hnew (ht.mem_iff.2 hold)

/-- A sequence of incremental builds, by induction on the builds: the table holds what the
last build saw, which is never nothing. -/
theorem buildAll_perm : ∀ (bs : List Build) (b : Build) (t : List Order),
    (∀ c ∈ b :: bs, OrderSet c.orders) → b.stg ≠ [] → (b :: bs).IsChain Follows →
    (b :: bs).IsChain WithinLookback → t.Perm b.stg →
    ∃ t', buildAll t bs = some t' ∧ t'.Perm (bs.getLast?.getD b).stg := by
  intro bs
  induction bs with
  | nil => intro b t _ _ _ _ ht; exact ⟨t, rfl, ht⟩
  | cons b' bs ih =>
    intro b t hset hne hf hlate ht
    rw [List.isChain_cons_cons] at hf hlate
    have hb := hset b List.mem_cons_self
    have htail : ∀ c ∈ b' :: bs, OrderSet c.orders := fun c hc => hset c (List.mem_cons_of_mem _ hc)
    have hb' := htail b' List.mem_cons_self
    obtain ⟨t₁, hstep, ht₁⟩ := incremental_perm hb hb' hne hf.1 hlate.1 ht
    have hne' : b'.stg ≠ [] := by
      obtain ⟨o, ho⟩ := List.exists_mem_of_ne_nil _ hne
      exact List.ne_nil_of_mem (hf.1.stg_subset ho)
    obtain ⟨t', hrun, ht'⟩ := ih b' t₁ htail hne' hf.2 hlate.2 ht₁
    refine ⟨t', ?_, ?_⟩
    · rw [buildAll, hstep, Option.bind_some, hrun]
    · rw [List.getLast?_cons, Option.getD_some]
      exact ht'

/-- **Incremental equals full refresh under bounded lateness.** After the full build, and
after every incremental build of the sequence, the table holds the rows a full refresh
would write, each order once. -/
theorem fct_orders_eq_full_refresh (hfull : isIncremental b this = false) (hsees : b.stg ≠ [])
    (hset : ∀ c ∈ b :: bs, OrderSet c.orders)
    (hseq : (b :: bs).IsChain Follows) (hlate : (b :: bs).IsChain WithinLookback) :
    ∃ t₀, fctOrders b this = some t₀ ∧ t₀.Perm (fullRefresh b) ∧ UniqueKey Order.orderId t₀ ∧
      ∀ p, p <+: bs → ∃ t, buildAll t₀ p = some t ∧
        t.Perm (fullRefresh (p.getLast?.getD b)) ∧ UniqueKey Order.orderId t := by
  have huniq : ∀ c ∈ b :: bs, ∀ t, t.Perm (fullRefresh c) → UniqueKey Order.orderId t :=
    fun c hc t ht => (hset c hc).stg_unique.perm ht.symm
  refine ⟨fullRefresh b, fctOrders_full hfull, List.Perm.refl _,
    huniq b List.mem_cons_self _ (List.Perm.refl _), fun p hp => ?_⟩
  have hpre : b :: p <+: b :: bs := List.cons_prefix_cons.2 ⟨rfl, hp⟩
  have hseq' : (b :: p).IsChain Follows := List.IsChain.prefix hseq hpre
  have hlate' : (b :: p).IsChain WithinLookback := List.IsChain.prefix hlate hpre
  obtain ⟨t, hrun, ht⟩ := buildAll_perm p b (fullRefresh b) (fun c hc => hset c (hpre.subset hc)) hsees
    hseq' hlate' (List.Perm.refl _)
  refine ⟨t, hrun, ht, huniq _ ?_ t ht⟩
  rcases hl : p.getLast? with _ | c
  · exact List.mem_cons_self
  · exact hpre.subset (List.mem_cons_of_mem _ (List.mem_of_getLast? hl))

/-! ## The late order of the seed -/

/-- 2024-03-03 00:00:00. -/
def march3 : ℤ := 1709424000000000

/-- The last order of 2024-03-03, the one that loads a day late, and the one after it. -/
def seedOrders : List Order :=
  [⟨some 1011, some "C008", some 149.99, some "pending", some (march3 + 19 * hour), some (march3 + 20 * hour)⟩,
   ⟨some 1100, some "C004", some 61, some "completed", some (march3 + 6 * hour), some (march3 + 32 * hour)⟩,
   ⟨some 1101, some "C009", some 205, some "completed", some (march3 + 34 * hour), some (march3 + 35 * hour)⟩]

/-- The full build, through 2024-03-03. -/
def labFull : Build := { fullRefresh := true, loadThrough := march3 + 24 * hour, orders := seedOrders }

/-- A build with a lookback of 48 hours, and one with the default vars. -/
def labBuilds : List Build :=
  [{ loadThrough := march3 + 48 * hour, lookbackHours := 48, orders := seedOrders },
   { orders := seedOrders }]

theorem fct_orders_eq_full_refresh_lab :
    ∃ t₀, fctOrders labFull none = some t₀ ∧ t₀.Perm (fullRefresh labFull) ∧
      UniqueKey Order.orderId t₀ ∧ ∀ p, p <+: labBuilds → ∃ t, buildAll t₀ p = some t ∧
        t.Perm (fullRefresh (p.getLast?.getD labFull)) ∧ UniqueKey Order.orderId t :=
  fct_orders_eq_full_refresh (by decide) (by decide) (by decide) (by decide +kernel)
    (by decide +kernel)

-- without the lookback the late order is never selected
example : buildAll (fullRefresh labFull) [{ orders := seedOrders }] =
    some [seedOrders[0], seedOrders[2]] := by decide +kernel

end SparkDev.Dbt
