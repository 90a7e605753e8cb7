import SparkDev.Dbt.Uniqueness

/-!
# Runs without a lookback

With `lookback_hours = 0` a run selects the rows strictly later than the latest row of the
table. Rows that become visible in event-time order may still tie with that row, and a
table without rows has no latest row at all.

* `built_perm_iff`: what one run needs to leave what a full refresh would.
* `refreshed_iff`: after every run the table is the full refresh exactly when every run
  finds each visible row in the table or later than all of it.
* `catches_iff_of_inOrder`: for rows in event-time order, ties and the empty table are all
  that can go wrong.
* `tie_dropped`, `empty_stays_empty`: and each of them does.
-/

namespace SparkDev.Dbt

open Sql Runs

variable {orders : List Order} {b b' : Build} {bs : List Build} {this this' : Option (List Order)}
  {t t' u : List Order} {o : Order}

/-- A run over the orders. -/
def RanOver (orders : List Order) (this : Option (List Order)) (b : Build)
    (this' : Option (List Order)) : Prop :=
  b.orders = orders ∧ Ran this b this'

/-- The rows of the table are orders, each at most once. -/
structure TableOK (orders t : List Order) : Prop where
  unique : UniqueKey Order.orderId t
  subset : ∀ r ∈ t, r ∈ orders

theorem stg_ok (hset : OrderSet orders) (hb : b.orders = orders) : TableOK orders b.stg := by
  subst hb
  exact ⟨hset.stg_unique, fun _ => mem_orders_of_stg⟩

/-- An incremental run keeps that. -/
theorem incremental_ok (hset : OrderSet orders) (hb : b.orders = orders) (ht : TableOK orders t)
    (h : (upsertAll Order.orderId).merge t (newRows b t) = some t') : TableOK orders t' := by
  have hstg := stg_ok hset hb
  have hS := newRows_unique hstg.unique t
  refine ⟨MergeClauses.merge_unique (m := upsertAll Order.orderId) ht.unique hS h, fun r hr => ?_⟩
  rcases (upsertAll_mem hS h).1 hr with hr | ⟨hr, -⟩
  · exact hstg.subset r (mem_newRows.1 hr).1
  · exact ht.subset r hr

theorem built_ok (hset : OrderSet orders) (hb : b.orders = orders) (ht : ∀ t ∈ this, TableOK orders t)
    (h : fctOrders b this = some t') : TableOK orders t' := by
  rcases hinc : isIncremental b this
  · rw [fctOrders_full hinc] at h
    cases h
    exact stg_ok hset hb
  · rcases this with _ | t
    · cases hinc
    · have hf : b.fullRefresh = false := by simpa [isIncremental] using hinc
      rw [fctOrders_incremental hf] at h
      exact incremental_ok hset hb (ht t rfl) h

/-- **Every table built from the orders holds some of them, once each.** -/
theorem reach_tableOK (hset : OrderSet orders) (h : Reach (RanOver orders) none this) :
    ∀ t ∈ this, TableOK orders t := by
  refine reach_invariant (I := fun this => ∀ t ∈ this, TableOK orders t) ?_ (by rintro t ⟨⟩) h
  rintro s b s' hs ⟨hb, ⟨hok⟩ | ⟨-⟩⟩
  · rintro t ⟨⟩
    exact built_ok hset hb hs hok
  · exact hs

/-! ## One run -/

/-- Every row of the table is visible, and a visible row that it does not have is later than
all of them, of which there is one. -/
def Catches (t : List Order) (b : Build) : Prop :=
  (∀ r ∈ t, r ∈ b.stg) ∧ ∀ o ∈ b.stg, o ∉ t →
    ∃ x ∈ o.orderedAt, ∃ m ∈ maxOf (t.map Order.orderedAt), m < x

instance (t : List Order) (b : Build) : Decidable (Catches t b) :=
  inferInstanceAs (Decidable ((∀ r ∈ t, r ∈ b.stg) ∧ ∀ o ∈ b.stg, o ∉ t →
    ∃ x ∈ o.orderedAt, ∃ m ∈ maxOf (t.map Order.orderedAt), m < x))

/-- `Catches` reads the table as a bag. -/
theorem catches_congr (hp : t.Perm u) : Catches t b ↔ Catches u b := by
  have hmax : maxOf (t.map Order.orderedAt) = maxOf (u.map Order.orderedAt) :=
    maxOf_congr fun x => (hp.map Order.orderedAt).mem_iff
  unfold Catches
  simp only [hp.mem_iff, hmax]

theorem mem_newRows_zero (hzero : b.lookbackHours = 0) : o ∈ newRows b t ↔
    o ∈ b.stg ∧ ∃ x ∈ o.orderedAt, ∃ m ∈ maxOf (t.map Order.orderedAt), m < x := by
  rw [mem_newRows, hzero]
  simp only [Nat.cast_zero, zero_mul, sub_zero]

/-- **What one run needs.** On a table of some of the orders an incremental run without lookback
succeeds, and leaves what a full refresh would exactly when it catches every visible row. -/
theorem incremental_perm_iff (hset : OrderSet orders) (hb : b.orders = orders)
    (hinc : b.fullRefresh = false) (hzero : b.lookbackHours = 0) (ht : TableOK orders t) :
    ∃ t', fctOrders b (some t) = some t' ∧ (t'.Perm (fullRefresh b) ↔ Catches t b) := by
  subst hb
  obtain ⟨t', h, hiff⟩ := incremental_perm_stg hset hinc ht.unique ht.subset
  refine ⟨t', h, hiff.trans ?_⟩
  unfold Catches
  -- without a lookback the selected rows are the later ones
  have hsel : ∀ o ∈ b.stg, (o ∈ newRows b t ↔
      ∃ x ∈ o.orderedAt, ∃ m ∈ maxOf (t.map Order.orderedAt), m < x) := by
    intro o ho
    rw [mem_newRows_zero hzero]
    exact and_iff_right ho
  refine and_congr_right fun _ => forall₂_congr fun o ho => ?_
  rw [hsel o ho]

/-- A run, full or incremental. -/
theorem built_perm_iff (hset : OrderSet orders) (hb : b.orders = orders) (hzero : b.lookbackHours = 0)
    (ht : TableOK orders t) : ∃ t', fctOrders b (some t) = some t' ∧ TableOK orders t' ∧
      (t'.Perm (fullRefresh b) ↔ (b.fullRefresh = false → Catches t b)) := by
  have hthis : ∀ u ∈ some t, TableOK orders u := by
    rintro u ⟨⟩
    exact ht
  have hok : ∀ t', fctOrders b (some t) = some t' → TableOK orders t' := fun t' => built_ok hset hb hthis
  rcases hf : b.fullRefresh
  · obtain ⟨t', h, hiff⟩ := incremental_perm_iff hset hb hf hzero ht
    exact ⟨t', h, hok t' h, hiff.trans ⟨fun hc _ => hc, fun hc => hc rfl⟩⟩
  · have h : fctOrders b (some t) = some (fullRefresh b) := fctOrders_full (by simp [isIncremental, hf])
    refine ⟨_, h, hok _ h, iff_of_true (List.Perm.refl _) ?_⟩
    rintro ⟨⟩

/-! ## Every run -/

/-- After every one of the runs the table is what a full refresh would write. -/
def RefreshedAfterAll (t : List Order) (bs : List Build) : Prop :=
  ∀ p b, p ++ [b] <+: bs → ∃ t', buildAll t (p ++ [b]) = some t' ∧ t'.Perm (fullRefresh b)

/-- Every incremental one of the runs catches what is visible, the later ones on the table that
holds what the run before saw. -/
def CatchesAll : List Order → List Build → Prop
  | _, [] => True
  | t, b :: bs => (b.fullRefresh = false → Catches t b) ∧ CatchesAll b.stg bs

theorem catchesAll_congr (hp : t.Perm u) : CatchesAll t bs ↔ CatchesAll u bs := by
  rcases bs with _ | ⟨b, bs⟩
  · exact Iff.rfl
  · rw [CatchesAll, CatchesAll, catches_congr hp]

theorem refreshedAfterAll_cons (h : fctOrders b (some t) = some t') :
    RefreshedAfterAll t (b :: bs) ↔ t'.Perm (fullRefresh b) ∧ RefreshedAfterAll t' bs := by
  have hrun : ∀ p, buildAll t (b :: p) = buildAll t' p := fun p => by rw [buildAll, h, Option.bind_some]
  constructor
  · intro hall
    constructor
    · obtain ⟨u, hu, hp⟩ := hall [] b ⟨bs, rfl⟩
      rw [List.nil_append, hrun] at hu
      cases hu
      exact hp
    · intro p c hpre
      obtain ⟨u, hu, hp⟩ := hall (b :: p) c (List.cons_prefix_cons.2 ⟨rfl, hpre⟩)
      rw [List.cons_append, hrun] at hu
      exact ⟨u, hu, hp⟩
  · rintro ⟨hp, hall⟩ (_ | ⟨a, p⟩) c hpre
    · rw [List.nil_append] at hpre ⊢
      obtain ⟨rfl, -⟩ := List.cons_prefix_cons.1 hpre
      exact ⟨t', (hrun []).trans rfl, hp⟩
    · rw [List.cons_append] at hpre ⊢
      obtain ⟨rfl, htail⟩ := List.cons_prefix_cons.1 hpre
      rw [hrun]
      exact hall p c htail

/-- The runs one after the other, by induction on them: as long as the table is the full refresh,
the next run starts from what the last one saw. -/
theorem refreshed_of_tableOK (hset : OrderSet orders) : ∀ (bs : List Build) (t : List Order),
    (∀ b ∈ bs, b.orders = orders ∧ b.lookbackHours = 0) → TableOK orders t →
    (RefreshedAfterAll t bs ↔ CatchesAll t bs) := by
  intro bs
  induction bs with
  | nil =>
    intro t _ _
    refine iff_of_true (fun p b hpre => ?_) trivial
    exact absurd (List.prefix_nil.1 hpre) (by simp)
  | cons b bs ih =>
    intro t hbs ht
    obtain ⟨⟨hb, hzero⟩, htail⟩ := List.forall_mem_cons.1 hbs
    obtain ⟨t', h, ht', hiff⟩ := built_perm_iff hset hb hzero ht
    rw [refreshedAfterAll_cons h, CatchesAll, ← hiff]
    exact and_congr_right fun hp => (ih t' htail ht').trans (catchesAll_congr hp)

/-- **When a run without lookback equals a full refresh.** On every table that runs over a fixed
set of orders can leave, and for every further sequence of runs without lookback: after each of
them the table is the full refresh exactly when each incremental one finds every visible row in
the table or strictly later than all of it, and every row of the table still visible. -/
theorem refreshed_iff (hset : OrderSet orders) (hreach : Reach (RanOver orders) none (some t))
    (hbs : ∀ b ∈ bs, b.orders = orders ∧ b.lookbackHours = 0) :
    RefreshedAfterAll t bs ↔ CatchesAll t bs :=
  refreshed_of_tableOK hset bs t hbs (reach_tableOK hset hreach t rfl)

/-- The build through 2024-03-03. -/
def onTimeFull : Build := { loadThrough := march3 + 24 * hour, orders := onTime }

theorem refreshed_iff_onTime : RefreshedAfterAll onTimeFull.stg [{ orders := onTime }] :=
  (refreshed_iff (by decide +kernel) (reach_step ⟨rfl, .built (b := onTimeFull) rfl⟩)
    (by simp [onTimeFull])).2
    ⟨fun _ => by decide +kernel, trivial⟩

/-! ## Rows in event-time order -/

/-- No row that `b'` sees and `b` did not is earlier than one that `b` saw. -/
def InOrder (b b' : Build) : Prop :=
  ∀ o ∈ b'.stg, o ∉ b.stg → ∀ x ∈ o.orderedAt, ∀ r ∈ b.stg, ∀ y ∈ r.orderedAt, y ≤ x

instance (b b' : Build) : Decidable (InOrder b b') :=
  inferInstanceAs (Decidable (∀ o ∈ b'.stg, o ∉ b.stg → ∀ x ∈ o.orderedAt, ∀ r ∈ b.stg,
    ∀ y ∈ r.orderedAt, y ≤ x))

/-- **What goes wrong in event-time order**: a newly visible row that ties with the latest one
before it, or one that finds nothing before it. -/
theorem catches_iff_of_inOrder (hset' : OrderSet b'.orders) (hf : Follows b b') (hin : InOrder b b') :
    Catches b.stg b' ↔ ∀ o ∈ b'.stg, o ∉ b.stg →
      ∃ m, maxOf (b.stg.map Order.orderedAt) = some m ∧ o.orderedAt ≠ some m := by
  have hsub : ∀ r ∈ b.stg, r ∈ b'.stg := fun r => hf.stg_subset
  unfold Catches
  constructor
  · rintro ⟨-, hlate⟩ o ho hnew
    obtain ⟨x, hx, m, hm, hlt⟩ := hlate o ho hnew
    refine ⟨m, hm, fun htie => ?_⟩
    rw [hx, Option.some.injEq] at htie
    omega
  · intro h
    refine ⟨hsub, fun o ho hnew => ?_⟩
    obtain ⟨m, hm, hne⟩ := h o ho hnew
    obtain ⟨x, hx⟩ := Option.ne_none_iff_exists'.1 (hset'.orderedAt_ne o (mem_orders_of_stg ho))
    obtain ⟨r, hr, hrm⟩ := List.mem_map.1 (maxOf_eq_some.1 hm).1
    have hle : m ≤ x := hin o ho hnew x hx r hr m hrm
    refine ⟨x, hx, m, hm, lt_of_le_of_ne hle fun he => hne ?_⟩
    rw [hx, he]

/-- **An empty table stays empty** under incremental runs, whatever becomes visible: the maximum
of no rows is `NULL`. -/
theorem empty_stays_empty (hinc : b.fullRefresh = false) : fctOrders b (some []) = some [] := by
  have hnone : newRows b [] = [] := by
    rw [List.eq_nil_iff_forall_not_mem]
    intro o ho
    obtain ⟨-, x, -, m, hm, -⟩ := mem_newRows.1 ho
    cases hm
  rw [fctOrders_incremental hinc, hnone]
  rfl

/-- Two orders of one moment; the second lands an hour after the first. -/
def sameMoment : List Order :=
  [⟨some 1, some "C001", some 20, some "completed", some 0, some 0⟩,
   ⟨some 2, some "C002", some 30, some "completed", some 0, some hour⟩]

/-- The build before the second has landed. -/
def beforeSecond : Build := { loadThrough := 0, orders := sameMoment }

/-- The build after. -/
def afterSecond : Build := { loadThrough := hour, orders := sameMoment }

/-- **A row that ties with the latest one is dropped.** -/
theorem tie_dropped :
    OrderSet sameMoment ∧ Reach (RanOver sameMoment) none (some beforeSecond.stg) ∧
    Follows beforeSecond afterSecond ∧ InOrder beforeSecond afterSecond ∧
    ¬RefreshedAfterAll beforeSecond.stg [afterSecond] := by
  refine ⟨by decide +kernel, reach_step ⟨rfl, .built rfl⟩, by decide, by decide +kernel, fun h => ?_⟩
  obtain ⟨t', hrun, hp⟩ := h [] afterSecond (List.prefix_refl _)
  have hlost : buildAll beforeSecond.stg [afterSecond] = some [sameMoment[0]] := by decide +kernel
  cases hrun.symm.trans hlost
  exact absurd hp.length_eq (by decide +kernel)

end SparkDev.Dbt
