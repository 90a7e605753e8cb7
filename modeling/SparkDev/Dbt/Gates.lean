import SparkDev.Dbt.Reconcile

/-!
# The gates of `orders_clean`

The tests of `_quality__models.yml` and the Great Expectations suite check what the
`WHERE` of `orders_clean` has already required, with one rule more: an amount may not
exceed 100000, and the `WHERE` bounds it from below only.

The tests that dbt, dbt_expectations and Great Expectations bring along are a parameter
(`DataTests`) with what their documentation promises (`Documented`).

* `otherGates`: every gate without that bound is always open.
* `clean_gates_iff`: all the gates are open exactly when no raw row with an accepted status and
  a known customer has an amount above 100000.
-/

namespace SparkDev.Dbt

open Sql

/-- The generic tests on a column, each `true` when it passes, and the expectations on a
column of the data frame. -/
structure DataTests where
  unique : List (Option ℤ) → Bool
  notNull : List (Option ℤ) → Bool
  acceptedValues : List String → List (Option String) → Bool
  /-- The column the test refers to, then the column it is on. -/
  relationships : List (Option String) → List (Option String) → Bool
  /-- `dbt_expectations.expect_column_values_to_be_between`. -/
  between : Double → Double → List (Option Double) → Bool
  expectNotBeNull : List (Option ℤ) → Bool
  expectBeUnique : List (Option ℤ) → Bool
  expectBeBetween : Double → Double → List (Option Double) → Bool
  expectBeInSet : List String → List (Option String) → Bool

/-- What the tests promise. All but the null checks skip nulls, and for the data frame a NaN
is a null too. -/
structure DataTests.Documented (T : DataTests) : Prop where
  unique_iff : ∀ col, T.unique col = true ↔ col.reduceOption.Nodup
  notNull_iff : ∀ col, T.notNull col = true ↔ none ∉ col
  acceptedValues_iff : ∀ values col, T.acceptedValues values col = true ↔ ∀ v, some v ∈ col → v ∈ values
  relationships_iff : ∀ parent col, T.relationships parent col = true ↔
    ∀ v, some v ∈ col → some v ∈ parent
  between_iff : ∀ lo hi col, T.between lo hi col = true ↔ ∀ v, some v ∈ col → lo ≤ v ∧ v ≤ hi
  expectNotBeNull_iff : ∀ col, T.expectNotBeNull col = true ↔ none ∉ col
  expectBeUnique_iff : ∀ col, T.expectBeUnique col = true ↔ col.reduceOption.Nodup
  expectBeBetween_iff : ∀ lo hi col, T.expectBeBetween lo hi col = true ↔
    ∀ v, some v ∈ col → v ≠ .nan → lo ≤ v ∧ v ≤ hi
  expectBeInSet_iff : ∀ values col, T.expectBeInSet values col = true ↔ ∀ v, some v ∈ col → v ∈ values

/-- The custom test `non_negative`: the rows it returns, none when it passes. -/
def nonNegative (model : List QualityOrder) : List QualityOrder :=
  model.filter fun s => (compare (fun a b => decide (a < b)) s.amount (some 0)).holds

/-- The values of the two `accepted_values` lists and of `ExpectColumnValuesToBeInSet`. -/
def statusValues : List String := ["completed", "refunded", "pending"]

/-- The structural tests of `stg_orders_quality`. Its `accepted_values` only warns. -/
def stagingTests (T : DataTests) (raw : List QualityOrder) : Bool :=
  T.unique (raw.map QualityOrder.orderId) && T.notNull (raw.map QualityOrder.orderId)

/-- The tests of `orders_clean`, all of ERROR severity. -/
def cleanTests (T : DataTests) (validCustomers : List (Option String)) (clean : List QualityOrder) : Bool :=
  T.unique (clean.map QualityOrder.orderId) && T.notNull (clean.map QualityOrder.orderId) &&
    (nonNegative clean).isEmpty && T.between 0 100000 (clean.map QualityOrder.amount) &&
    T.acceptedValues statusValues (clean.map QualityOrder.status) &&
    T.relationships validCustomers (clean.map QualityOrder.customerId)

/-- The suite `orders_quality` of `validate_table.py`: `result.success`. -/
def ordersQualitySuite (T : DataTests) (pdf : List QualityOrder) : Bool :=
  T.expectNotBeNull (pdf.map QualityOrder.orderId) && T.expectBeUnique (pdf.map QualityOrder.orderId) &&
    T.expectBeBetween 0 100000 (pdf.map QualityOrder.amount) &&
    T.expectBeInSet statusValues (pdf.map QualityOrder.status)

/-- Every gate passes that has no upper bound in it. -/
structure OtherGates (T : DataTests) (validCustomers : List (Option String)) (clean : List QualityOrder) :
    Prop where
  unique : T.unique (clean.map QualityOrder.orderId) = true
  notNull : T.notNull (clean.map QualityOrder.orderId) = true
  nonNegative : nonNegative clean = []
  acceptedValues : T.acceptedValues statusValues (clean.map QualityOrder.status) = true
  relationships : T.relationships validCustomers (clean.map QualityOrder.customerId) = true
  expectNotBeNull : T.expectNotBeNull (clean.map QualityOrder.orderId) = true
  expectBeUnique : T.expectBeUnique (clean.map QualityOrder.orderId) = true
  expectBeInSet : T.expectBeInSet statusValues (clean.map QualityOrder.status) = true

variable {T : DataTests} {validCustomers : List (Option String)} {raw : List QualityOrder}
  {s : QualityOrder}

/-- What a row of `orders_clean` has in each column. -/
theorem clean_row (hs : s ∈ ordersClean validCustomers raw) :
    s ∈ raw ∧ (∃ a, s.amount = some a ∧ 0 < a) ∧ s.status ∈ acceptedStatuses ∧
      s.customerId ∈ validCustomers := by
  obtain ⟨hraw, hw⟩ := mem_ordersClean.1 hs
  unfold cleanWhere at hw
  rw [Truth.and_eq_tt, Truth.and_eq_tt, positiveAmount_eq_tt, isIn_eq_tt, isIn_eq_tt] at hw
  obtain ⟨⟨hamount, -, hstatus⟩, -, hcustomer⟩ := hw
  exact ⟨hraw, hamount, hstatus, hcustomer⟩

theorem mem_clean_of_positive {a : Double} (hraw : s ∈ raw) (ha : s.amount = some a) (hpos : 0 < a)
    (hstatus : s.status ∈ acceptedStatuses) (hc : s.customerId ≠ none)
    (hcustomer : s.customerId ∈ validCustomers) : s ∈ ordersClean validCustomers raw := by
  have hs : s.status ≠ none := by
    intro h
    rw [h] at hstatus
    simp [acceptedStatuses] at hstatus
  rw [mem_ordersClean]
  unfold cleanWhere
  rw [Truth.and_eq_tt, Truth.and_eq_tt, positiveAmount_eq_tt, isIn_eq_tt, isIn_eq_tt]
  exact ⟨hraw, ⟨⟨a, ha, hpos⟩, hs, hstatus⟩, hc, hcustomer⟩

theorem mem_statusValues {v : String} : v ∈ statusValues ↔ some v ∈ acceptedStatuses := by
  simp [statusValues, acceptedStatuses]

/-- The ids of `orders_clean` are some of those of the raw rows. -/
theorem clean_ids_sublist (validCustomers : List (Option String)) (raw : List QualityOrder) :
    ((ordersClean validCustomers raw).map QualityOrder.orderId).Sublist (raw.map QualityOrder.orderId) := by
  unfold ordersClean
  exact List.filter_sublist.map QualityOrder.orderId

theorem nonNegative_clean (validCustomers : List (Option String)) (raw : List QualityOrder) :
    nonNegative (ordersClean validCustomers raw) = [] := by
  unfold nonNegative
  rw [List.filter_eq_nil_iff]
  intro s hs hneg
  obtain ⟨-, ⟨a, ha, hpos⟩, -, -⟩ := clean_row hs
  rw [Truth.holds_iff, compare_eq_tt, ha] at hneg
  simp only [Option.mem_some_iff, decide_eq_true_eq] at hneg
  obtain ⟨_, rfl, _, rfl, hlt⟩ := hneg
  exact absurd hpos hlt.asymm

/-- **Every gate but the range checks is open**, whatever the table. -/
theorem otherGates (hT : T.Documented) (hstg : stagingTests T raw = true) :
    OtherGates T validCustomers (ordersClean validCustomers raw) := by
  -- the clean rows are some of the staging rows, so what was tested there holds of them
  have hids := clean_ids_sublist validCustomers raw
  unfold stagingTests at hstg
  rw [Bool.and_eq_true, hT.unique_iff, hT.notNull_iff] at hstg
  have hunique : ((ordersClean validCustomers raw).map QualityOrder.orderId).reduceOption.Nodup :=
    hstg.1.sublist (hids.filterMap id)
  have hnull : none ∉ (ordersClean validCustomers raw).map QualityOrder.orderId :=
    fun h => hstg.2 (hids.subset h)
  have hstatus : ∀ v, some v ∈ (ordersClean validCustomers raw).map QualityOrder.status →
      v ∈ statusValues := by
    intro v hv
    obtain ⟨s, hs, he⟩ := List.mem_map.1 hv
    rw [mem_statusValues, ← he]
    exact (clean_row hs).2.2.1
  have hcustomer : ∀ v, some v ∈ (ordersClean validCustomers raw).map QualityOrder.customerId →
      some v ∈ validCustomers := by
    intro v hv
    obtain ⟨s, hs, he⟩ := List.mem_map.1 hv
    rw [← he]
    exact (clean_row hs).2.2.2
  exact {
    unique := (hT.unique_iff _).2 hunique
    notNull := (hT.notNull_iff _).2 hnull
    nonNegative := nonNegative_clean validCustomers raw
    acceptedValues := (hT.acceptedValues_iff _ _).2 hstatus
    relationships := (hT.relationships_iff _ _).2 hcustomer
    expectNotBeNull := (hT.expectNotBeNull_iff _).2 hnull
    expectBeUnique := (hT.expectBeUnique_iff _).2 hunique
    expectBeInSet := (hT.expectBeInSet_iff _ _).2 hstatus }

/-- The range checks are open when the upper bound holds; the lower one is implied by the `WHERE`. -/
theorem clean_gates_bounded (hT : T.Documented) (hstg : stagingTests T raw = true) :
    (cleanTests T validCustomers (ordersClean validCustomers raw) = true ∧
        ordersQualitySuite T (ordersClean validCustomers raw) = true) ↔
      ∀ s ∈ ordersClean validCustomers raw, ∀ a, s.amount = some a → a ≤ 100000 := by
  have hother : OtherGates T validCustomers (ordersClean validCustomers raw) := otherGates hT hstg
  unfold cleanTests ordersQualitySuite
  simp only [hother.unique, hother.notNull, hother.nonNegative, hother.acceptedValues, hother.relationships,
    hother.expectNotBeNull, hother.expectBeUnique, hother.expectBeInSet, List.isEmpty_nil, Bool.and_true,
    Bool.true_and]
  rw [hT.between_iff, hT.expectBeBetween_iff]
  constructor
  · rintro ⟨h, -⟩ s hs a ha
    exact (h a (List.mem_map.2 ⟨s, hs, ha⟩)).2
  · intro h
    have hrange : ∀ v, some v ∈ (ordersClean validCustomers raw).map QualityOrder.amount →
        0 ≤ v ∧ v ≤ 100000 := by
      intro v hv
      obtain ⟨s, hs, he⟩ := List.mem_map.1 hv
      obtain ⟨-, ⟨a, ha, hpos⟩, -, -⟩ := clean_row hs
      obtain rfl : v = a := Option.some_injective _ (he.symm.trans ha)
      exact ⟨hpos.le, h s hs v he⟩
    exact ⟨hrange, fun v hv _ => hrange v hv⟩

/-- **The gates of the clean mart.** All but the range checks are always open, and all of them
are exactly when no raw row with an accepted status and a known customer has an amount above
100000. -/
theorem clean_gates_iff (hT : T.Documented) (validCustomers : List (Option String))
    (raw : List QualityOrder) (hstg : stagingTests T raw = true) :
    OtherGates T validCustomers (ordersClean validCustomers raw) ∧
      ((cleanTests T validCustomers (ordersClean validCustomers raw) = true ∧
          ordersQualitySuite T (ordersClean validCustomers raw) = true) ↔
        ∀ s ∈ raw, s.status ∈ acceptedStatuses → s.customerId ≠ none → s.customerId ∈ validCustomers →
          ∀ a, s.amount = some a → a ≤ 100000) := by
  refine ⟨otherGates hT hstg, (clean_gates_bounded hT hstg).trans ⟨fun h => ?_, fun h => ?_⟩⟩
  · intro s hs hstatus hc hcustomer a ha
    by_contra hlarge
    have hpos : 0 < a := lt_trans (by decide) (not_le.1 hlarge)
    exact hlarge (h s (mem_clean_of_positive hs ha hpos hstatus hc hcustomer) a ha)
  · intro s hs a ha
    obtain ⟨hraw, ⟨a', ha', hpos⟩, hstatus, hcustomer⟩ := clean_row hs
    obtain ⟨-, -, hc, -⟩ := known_of_cleanWhere (mem_ordersClean.1 hs).2
    exact h s hraw hstatus hc hcustomer a ha

/-- The tests as queries over the column. -/
def columnTests : DataTests where
  unique col := decide col.reduceOption.Nodup
  notNull col := decide (none ∉ col)
  acceptedValues values col := col.reduceOption.all fun v => decide (v ∈ values)
  relationships parent col := col.reduceOption.all fun v => decide (some v ∈ parent)
  between lo hi col := col.reduceOption.all fun v => decide (lo ≤ v ∧ v ≤ hi)
  expectNotBeNull col := decide (none ∉ col)
  expectBeUnique col := decide col.reduceOption.Nodup
  expectBeBetween lo hi col := col.reduceOption.all fun v => decide (v ≠ .nan → lo ≤ v ∧ v ≤ hi)
  expectBeInSet values col := col.reduceOption.all fun v => decide (v ∈ values)

theorem columnTests_documented : columnTests.Documented := by
  constructor <;> simp [columnTests, List.reduceOption_mem_iff, or_iff_not_imp_left]

/-- The seed's first order. -/
def smallOrder : QualityOrder := ⟨some 2000, some "C001", some 50, some "completed", some 0⟩

/-- An order of a quarter million. -/
def largeOrder : QualityOrder := ⟨some 2006, some "C001", some 250000, some "completed", some 0⟩

/-- A table whose rows stay below the bound. -/
theorem clean_gates_iff_small :
    cleanTests columnTests [some "C001"] (ordersClean [some "C001"] [smallOrder]) = true ∧
      ordersQualitySuite columnTests (ordersClean [some "C001"] [smallOrder]) = true := by
  have hstg : stagingTests columnTests [smallOrder] = true := by decide
  refine (clean_gates_iff columnTests_documented [some "C001"] [smallOrder] hstg).2.2 ?_
  intro s hs _ _ _ a ha
  obtain rfl := List.mem_singleton.1 hs
  obtain rfl : (50 : Double) = a := Option.some_injective _ ha
  decide

/-- **A clean row that fails the range test and the suite.** -/
theorem large_order_fails_gates :
    columnTests.Documented ∧ stagingTests columnTests [largeOrder] = true ∧
      ordersClean [some "C001"] [largeOrder] = [largeOrder] ∧
      cleanTests columnTests [some "C001"] (ordersClean [some "C001"] [largeOrder]) = false ∧
      ordersQualitySuite columnTests (ordersClean [some "C001"] [largeOrder]) = false := by
  refine ⟨columnTests_documented, by decide, by decide, ?_, ?_⟩
  · rw [show ordersClean [some "C001"] [largeOrder] = [largeOrder] from by decide]
    decide
  · rw [show ordersClean [some "C001"] [largeOrder] = [largeOrder] from by decide]
    decide

end SparkDev.Dbt
