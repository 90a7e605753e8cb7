import SparkDev.Sql.Keyed
import SparkDev.Sql.Logic

/-!
# The customers: staging and the dimension

`stg_customers` renames and casts the seed; `dim_customers` adds the region, the rank of the
tier and the tenure segment, each by a `CASE`. Of the generic tests, the ones that read a
column as text or as a number are a parameter (`CustomerTests`).

* `region_accepted`, `tenureSegment_accepted`: two of the `CASE`s have an `ELSE`, so their tests
  always pass.
* `tierRank_eq_none`: the third one has none.
* `dim_gates_iff`: when the tests of staging pass, those of the dimension pass exactly when no
  customer is without a tier.
-/

namespace SparkDev.Dbt

open Sql

/-- A row of the seed `customers`. -/
structure Customer where
  customerId : Option String
  name : Option String
  email : Option String
  phone : Option String
  city : Option String
  state : Option String
  membershipTier : Option String
  joinDate : Option String
  deriving DecidableEq, Repr

/-- A row of `stg_customers`. Dates are day numbers, null where the cast gives none. -/
structure StgCustomersRow where
  customerId : Option String
  fullName : Option String
  email : Option String
  phone : Option String
  city : Option String
  state : Option String
  membershipTier : Option String
  joinedAt : Option ℤ
  tenureDays : Option ℤ
  deriving DecidableEq, Repr

/-- `stg_customers`, given `lower`, the cast of a string to a date, and `current_date()`. -/
def stgCustomers (lower : String → String) (castDate : String → Option ℤ) (currentDate : ℤ)
    (source : List Customer) : List StgCustomersRow :=
  source.map fun c =>
    { customerId := c.customerId
      fullName := c.name
      email := c.email
      phone := c.phone
      city := c.city
      state := c.state
      membershipTier := c.membershipTier.map lower
      joinedAt := c.joinDate.bind castDate
      tenureDays := (c.joinDate.bind castDate).map fun d => currentDate - d }

/-- The states of a region, and its name. -/
def regions : List (List String × String) :=
  [(["CA", "OR", "WA", "AZ", "NV"], "West"), (["TX", "FL", "GA", "NC", "TN", "VA"], "South"),
    (["NY", "PA", "MA", "NJ", "CT"], "Northeast"), (["IL", "OH", "MN", "CO", "MI", "IN"], "Midwest")]

/-- `case when state in (..) then .. else 'Other' end`. -/
def region (state : Option String) : String :=
  match regions.find? fun r => (isIn state (r.1.map some)).holds with
  | some r => r.2
  | none => "Other"

/-- The tiers and their ranks. -/
def tierRanks : List (String × ℤ) := [("platinum", 4), ("gold", 3), ("silver", 2), ("bronze", 1)]

/-- `case membership_tier when .. then .. end`, null for any other tier. -/
def tierRank (tier : Option String) : Option ℤ :=
  (tierRanks.find? fun r => (Sql.eq tier (some r.1)).holds).map Prod.snd

/-- `tenure_days >= n`. -/
def tenureAtLeast (tenureDays : Option ℤ) (n : ℤ) : Bool :=
  (compare (fun a b => decide (a ≥ b)) tenureDays (some n)).holds

/-- `case when tenure_days >= 1825 then .. else 'new' end`. -/
def tenureSegment (tenureDays : Option ℤ) : String :=
  if tenureAtLeast tenureDays 1825 then "veteran"
  else if tenureAtLeast tenureDays 1095 then "loyal"
  else if tenureAtLeast tenureDays 365 then "established"
  else "new"

/-- The columns of `dim_customers`. -/
structure DimCustomer where
  customerId : Option String
  fullName : Option String
  email : Option String
  phone : Option String
  city : Option String
  state : Option String
  region : String
  membershipTier : Option String
  tierRank : Option ℤ
  joinedAt : Option ℤ
  tenureDays : Option ℤ
  tenureSegment : String
  loadedAt : ℤ
  deriving DecidableEq, Repr

/-- A row of `dim_customers`. -/
def dimCustomer (currentDate : ℤ) (c : StgCustomersRow) : DimCustomer where
  customerId := c.customerId
  fullName := c.fullName
  email := c.email
  phone := c.phone
  city := c.city
  state := c.state
  region := region c.state
  membershipTier := c.membershipTier
  tierRank := tierRank c.membershipTier
  joinedAt := c.joinedAt
  tenureDays := c.tenureDays
  tenureSegment := tenureSegment c.tenureDays
  loadedAt := currentDate

/-- `dim_customers`. -/
def dimCustomers (currentDate : ℤ) (customers : List StgCustomersRow) : List DimCustomer :=
  customers.map (dimCustomer currentDate)

/-- The generic tests on a column, each `true` when it passes. -/
structure CustomerTests where
  unique : List (Option String) → Bool
  notNull : List (Option String) → Bool
  notNullInt : List (Option ℤ) → Bool
  acceptedValues : List String → List (Option String) → Bool

/-- What the tests promise. -/
structure CustomerTests.Documented (T : CustomerTests) : Prop where
  unique_iff : ∀ col, T.unique col = true ↔ col.reduceOption.Nodup
  notNull_iff : ∀ col, T.notNull col = true ↔ none ∉ col
  notNullInt_iff : ∀ col, T.notNullInt col = true ↔ none ∉ col
  acceptedValues_iff : ∀ values col, T.acceptedValues values col = true ↔ ∀ v, some v ∈ col → v ∈ values

/-- The tiers that `stg_customers` accepts. -/
def tierValues : List String := ["bronze", "silver", "gold", "platinum"]

/-- The regions that `dim_customers` accepts. -/
def regionValues : List String := ["West", "South", "Northeast", "Midwest", "Other"]

/-- The segments that `dim_customers` accepts. -/
def segmentValues : List String := ["new", "established", "loyal", "veteran"]

/-- The tests of `stg_customers`. -/
def stgCustomersTests (T : CustomerTests) (stg : List StgCustomersRow) : Bool :=
  T.unique (stg.map StgCustomersRow.customerId) && T.notNull (stg.map StgCustomersRow.customerId) &&
    T.notNull (stg.map StgCustomersRow.fullName) && T.unique (stg.map StgCustomersRow.email) &&
    T.notNull (stg.map StgCustomersRow.email) &&
    T.acceptedValues tierValues (stg.map StgCustomersRow.membershipTier) &&
    T.notNullInt (stg.map StgCustomersRow.joinedAt)

/-- The tests of `dim_customers`. -/
def dimCustomersTests (T : CustomerTests) (dim : List DimCustomer) : Bool :=
  T.unique (dim.map DimCustomer.customerId) && T.notNull (dim.map DimCustomer.customerId) &&
    T.notNull (dim.map DimCustomer.fullName) && T.unique (dim.map DimCustomer.email) &&
    T.notNull (dim.map DimCustomer.email) &&
    T.acceptedValues regionValues (dim.map fun d => some d.region) &&
    T.notNull (dim.map DimCustomer.membershipTier) && T.notNullInt (dim.map DimCustomer.tierRank) &&
    T.acceptedValues segmentValues (dim.map fun d => some d.tenureSegment)

variable {T : CustomerTests} {stg : List StgCustomersRow} {tier : Option String}

/-! ## The `CASE`s -/

/-- **Every state has a region.** -/
theorem region_accepted (state : Option String) : region state ∈ regionValues := by
  have hnames : ∀ r ∈ regions, r.2 ∈ regionValues := by decide
  unfold region
  rcases h : regions.find? fun r => (isIn state (r.1.map some)).holds with _ | r
  · rw [h]
    decide
  · rw [h]
    exact hnames r (List.mem_of_find?_eq_some h)

/-- **Every tenure has a segment**, an unknown one too. -/
theorem tenureSegment_accepted (tenureDays : Option ℤ) : tenureSegment tenureDays ∈ segmentValues := by
  unfold tenureSegment
  split
  · decide
  · split
    · decide
    · split
      · decide
      · decide

/-- **A tier without a rank**: none, or one that is not on the list. -/
theorem tierRank_eq_none : tierRank tier = none ↔ ∀ t, tier = some t → t ∉ tierValues := by
  have hmem : ∀ t : String, t ∈ tierValues ↔ ∃ r ∈ tierRanks, t = r.1 := by
    intro t
    simp only [tierValues, tierRanks, List.mem_cons, List.not_mem_nil, or_false, exists_eq_or_imp,
      exists_eq_left]
    tauto
  unfold tierRank
  rw [Option.map_eq_none_iff, List.find?_eq_none]
  constructor
  · intro h t ht hin
    obtain ⟨r, hr, rfl⟩ := (hmem t).1 hin
    have hno := h r hr
    rw [ht] at hno
    simp [Sql.eq, compare_eq_tt] at hno
  · intro h r hr heq
    rw [Truth.holds_iff, Sql.eq, compare_eq_tt] at heq
    obtain ⟨t, ht, b, hb, hab⟩ := heq
    rw [Option.mem_some_iff] at hb
    rw [decide_eq_true_eq] at hab
    exact h t ht ((hmem t).2 ⟨r, hr, by rw [hab, ← hb]⟩)

/-! ## The gates -/

/-- **The gates of the dimension.** When the tests of `stg_customers` pass, the tests of
`dim_customers` pass if and only if every customer has a tier. The staging test on the tier
accepts nulls, and a tier that it accepts has a rank. -/
theorem dim_gates_iff (hT : T.Documented) (currentDate : ℤ) (stg : List StgCustomersRow)
    (hstg : stgCustomersTests T stg = true) :
    dimCustomersTests T (dimCustomers currentDate stg) = true ↔ ∀ c ∈ stg, c.membershipTier ≠ none := by
  unfold stgCustomersTests at hstg
  simp only [Bool.and_eq_true] at hstg
  obtain ⟨⟨⟨⟨⟨⟨hid, hidNull⟩, hname⟩, hemail⟩, hemailNull⟩, htier⟩, -⟩ := hstg
  have hcol : ∀ {α : Type} (f : DimCustomer → α), (dimCustomers currentDate stg).map f =
      stg.map (f ∘ dimCustomer currentDate) := fun f => List.map_map
  -- `region` and `tenure_segment` have an `ELSE`
  have hregion :
      T.acceptedValues regionValues ((dimCustomers currentDate stg).map fun d => some d.region) = true := by
    rw [hT.acceptedValues_iff, hcol]
    intro v hv
    obtain ⟨c, -, hc⟩ := List.mem_map.1 hv
    rw [← Option.some.inj hc]
    exact region_accepted c.state
  have hsegment : T.acceptedValues segmentValues
      ((dimCustomers currentDate stg).map fun d => some d.tenureSegment) = true := by
    rw [hT.acceptedValues_iff, hcol]
    intro v hv
    obtain ⟨c, -, hc⟩ := List.mem_map.1 hv
    rw [← Option.some.inj hc]
    exact tenureSegment_accepted c.tenureDays
  have hid' : (dimCustomers currentDate stg).map DimCustomer.customerId = stg.map StgCustomersRow.customerId :=
    hcol _
  have hname' : (dimCustomers currentDate stg).map DimCustomer.fullName = stg.map StgCustomersRow.fullName :=
    hcol _
  have hemail' : (dimCustomers currentDate stg).map DimCustomer.email = stg.map StgCustomersRow.email :=
    hcol _
  have htier' : (dimCustomers currentDate stg).map DimCustomer.membershipTier =
      stg.map StgCustomersRow.membershipTier := hcol _
  have hrank' : (dimCustomers currentDate stg).map DimCustomer.tierRank =
      stg.map fun c => tierRank c.membershipTier := hcol _
  unfold dimCustomersTests
  rw [hregion, hsegment, hid', hname', hemail', htier', hrank', hid, hidNull, hname, hemail,
    hemailNull]
  simp only [Bool.true_and, Bool.and_true, Bool.and_eq_true]
  rw [hT.notNull_iff, hT.notNullInt_iff]
  rw [hT.acceptedValues_iff] at htier
  -- what is left are `not_null` of the tier and of its rank
  constructor
  · rintro ⟨hnull, -⟩ c hc hno
    exact hnull (List.mem_map.2 ⟨c, hc, hno⟩)
  · intro hall
    refine ⟨fun hnull => ?_, fun hnull => ?_⟩
    · obtain ⟨c, hc, hno⟩ := List.mem_map.1 hnull
      exact hall c hc hno
    · obtain ⟨c, hc, hno⟩ := List.mem_map.1 hnull
      obtain ⟨t, ht⟩ := Option.ne_none_iff_exists'.1 (hall c hc)
      exact tierRank_eq_none.1 hno t ht (htier t (List.mem_map.2 ⟨c, hc, ht⟩))

/-- The tests as queries over the column. -/
def customerColumnTests : CustomerTests where
  unique col := decide col.reduceOption.Nodup
  notNull col := col.all Option.isSome
  notNullInt col := col.all Option.isSome
  acceptedValues values col := col.reduceOption.all fun v => decide (v ∈ values)

theorem customerColumnTests_documented : customerColumnTests.Documented := by
  have hnull : ∀ {α : Type} (col : List (Option α)), col.all Option.isSome = true ↔ none ∉ col := by
    intro α col
    rw [List.all_eq_true]
    constructor
    · intro h hmem
      cases h none hmem
    · intro h v hv
      rcases v with _ | x
      · exact absurd hv h
      · rfl
  refine ⟨fun _ => decide_eq_true_iff, hnull, hnull, fun values col => ?_⟩
  simp [customerColumnTests, List.reduceOption_mem_iff]

/-- The seed's first customer, staged. -/
def alice : StgCustomersRow :=
  ⟨some "C001", some "Alice Johnson", some "alice.johnson@example.com", some "555-0101", some "San Francisco",
    some "CA", some "gold", some 19007, some 1000⟩

/-- A customer with a tier passes, and without one does not. -/
theorem dim_gates_iff_alice : dimCustomersTests customerColumnTests (dimCustomers 20007 [alice]) = true ∧
    dimCustomersTests customerColumnTests (dimCustomers 20007 [{ alice with membershipTier := none }]) ≠ true := by
  constructor
  · refine (dim_gates_iff customerColumnTests_documented 20007 [alice] (by decide)).2 ?_
    intro c hc
    rw [List.mem_singleton.1 hc]
    decide
  · intro h
    exact (dim_gates_iff customerColumnTests_documented 20007 [{ alice with membershipTier := none }]
      (by decide)).1 h _ (List.mem_singleton_self _) rfl

end SparkDev.Dbt
