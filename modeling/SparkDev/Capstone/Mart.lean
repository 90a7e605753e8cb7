import SparkDev.Capstone.Green
import SparkDev.Dbt.Evolving
import SparkDev.Sql.Grouped
import Mathlib.Tactic.Ring

/-!
# The mart

`transform` runs between `ingest` and `quality`: it groups the mirror by status, with
the number of orders and the rounded sum of their amounts. Nothing checks the mart.

* `transform_orders`, `transform_total`: the mart adds up to the mirror.
* `KnownRows.step`: the rows the source and the log ever hold.
* `mart_caughtUp_iff`: a run that ends green has the mart of its source exactly when its
  read found Debezium caught up.
-/

namespace SparkDev.Capstone

open Sql Runs Cdc
open Dbt (round2)

/-- A row of the mart. -/
structure MartRow where
  status : Option String
  orders : ℕ
  totalAmount : Option ℚ
  deriving DecidableEq, Repr

/-- `sum`: without the nulls, and null where nothing is left. -/
def sumOf (col : List (Option ℚ)) : Option ℚ :=
  if col.reduceOption = [] then none else some col.reduceOption.sum

/-- `transform`. -/
def transform (mirror : List MirrorRow) : List MartRow :=
  groupBy MirrorRow.status
    (fun status rows => ⟨status, rows.length, (sumOf (rows.map MirrorRow.amount)).map round2⟩) mirror

variable {rep : Replica} {onEmpty : Bool} {s t : Pipeline} {l : Act} {tr : List (Act × Pipeline)}
  {T T' : List MirrorRow} {delivered : List Record} {S : List SourceRow} {r : SourceRow} {row : MirrorRow}
  {clock : ℕ → ℤ} {now : ℤ} {i : ℕ}

/-! ## What the mart says of the mirror -/

/-- The mart does not depend on the order of the mirror. -/
theorem transform_perm (h : T.Perm T') : (transform T).Perm (transform T') := by
  refine groupBy_perm (fun status a b hab => ?_) h
  have hcol : (a.map MirrorRow.amount).reduceOption.Perm (b.map MirrorRow.amount).reduceOption :=
    (hab.map _).filterMap id
  have hnil : (a.map MirrorRow.amount).reduceOption = [] ↔ (b.map MirrorRow.amount).reduceOption = [] :=
    ⟨fun ha => List.perm_nil.1 (ha ▸ hcol.symm), fun hb => List.perm_nil.1 (hb ▸ hcol)⟩
  have hsum : sumOf (a.map MirrorRow.amount) = sumOf (b.map MirrorRow.amount) := by
    unfold sumOf
    simp only [hnil, hcol.sum_eq]
  rw [hab.length_eq, hsum]

/-- Each status has one row. -/
theorem transform_status (T : List MirrorRow) :
    (transform T).map MartRow.status = (T.map MirrorRow.status).dedup :=
  groupBy_keys (fun _ _ => rfl) T

/-- **The orders add up** to the rows of the mirror. -/
theorem transform_orders (T : List MirrorRow) : ((transform T).map MartRow.orders).sum = T.length := by
  have hsum : ((transform T).map MartRow.orders).sum = (T.map fun _ => 1).sum :=
    sum_groupBy (fun _ => 1) MartRow.orders fun _ rows _ => by simp
  rw [hsum]
  simp

example : transform ((liveTable (fun _ => 0) 0 3).map SourceRow.mirrored) =
    [⟨some "PAID", 1, some 777⟩, ⟨some "NEW", 11, some 250⟩] := by decide +kernel

/-- The amounts are whole cents. -/
def InCents (T : List MirrorRow) : Prop := ∀ row ∈ T, ∃ z : ℤ, row.amount = some ((z : ℚ) / 100)

theorem round2_cents (z : ℤ) : round2 ((z : ℚ) / 100) = (z : ℚ) / 100 := by
  have hfloor : ∀ z : ℤ, ((z : ℚ) + 1 / 2).floor = z := fun z => by
    rw [add_comm, Rat.floor_add_intCast]
    have hhalf : (1 / 2 : ℚ).floor = 0 := by decide +kernel
    rw [hhalf, zero_add]
  unfold round2
  split
  · rw [div_mul_cancel₀ _ (by norm_num), hfloor]
  · have hneg : -((z : ℚ) / 100) * 100 = ((-z : ℤ) : ℚ) := by
      push_cast
      ring
    rw [hneg, hfloor]
    push_cast
    ring

/-- Cents add up to cents. -/
theorem sum_cents {rows : List MirrorRow} (h : InCents rows) :
    (∃ z : ℤ, (rows.map fun row => row.amount.getD 0).sum = (z : ℚ) / 100) ∧
      (rows.map MirrorRow.amount).reduceOption = rows.map fun row => row.amount.getD 0 := by
  induction rows with
  | nil => exact ⟨⟨0, by simp⟩, rfl⟩
  | cons row rows ih =>
    obtain ⟨⟨z, hz⟩, hrest⟩ := ih fun x hx => h x (List.mem_cons_of_mem row hx)
    obtain ⟨z₀, hz₀⟩ := h row List.mem_cons_self
    refine ⟨⟨z₀ + z, ?_⟩, ?_⟩
    · rw [List.map_cons, List.sum_cons, hz, hz₀, Option.getD_some]
      push_cast
      ring
    · rw [List.map_cons, List.map_cons, hz₀, List.reduceOption_cons_of_some, hrest]
      rfl

/-- **The totals add up** to the amounts of the mirror, when these are whole cents. -/
theorem transform_total (h : InCents T) : ((transform T).map fun m => m.totalAmount.getD 0).sum =
    (T.map fun row => row.amount.getD 0).sum := by
  refine sum_groupBy _ _ fun k rows hrows => ?_
  obtain ⟨⟨z, hz⟩, hcol⟩ := sum_cents fun row hrow => h row (hrows row hrow)
  show ((sumOf (rows.map MirrorRow.amount)).map round2).getD 0 = _
  unfold sumOf
  rw [hcol]
  split
  · rename_i hnil
    rw [hnil]
    rfl
  · rw [hz, Option.map_some, round2_cents, Option.getD_some]

/-- **What two mirrors with the same mart share.** -/
theorem of_transform_perm (hT : InCents T) (hT' : InCents T') (h : (transform T).Perm (transform T')) :
    T.length = T'.length ∧ (T.map fun row => row.amount.getD 0).sum = (T'.map fun row => row.amount.getD 0).sum ∧
      ∀ status, status ∈ T.map MirrorRow.status ↔ status ∈ T'.map MirrorRow.status := by
  refine ⟨?_, ?_, fun status => ?_⟩
  · rw [← transform_orders, ← transform_orders]
    exact (h.map MartRow.orders).sum_eq
  · rw [← transform_total hT, ← transform_total hT']
    exact (h.map fun m => m.totalAmount.getD 0).sum_eq
  · have hmem : ∀ T : List MirrorRow, status ∈ T.map MirrorRow.status ↔
        status ∈ (transform T).map MartRow.status := fun T => by rw [transform_status, List.mem_dedup]
    rw [hmem, hmem]
    exact (h.map MartRow.status).mem_iff

/-! ## The rows there ever are -/

/-- The ids of the rows that are seeded or inserted. -/
def writtenIds : List ℤ := [0, 1, 2, 3, 4, 5, 6, 7, 8, 9, 10, 11, 500]

/-- The last amount of each row. -/
def lastAmount (id : ℤ) : ℚ := if id = 1 then 777 else if id = 500 then 111 / 2 else 10 + (id : ℚ) * (3 / 2)

/-- A row of the mirror as it was written last. -/
def Last (row : MirrorRow) : Prop :=
  ∃ id ∈ writtenIds, row.id = some id ∧ row.amount = some (lastAmount id) ∧
    row.status = some (if id = 1 then "PAID" else "NEW")

/-- A row of the mirror as it was written last, or row 1 as it was seeded. -/
def Known (row : MirrorRow) : Prop :=
  Last row ∨ row.id = some 1 ∧ row.amount = some (23 / 2) ∧ row.status = some "NEW"

theorem known_seed (h : r ∈ seedOrders clock 12) : Known r.mirrored := by
  obtain ⟨i, hi, rfl⟩ := mem_seedOrders.1 h
  by_cases hone : i = 1
  · right
    subst hone
    refine ⟨rfl, congrArg some ?_, rfl⟩
    norm_num
  · left
    have hmem : ∀ i : ℕ, i < 12 → (i : ℤ) ∈ writtenIds := by decide
    have h1 : (i : ℤ) ≠ 1 := by omega
    have h500 : (i : ℤ) ≠ 500 := by omega
    refine ⟨(i : ℤ), hmem i hi, rfl, congrArg some ?_, congrArg some ?_⟩
    · rw [lastAmount, if_neg h1, if_neg h500, Int.cast_natCast]
    · rw [if_neg h1]

theorem known_liveStatement {S : List SourceRow} {op : Dml} (h : liveStatement now S i = some op)
    (hr : op.row = some r) : Known r.mirrored := by
  left
  rcases row_of_liveStatement h hr with ⟨-, rfl⟩ | ⟨hid, hamount, hstatus⟩
  · exact ⟨500, by decide, rfl, rfl, rfl⟩
  · exact ⟨1, by decide, congrArg some hid, congrArg some hamount, congrArg some hstatus⟩

/-- The rows of the source and of the log are known. -/
structure KnownRows (s : Pipeline) : Prop where
  source : ∀ r ∈ s.table, Known r.mirrored
  log : ∀ c ∈ changes (s.topic ++ s.pending), ∀ row, c.landed = some row → Known row

theorem knownRows_start : KnownRows start where
  source := by rintro r ⟨⟩
  log := by rintro c ⟨⟩

/-- A live statement writes known rows. -/
theorem KnownRows.statement (h : KnownRows s) (rep : Replica) (i : ℕ) (lsn now : ℤ) :
    (∀ r ∈ execLive s.table (liveStatement now s.table i), Known r.mirrored) ∧
      ∀ c ∈ changes (eventsLive rep s.table lsn (liveStatement now s.table i)), ∀ row,
        c.landed = some row → Known row := by
  rcases hop : liveStatement now s.table i with _ | op
  · exact ⟨h.source, fun c hc => by cases hc⟩
  refine ⟨fun r hr => ?_, fun c hc row hrow => ?_⟩
  · rcases mem_exec hr with hr | hr
    · exact h.source r hr
    · exact known_liveStatement hop hr
  · by_cases heff : op.Effective s.table
    · obtain ⟨c', hc', -, -, hland⟩ := events_of_effective rep (some lsn) heff
      have hone : changes (eventsLive rep s.table lsn (some op)) = [c'] := hc'
      rw [hone, List.mem_singleton] at hc
      rw [hc, hland] at hrow
      obtain ⟨r, hr, rfl⟩ := Option.map_eq_some_iff.1 hrow
      exact known_liveStatement hop hr
    · have hnil : eventsLive rep s.table lsn (some op) = [] := (events_of_not_effective rep (some lsn) heff).2
      rw [hnil] at hc
      cases hc

/-- **One step** keeps the rows known. -/
theorem KnownRows.step (h : KnownRows s) (hs : Step rep onEmpty s l t) : KnownRows t := by
  cases hs with
  | seed clock _ => exact ⟨fun r hr => known_seed hr, h.log⟩
  | register accepted _ => exact ⟨h.source, h.log⟩
  | waited status _ => exact ⟨h.source, h.log⟩
  | polled i seen _ _ => exact ⟨h.source, h.log⟩
  -- a statement writes rows of its own, and owes events of them
  | statement i lsn now _ _ =>
    obtain ⟨hsource, hevents⟩ := h.statement rep i lsn now
    refine ⟨hsource, fun c hc row hrow => ?_⟩
    simp only at hc
    rw [← List.append_assoc, changes_append] at hc
    rcases List.mem_append.1 hc with hc | hc
    · exact h.log c hc row hrow
    · -- before the snapshot nothing is owed
      split at hc
      · exact hevents c hc row hrow
      · cases hc
  | read delivered T _ _ _ => exact ⟨h.source, h.log⟩
  | quality T _ _ => exact ⟨h.source, h.log⟩
  | raise _ => exact ⟨h.source, h.log⟩
  | snapshot rows _ _ hrows =>
    refine ⟨h.source, fun c hc row hrow => ?_⟩
    simp only at hc
    rw [changes_append, changes_snapshot fun _ => some s.wal] at hc
    rcases List.mem_append.1 hc with hc | hc
    · refine h.log c ?_ row hrow
      rw [changes_append]
      exact List.mem_append_left _ hc
    · obtain ⟨r, hr, rfl⟩ := List.mem_map.1 hc
      cases hrow
      exact h.source r (hrows.mem_iff.1 hr)
  | emit rec rest hpend =>
    refine ⟨h.source, fun c hc row hrow => h.log c ?_ row hrow⟩
    rw [hpend]
    simpa using hc

/-! ## A mart without a row -/

theorem lastAmount_cents (id : ℤ) : ∃ z : ℤ, lastAmount id = (z : ℚ) / 100 := by
  unfold lastAmount
  split
  · exact ⟨77700, by norm_num⟩
  · split
    · exact ⟨5550, by norm_num⟩
    · refine ⟨1000 + 150 * id, ?_⟩
      push_cast
      ring

theorem Known.cents (h : Known row) : ∃ z : ℤ, row.amount = some ((z : ℚ) / 100) := by
  rcases h with ⟨id, -, -, hamount, -⟩ | ⟨-, hamount, -⟩
  · obtain ⟨z, hz⟩ := lastAmount_cents id
    exact ⟨z, by rw [hamount, hz]⟩
  · exact ⟨1150, by rw [hamount]; norm_num⟩

/-- Only row 1 is ever paid. -/
theorem Known.id_of_paid (h : Known row) (hpaid : row.status = some "PAID") : Last row ∧ row.id = some 1 := by
  rcases h with hlast | ⟨-, -, hstatus⟩
  · refine ⟨hlast, ?_⟩
    obtain ⟨id, -, hid, -, hstatus⟩ := hlast
    by_cases hone : id = 1
    · rw [hid, hone]
    · rw [hstatus, if_neg hone] at hpaid
      exact absurd hpaid (by decide)
  · rw [hstatus] at hpaid
    exact absurd hpaid (by decide)

/-- With a paid row all rows are as they were written last: row 1 is the paid one. -/
theorem last_of_paid (hU : UniqueKey MirrorRow.id T) (hknown : ∀ row ∈ T, Known row)
    (hpaid : some "PAID" ∈ T.map MirrorRow.status) : ∀ row ∈ T, Last row := by
  obtain ⟨paid, hmem, hstatus⟩ := List.mem_map.1 hpaid
  obtain ⟨hlast, hid⟩ := (hknown paid hmem).id_of_paid hstatus
  intro row hrow
  rcases hknown row hrow with h | ⟨hid', -, -⟩
  · exact h
  · have heq : row = paid := hU.eq_of_key hrow hmem hid' hid
    rw [heq]
    exact hlast

/-- **All rows but one**: the amounts of twelve rows without the one that is missing. -/
theorem amounts_without (hU : UniqueKey MirrorRow.id T) (hlast : ∀ row ∈ T, Last row) (hlen : T.length = 12)
    {m : ℤ} (hm : m ∈ writtenIds) (hmissing : lookup MirrorRow.id T m = none) :
    lastAmount m + (T.map fun row => row.amount.getD 0).sum = (writtenIds.map lastAmount).sum := by
  have hids : T.filterMap MirrorRow.id = T.map fun row => row.id.getD 0 := by
    rw [← List.filterMap_eq_map]
    refine List.filterMap_congr fun row hrow => ?_
    obtain ⟨id, -, hid, -⟩ := hlast row hrow
    rw [Function.comp_apply, hid, Option.getD_some]
  have hsub : T.filterMap MirrorRow.id ⊆ writtenIds.erase m := by
    intro id hid
    obtain ⟨row, hrow, hkey⟩ := List.mem_filterMap.1 hid
    obtain ⟨id', hmem, hid', -⟩ := hlast row hrow
    obtain rfl : id' = id := Option.some.inj (hid'.symm.trans hkey)
    refine (List.mem_erase_of_ne fun heq => ?_).2 hmem
    exact lookup_eq_none.1 hmissing row hrow (heq ▸ hkey)
  -- twelve rows with ids of the twelve others are these
  have hlength : (writtenIds.erase m).length ≤ (T.filterMap MirrorRow.id).length := by
    rw [hids, List.length_map, hlen, List.length_erase_of_mem hm]
    decide
  have hperm : (T.filterMap MirrorRow.id).Perm (writtenIds.erase m) :=
    (List.subperm_of_subset hU hsub).perm_of_length_le hlength
  have hamounts : (T.map fun row => row.amount.getD 0) = (T.filterMap MirrorRow.id).map lastAmount := by
    rw [hids, List.map_map]
    refine List.map_congr_left fun row hrow => ?_
    obtain ⟨id, -, hid, hamount, -⟩ := hlast row hrow
    rw [hamount, Function.comp_apply, hid]
    rfl
  rw [hamounts, (hperm.map lastAmount).sum_eq]
  exact List.sum_map_erase lastAmount hm

/-- The ids of the source after the live statements. -/
def sourceIds : List ℤ := [0, 1, 3, 4, 5, 6, 7, 8, 9, 10, 11, 500]

theorem liveTable_ids (clock : ℕ → ℤ) (now : ℤ) : (liveTable clock now 3).map SourceRow.id = sourceIds := rfl

theorem lookup_two (clock : ℕ → ℤ) (now : ℤ) :
    lookup MirrorRow.id ((liveTable clock now 3).map SourceRow.mirrored) 2 = none := by
  rw [lookup_eq_none]
  intro row hrow hid
  obtain ⟨r, hr, rfl⟩ := List.mem_map.1 hrow
  have htwo : (2 : ℤ) ∈ sourceIds := by
    rw [← liveTable_ids clock now, ← Option.some.inj hid]
    exact List.mem_map_of_mem hr
  exact absurd htwo (by decide)

theorem paid_source (clock : ℕ → ℤ) (now : ℤ) :
    some "PAID" ∈ ((liveTable clock now 3).map SourceRow.mirrored).map MirrorRow.status := by
  have hone : (((liveTable clock now 3).map SourceRow.mirrored).map MirrorRow.status)[1]? =
      some (some "PAID") := rfl
  exact List.mem_of_getElem? hone

/-- **A mart without a row of the source** is another one. Where as many rows are left, row 2, which should
not be there, has taken the place of a row with another amount. -/
theorem mart_misses (hU : UniqueKey MirrorRow.id T) (hknown : ∀ row ∈ T, Known row)
    (hsource : ∀ r ∈ liveTable clock now 3, Known r.mirrored) (hr : r ∈ liveTable clock now 3)
    (hmissing : lookup MirrorRow.id T r.id = none) :
    ¬ (transform T).Perm (transform ((liveTable clock now 3).map SourceRow.mirrored)) := by
  intro hperm
  set source := (liveTable clock now 3).map SourceRow.mirrored
  have hSU : UniqueKey MirrorRow.id source := (liveTable_unique clock now 3).map fun _ => rfl
  have hSknown : ∀ row ∈ source, Known row := fun row hrow => by
    obtain ⟨x, hx, rfl⟩ := List.mem_map.1 hrow
    exact hsource x hx
  have hSlast := last_of_paid hSU hSknown (paid_source clock now)
  have hSlen : source.length = 12 := rfl
  obtain ⟨hlen, htotal, hstatus⟩ := of_transform_perm (fun row hrow => (hknown row hrow).cents)
    (fun row hrow => (hSknown row hrow).cents) hperm
  have hlast := last_of_paid hU hknown ((hstatus _).2 (paid_source clock now))
  have hmem : r.id ∈ sourceIds := liveTable_ids clock now ▸ List.mem_map_of_mem hr
  have hsub : sourceIds ⊆ writtenIds := by decide
  have hwithout := amounts_without hU hlast (hlen.trans hSlen) (hsub hmem) hmissing
  have hSwithout := amounts_without hSU hSlast hSlen (by decide) (lookup_two clock now)
  rw [htotal] at hwithout
  have hsame : lastAmount r.id = lastAmount 2 := add_right_cancel (hwithout.trans hSwithout.symm)
  have hno : ∀ id ∈ sourceIds, lastAmount id ≠ lastAmount 2 := by decide +kernel
  exact hno r.id hmem hsame

/-! ## Runs that end green -/

/-- A row that the topic does not mention does not reach the mirror. -/
theorem ingest_lookup_none (hw : WellStamped Change.id Change.lsn (changes delivered)) (hT : Ingest delivered T)
    {id : ℤ} (hnew : ∀ c ∈ changes delivered, c.id ≠ some id) : lookup MirrorRow.id T id = none := by
  have hnone : newestChange delivered id = none := by
    rw [newest_eq_none]
    exact hnew
  rw [upsert_lookup unique_nil hw hT, hnone]
  rfl

/-- What the read makes of the topic: the rows of the source, or a mirror without one of them. -/
theorem read_cases (h : PipelineOK s) (hpc : s.pc = .read) (hdel : ∀ rec, rec ∈ delivered ↔ rec ∈ s.topic)
    (hT : Ingest delivered T) : T.Perm (s.table.map SourceRow.mirrored) ∨
      ∃ r ∈ s.table, lookup MirrorRow.id T r.id = none := by
  by_cases hup : CaughtUp s
  · exact Or.inl ((read_faithful_iff h hpc hdel hT).2 hup)
  right
  have hran : s.pc.ran = some 3 := by rw [hpc]; rfl
  have hw := wellStamped_of_subset h.wellStamped_topic fun rec hr => (hdel rec).1 hr
  rcases hs : s.snapshotTaken
  · -- the topic is empty, and the source has row 500
    obtain ⟨clock, now, ht⟩ := h.table 3 hran
    obtain ⟨htopic, -⟩ := h.idle hs
    refine ⟨_, ht ▸ mem_liveTable_three clock now, ingest_lookup_none hw hT fun c hc => ?_⟩
    have hnil := (mem_changes_congr hdel c).1 hc
    rw [htopic] at hnil
    cases hnil
  · -- the last pending record is about a row the topic does not know
    have hpend : s.pending ≠ [] := fun hnil => hup ⟨hs, hnil⟩
    obtain ⟨front, rec, -, r, hr, hnew⟩ := h.last hran hpend
    refine ⟨r, hr, ingest_lookup_none hw hT fun c hc => hnew c ?_⟩
    rw [changes_append]
    exact List.mem_append_left _ ((mem_changes_congr hdel c).1 hc)

/-- The mirror there is to judge, and what it has of the source. -/
structure Judged (s : Pipeline) (T : List MirrorRow) : Prop where
  unique : UniqueKey MirrorRow.id T
  known : ∀ row ∈ T, Known row
  cases : T.Perm (s.table.map SourceRow.mirrored) ∨ ∃ r ∈ s.table, lookup MirrorRow.id T r.id = none

/-- The invariant of a run. -/
structure MartOK (s : Pipeline) : Prop where
  rows : KnownRows s
  judged : AfterRead s → ∃ T, s.mirror = some T ∧ Judged s T

/-- **One step.** Only the read makes a mirror, and nothing changes the source after it. -/
theorem MartOK.step (h : MartOK s) (hok : PipelineOK s) (hs : Step rep onEmpty s l t) : MartOK t := by
  refine ⟨h.rows.step hs, fun ha => ?_⟩
  -- before the read there is nothing to judge
  have hbefore : ∀ p : Pc, t.pc = p → p ≠ .quality → p ≠ .done → ∃ T, t.mirror = some T ∧ Judged t T :=
    fun p hp hq hd => absurd ha (not_afterRead hp hq hd)
  cases hs with
  | seed clock _ => exact hbefore .register rfl (by decide) (by decide)
  | register accepted _ => exact hbefore .wait rfl (by decide) (by decide)
  | waited status _ => exact hbefore (.poll 0) rfl (by decide) (by decide)
  | polled i seen _ _ =>
    obtain ⟨hq, hd⟩ := afterPoll_ne i seen
    exact hbefore _ rfl hq hd
  | statement i lsn now _ _ =>
    obtain ⟨hq, hd⟩ := afterStatement_ne i
    exact hbefore _ rfl hq hd
  | read delivered T hpc hdel hT =>
    have hw := wellStamped_of_subset hok.wellStamped_topic fun rec hr => (hdel rec).1 hr
    have hcases := read_cases hok hpc hdel hT
    refine ⟨T, rfl, upsert_unique unique_nil hT, fun row hrow => ?_, hcases⟩
    obtain ⟨-, c, hc, hland⟩ := landed_of_mem hw hT hrow
    refine h.rows.log c ?_ row hland
    rw [changes_append]
    exact List.mem_append_left _ ((mem_changes_congr hdel c).1 hc)
  | quality T hpc hT =>
    obtain ⟨T', hT', hj⟩ := h.judged (Or.inl hpc)
    exact ⟨T', hT', hj.unique, hj.known, hj.cases⟩
  | raise _ => exact hbefore .raised rfl (by decide) (by decide)
  | snapshot rows _ _ _ =>
    obtain ⟨T', hT', hj⟩ := h.judged ha
    exact ⟨T', hT', hj.unique, hj.known, hj.cases⟩
  | emit rec rest _ =>
    obtain ⟨T', hT', hj⟩ := h.judged ha
    exact ⟨T', hT', hj.unique, hj.known, hj.cases⟩

/-- **Every run that has not raised.** -/
theorem martOK_of_chain (hc : Chain (Step rep onEmpty) start tr) (hraised : (final start tr).pc ≠ .raised) :
    PipelineOK (final start tr) ∧ MartOK (final start tr) := by
  have hstart : MartOK start :=
    ⟨knownRows_start, fun ha => absurd ha (not_afterRead (p := .seed) rfl (by decide) (by decide))⟩
  have hend := chain_invariant (I := fun s : Pipeline => s.pc = .raised ∨ (PipelineOK s ∧ MartOK s))
    (fun s l t h hstep => by
      rcases h with hr | ⟨hok, hmart⟩
      · exact Or.inl (raised_step hr hstep)
      · rcases runOK_step (Or.inr hok) hstep with hr | hok'
        · exact Or.inl hr
        · exact Or.inr ⟨hok', hmart.step hok hstep⟩) tr start (Or.inr ⟨pipelineOK_start, hstart⟩) hc
  exact hend.resolve_left hraised

/-- **What the mart says.** However Debezium's steps fall between the pipeline's, in a run that ends green
the mart of its mirror is the mart of the source if and only if Debezium had taken the snapshot and
passed on every record when the topic was read. The gate passes the others, and the mart tells them. -/
theorem mart_caughtUp_iff (rep : Replica) (onEmpty : Bool) (tr : List (Act × Pipeline))
    (hc : Chain (Step rep onEmpty) start tr) (hg : Green (final start tr)) (T : List MirrorRow)
    (hT : (final start tr).mirror = some T) :
    (transform T).Perm (transform ((final start tr).table.map SourceRow.mirrored)) ↔
      Chain (fun s l _ => ReadCaughtUp s l) start tr := by
  obtain ⟨hok, hmart⟩ := martOK_of_chain hc (by rw [hg.1]; decide)
  obtain ⟨T', hT', hj⟩ := hmart.judged (Or.inr hg.1)
  obtain rfl : T = T' := Option.some.inj (hT.symm.trans hT')
  obtain ⟨clock, now, htable⟩ := hok.table 3 (by rw [hg.1]; rfl)
  have hfaithful : Faithful (final start tr) ↔ Chain (fun s l _ => ReadCaughtUp s l) start tr := by
    rw [run_faithful_iff tr start (Or.inr pipelineOK_start) hc hg]
    exact and_iff_right fun ha => absurd ha (not_afterRead (p := .seed) rfl (by decide) (by decide))
  rw [← hfaithful]
  constructor
  · intro hperm
    rcases hj.cases with h | ⟨r, hr, hmissing⟩
    · exact ⟨T, hT, h⟩
    · have hsource := hmart.rows.source
      rw [htable] at hperm hr hsource
      exact absurd hperm (mart_misses hj.unique hj.known hsource hr hmissing)
  · rintro ⟨T', hT'', hperm⟩
    obtain rfl : T = T' := Option.some.inj (hT.symm.trans hT'')
    exact transform_perm hperm

/-- The run whose read finds everything passed on has the right mart. -/
theorem mart_caughtUp_iff_full :
    ∃ tr T, Chain (Step Replica.keyOnly false) start tr ∧ Green (final start tr) ∧
      (final start tr).mirror = some T ∧
      (transform T).Perm (transform ((final start tr).table.map SourceRow.mirrored)) := by
  obtain ⟨s, hreach, hpc, hsnap, -, -⟩ := reach_shortRead false
  have hfull := hreach.trans (reach_drained Replica.keyOnly false s.pending s rfl)
  have hup : CaughtUp { s with topic := s.topic ++ s.pending, pending := [] } := ⟨hsnap, rfl⟩
  have hok := pipelineOK_of_reach hfull (by rw [hpc]; decide)
  obtain ⟨T, hT⟩ := upsert_exists [] (s.topic ++ s.pending)
  have hne : T ≠ [] := by
    obtain ⟨clock, now, htable⟩ := hok.table 3 (by rw [hpc]; rfl)
    have hp := (read_faithful_iff hok hpc (fun _ => Iff.rfl) hT).2 hup
    intro hnil
    rw [hnil, htable] at hp
    cases hp.length_eq
  obtain ⟨tr, hc, hg, hmirror, -, hcond⟩ := exists_green hfull hpc hT hne
  exact ⟨tr, T, hc, hg, hmirror, (mart_caughtUp_iff Replica.keyOnly false tr hc hg T hmirror).2 (hcond hup)⟩

end SparkDev.Capstone
