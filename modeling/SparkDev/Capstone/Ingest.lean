import SparkDev.Cdc.Mirror
import Mathlib.Tactic.Linarith
import Mathlib.Tactic.NormNum

/-!
# The capstone's CDC branch

`ingest` seeds the source, registers the connector, polls the topic's end offsets at
most twenty times, runs three statements, sleeps, and merges what one bounded read of
the topic returns into a fresh mirror; `quality` then checks the mirror. Debezium
runs beside it: once registered it takes a snapshot of the source and then passes on
the events of later statements, one record at a time and whenever it likes.

* `liveTable`: the source after the seed and each of the live statements.
* `runOK_step`: every step of the two keeps `PipelineOK` until something raises. The log
  captures the source, and while a record is pending some row of the source is unknown to
  the topic.
-/

namespace SparkDev.Capstone

open Sql Runs Cdc

/-! ## The source -/

/-- The three live statements on the table they find, `none` for one that matches no row. -/
def liveStatement (now : ℤ) (T : List SourceRow) : ℕ → Option Dml
  | 0 => (lookup SourceRow.key T 1).map fun r => .update { r with status := "PAID", amount := 777 }
  | 1 => some (.delete 2)
  | _ => some (.insert ⟨500, "capstone", 111 / 2, "NEW", now⟩)

/-- The table after a statement. -/
def execLive (T : List SourceRow) : Option Dml → List SourceRow
  | none => T
  | some op => op.exec T

/-- The events of a statement. -/
def eventsLive (rep : Replica) (T : List SourceRow) (lsn : ℤ) : Option Dml → List Record
  | none => []
  | some op => rep.events T (some lsn) op

/-! ## The quality gate -/

/-- `ExpectColumnValuesToBeBetween(amount, 0, 1_000_000)`, which skips nulls. -/
def amountOK (r : MirrorRow) : Bool := r.amount.all fun a => decide (0 ≤ a ∧ a ≤ 1000000)

/-- `ExpectColumnValuesToBeInSet(status, …)`, which skips nulls. -/
def statusOK (r : MirrorRow) : Bool :=
  r.status.all fun s => decide (s ∈ ["NEW", "PAID", "completed", "refunded", "pending"])

/-- The exit code of `quality`; `onEmpty` is what the suite says of an empty mirror. -/
def qualityExit (onEmpty : Bool) (T : List MirrorRow) : ℤ :=
  if T = [] then if onEmpty then 0 else 1
  else if (T.all fun r => r.id.isSome) && decide (UniqueKey MirrorRow.id T) && T.all amountOK && T.all statusOK
  then 0 else 1

/-! ## The pipeline and Debezium -/

/-- Where the pipeline is. -/
inductive Pc where
  | seed
  | register
  | wait
  | poll (i : ℕ)
  | statement (i : ℕ)
  | read
  | quality
  | done
  | raised
  deriving DecidableEq, Repr

/-- The pipeline, the source, Debezium and the topic. -/
structure Pipeline where
  pc : Pc
  table : List SourceRow
  /-- The position of the source's log. -/
  wal : ℤ
  registered : Bool
  snapshotTaken : Bool
  /-- The records Debezium has yet to pass on. -/
  pending : List Record
  topic : List Record
  mirror : Option (List MirrorRow)
  exit : Option ℤ

/-- After `teardown`: no connector, no topic. -/
def start : Pipeline := ⟨.seed, [], 0, false, false, [], [], none, none⟩

/-- A step of the pipeline or of Debezium, with what the environment contributes. -/
inductive Act where
  | seed (clock : ℕ → ℤ)
  | register (accepted : Bool)
  | waited (status : String)
  /-- One offset poll; `none` when it raised. -/
  | polled (seen : Option ℕ)
  | statement (lsn now : ℤ)
  | read (delivered : List Record)
  | quality
  | raise
  | snapshot (rows : List SourceRow)
  | emit

/-- Where poll `i` leads. -/
def afterPoll (i : ℕ) (seen : Option ℕ) : Pc :=
  -- a poll that raised counts as `{}`; after the last one the loop falls through
  if 12 ≤ seen.getD 0 then .statement 0 else if i + 1 < 20 then .poll (i + 1) else .statement 0

/-- Where statement `i` leads. -/
def afterStatement (i : ℕ) : Pc := if i < 2 then .statement (i + 1) else .read

variable (rep : Replica) (onEmpty : Bool)

/-- The steps. The last two are Debezium's; every other one is the pipeline's. -/
inductive Step : Pipeline → Act → Pipeline → Prop
  | seed {s : Pipeline} (clock : ℕ → ℤ) (h : s.pc = .seed) :
    Step s (.seed clock) { s with pc := .register, table := seedOrders clock 12 }
  | register {s : Pipeline} (accepted : Bool) (h : s.pc = .register) :
    Step s (.register accepted) { s with pc := .wait, registered := accepted }
  | waited {s : Pipeline} (status : String) (h : s.pc = .wait) :
    Step s (.waited status) { s with pc := .poll 0 }
  | polled {s : Pipeline} (i : ℕ) (seen : Option ℕ) (h : s.pc = .poll i)
    (hseen : ∀ n ∈ seen, n = s.topic.length) : Step s (.polled seen) { s with pc := afterPoll i seen }
  | statement {s : Pipeline} (i : ℕ) (lsn now : ℤ) (h : s.pc = .statement i) (hlsn : s.wal < lsn) :
    Step s (.statement lsn now) { s with
      pc := afterStatement i
      table := execLive s.table (liveStatement now s.table i)
      wal := lsn
      -- before its snapshot Debezium owes no event: the snapshot will read the changed table
      pending := s.pending ++
        if s.snapshotTaken then eventsLive rep s.table lsn (liveStatement now s.table i) else [] }
  -- from the earliest offset to the end of the topic, in any order, copies included
  | read {s : Pipeline} (delivered : List Record) (T : List MirrorRow) (h : s.pc = .read)
    (hdel : ∀ rec, rec ∈ delivered ↔ rec ∈ s.topic) (hT : Ingest delivered T) :
    Step s (.read delivered) { s with pc := .quality, mirror := some T }
  | quality {s : Pipeline} (T : List MirrorRow) (h : s.pc = .quality) (hT : s.mirror = some T) :
    Step s .quality { s with pc := .done, exit := some (qualityExit onEmpty T) }
  | raise {s : Pipeline} (h : s.pc ≠ .done) : Step s .raise { s with pc := .raised }
  | snapshot {s : Pipeline} (rows : List SourceRow) (h : s.registered = true)
    (hfirst : s.snapshotTaken = false) (hrows : rows.Perm s.table) :
    Step s (.snapshot rows) { s with
      snapshotTaken := true, pending := rows.map (snapshotEvent (some s.wal)) }
  | emit {s : Pipeline} (rec : Record) (rest : List Record) (h : s.pending = rec :: rest) :
    Step s .emit { s with topic := s.topic ++ [rec], pending := rest }

/-- Debezium has taken the snapshot and passed on every record. -/
def CaughtUp (s : Pipeline) : Prop := s.snapshotTaken = true ∧ s.pending = []

/-- `ingest` returned and `quality` exited with 0. -/
def Green (s : Pipeline) : Prop := s.pc = .done ∧ s.exit = some 0

/-- The mirror holds exactly the rows of the source. -/
def Faithful (s : Pipeline) : Prop :=
  ∃ T, s.mirror = some T ∧ T.Perm (s.table.map SourceRow.mirrored)

variable {rep onEmpty} {s s' t : Pipeline} {l : Act} {tr : List (Act × Pipeline)} {T : List MirrorRow}
  {clock : ℕ → ℤ} {now : ℤ} {r : SourceRow} {i : ℕ}

/-! ## The source as the pipeline changes it -/

/-- The source after the seed and the first `i` live statements. -/
def liveTable (clock : ℕ → ℤ) (now : ℤ) : ℕ → List SourceRow
  | 0 => seedOrders clock 12
  | i + 1 => execLive (liveTable clock now i) (liveStatement now (liveTable clock now i) i)

/-- A row the gate passes. -/
def Passes (r : MirrorRow) : Prop := amountOK r = true ∧ statusOK r = true

theorem execLive_unique {T : List SourceRow} (hT : UniqueKey SourceRow.key T) (op : Option Dml) :
    UniqueKey SourceRow.key (execLive T op) := by
  rcases op with _ | op
  · exact hT
  · exact exec_unique hT op

theorem liveTable_unique (clock : ℕ → ℤ) (now : ℤ) : ∀ i, UniqueKey SourceRow.key (liveTable clock now i) := by
  intro i
  induction i with
  | zero => exact seedOrders_unique clock 12
  | succ i ih => exact execLive_unique ih _

/-- The first two statements do not depend on the time of the insert. -/
theorem liveTable_now (now' : ℤ) : ∀ i ≤ 2, liveTable clock now i = liveTable clock now' i
  | 0, _ => rfl
  | 1, _ => rfl
  | 2, _ => rfl

/-- The rows the live statements write: row 1 as it was but for amount and status, row 500. -/
theorem row_of_liveStatement {T : List SourceRow} {op : Dml} (h : liveStatement now T i = some op)
    (hr : op.row = some r) :
    (2 ≤ i ∧ r = ⟨500, "capstone", 111 / 2, "NEW", now⟩) ∨
      (r.id = 1 ∧ r.amount = 777 ∧ r.status = "PAID") := by
  match i with
  | 0 =>
    obtain ⟨x, hx, rfl⟩ := Option.map_eq_some_iff.1 h
    cases hr
    have hkey : x.key = some 1 := lookup_key hx
    exact Or.inr ⟨Option.some.inj hkey, rfl, rfl⟩
  | 1 =>
    cases h
    cases hr
  | i + 2 =>
    cases h
    cases hr
    exact Or.inl ⟨by omega, rfl⟩

theorem passes_of_fields (h0 : 0 ≤ r.amount) (h1 : r.amount ≤ 1000000)
    (hs : r.status = "NEW" ∨ r.status = "PAID") : Passes r.mirrored := by
  refine ⟨decide_eq_true ⟨h0, h1⟩, ?_⟩
  change decide (r.status ∈ ["NEW", "PAID", "completed", "refunded", "pending"]) = true
  rcases hs with hs | hs <;> rw [hs] <;> decide

theorem passes_of_liveStatement {T : List SourceRow} {op : Dml} (h : liveStatement now T i = some op)
    (hr : op.row = some r) : Passes r.mirrored := by
  rcases row_of_liveStatement h hr with ⟨-, rfl⟩ | ⟨-, ha, hs⟩
  · exact passes_of_fields (by norm_num) (by norm_num) (Or.inl rfl)
  · exact passes_of_fields (by rw [ha]; norm_num) (by rw [ha]; norm_num) (Or.inr hs)

theorem passes_seed (h : r ∈ seedOrders clock 12) : Passes r.mirrored := by
  obtain ⟨i, hi, rfl⟩ := mem_seedOrders.1 h
  have h0 : (0 : ℚ) ≤ i := Nat.cast_nonneg i
  have h12 : (i : ℚ) ≤ 12 := by exact_mod_cast hi.le
  exact passes_of_fields (by simp only; linarith) (by simp only; linarith) (Or.inl rfl)

/-- Every row the source ever holds passes the gate. -/
theorem passes_liveTable : ∀ i, r ∈ liveTable clock now i → Passes r.mirrored := by
  intro i
  induction i with
  | zero => exact passes_seed
  | succ i ih =>
    intro h
    unfold liveTable execLive at h
    split at h
    · exact ih h
    · rename_i op hop
      rcases mem_exec h with h | h
      · exact ih h
      · exact passes_of_liveStatement hop h

/-- Row 500 comes with the third statement. -/
theorem id_ne_of_early : ∀ i ≤ 2, r ∈ liveTable clock now i → r.id ≠ 500 := by
  intro i
  induction i with
  | zero =>
    intro _ h
    obtain ⟨j, hj, rfl⟩ := mem_seedOrders.1 h
    simp only
    omega
  | succ i ih =>
    intro hi h
    unfold liveTable execLive at h
    split at h
    · exact ih (by omega) h
    · rename_i op hop
      rcases mem_exec h with h | h
      · exact ih (by omega) h
      · rcases row_of_liveStatement hop h with ⟨hi', -⟩ | ⟨h1, -, -⟩
        · omega
        · omega

theorem mem_liveTable_three (clock : ℕ → ℤ) (now : ℤ) :
    (⟨500, "capstone", 111 / 2, "NEW", now⟩ : SourceRow) ∈ liveTable clock now 3 := by
  have hnone : lookup SourceRow.key (liveTable clock now 2) 500 = none := by
    rw [lookup_eq_none]
    intro r hr hk
    exact id_ne_of_early 2 le_rfl hr (Option.some.inj hk)
  have h3 : liveTable clock now 3 = (Dml.insert ⟨500, "capstone", 111 / 2, "NEW", now⟩).exec
      (liveTable clock now 2) := rfl
  rw [h3]
  simp only [Dml.exec]
  rw [if_pos hnone]
  simp

/-! ## What every step keeps -/

/-- How many live statements have run, where the pipeline has a source. -/
def Pc.ran : Pc → Option ℕ
  | .seed | .raised => none
  | .register | .wait | .poll _ => some 0
  | .statement i => some i
  | .read | .quality | .done => some 3

/-- The last pending record is about a row of the source that no record before it mentions. -/
def LastNeeded (s : Pipeline) : Prop :=
  ∃ front rec, s.pending = front ++ [rec] ∧ ∃ r ∈ s.table, ∀ c ∈ changes (s.topic ++ front), c.id ≠ r.key

/-- The state of the two while nothing has raised. -/
structure PipelineOK (s : Pipeline) : Prop where
  unregistered : s.pc = .seed ∨ s.pc = .register → s.registered = false
  quiet : s.registered = false → s.snapshotTaken = false
  idle : s.snapshotTaken = false → s.topic = [] ∧ s.pending = []
  stmt : ∀ i, s.pc = .statement i → i ≤ 2
  table : ∀ i, s.pc.ran = some i → ∃ clock now, s.table = liveTable clock now i
  captured : s.snapshotTaken = true → Captured s.table (s.topic ++ s.pending)
  lsn : LsnIncreasing (s.topic ++ s.pending)
  lsn_le : ∀ c ∈ changes (s.topic ++ s.pending), ∀ x ∈ c.lsn, x ≤ s.wal
  early : ∀ i ≤ 2, s.pc.ran = some i → ∀ c ∈ changes (s.topic ++ s.pending), c.id ≠ some 500
  last : s.pc.ran = some 3 → s.pending ≠ [] → LastNeeded s
  passes : ∀ c ∈ changes (s.topic ++ s.pending), ∀ row, c.landed = some row → Passes row

/-- Nothing has raised and all is well, or something has raised. -/
def RunOK (s : Pipeline) : Prop := s.pc = .raised ∨ PipelineOK s

theorem pipelineOK_start : PipelineOK start where
  unregistered _ := rfl
  quiet _ := rfl
  idle _ := ⟨rfl, rfl⟩
  stmt i h := by cases h
  table i h := by cases h
  captured h := by cases h
  lsn := lsnIncreasing_nil
  lsn_le c hc := by cases hc
  early i _ h := by cases h
  last h := by cases h
  passes c hc := by cases hc

/-- A step of the pipeline that touches neither the source nor the log. -/
theorem PipelineOK.move (h : PipelineOK s) {pc : Pc} {mirror : Option (List MirrorRow)}
    {exit : Option ℤ} (hran : pc.ran = s.pc.ran) (hpc : pc ≠ .seed) (hreg : pc ≠ .register)
    (hstmt : ∀ i, pc = .statement i → i ≤ 2) :
    PipelineOK { s with pc := pc, mirror := mirror, exit := exit } where
  unregistered hp := by
    rcases hp with hp | hp
    · exact absurd hp hpc
    · exact absurd hp hreg
  quiet := h.quiet
  idle := h.idle
  stmt := hstmt
  table i hi := h.table i (hran.symm.trans hi)
  captured := h.captured
  lsn := h.lsn
  lsn_le := h.lsn_le
  early i hi hr := h.early i hi (hran.symm.trans hr)
  last hr := h.last (hran.symm.trans hr)
  passes := h.passes

theorem afterPoll_ran (i : ℕ) (seen : Option ℕ) :
    (afterPoll i seen).ran = some 0 ∧ afterPoll i seen ≠ .seed ∧ afterPoll i seen ≠ .register ∧
      ∀ j, afterPoll i seen = .statement j → j ≤ 2 := by
  unfold afterPoll
  split
  · exact ⟨rfl, by decide, by decide, fun j h => by cases h; omega⟩
  · split
    · exact ⟨rfl, Pc.noConfusion, Pc.noConfusion, fun j h => by cases h⟩
    · exact ⟨rfl, by decide, by decide, fun j h => by cases h; omega⟩

theorem PipelineOK.seed (h : PipelineOK s) (hpc : s.pc = .seed) :
    PipelineOK { s with pc := .register, table := seedOrders clock 12 } := by
  have hreg := h.unregistered (Or.inl hpc)
  have hsnap := h.quiet hreg
  obtain ⟨htopic, hpend⟩ := h.idle hsnap
  have hnil : changes (s.topic ++ s.pending) = [] := by rw [htopic, hpend]; rfl
  exact
    { unregistered := fun _ => hreg
      quiet := h.quiet
      idle := h.idle
      stmt := fun i hi => by cases hi
      table := fun i hi => ⟨clock, 0, by cases hi; rfl⟩
      captured := fun hs => by rw [hsnap] at hs; cases hs
      lsn := h.lsn
      lsn_le := h.lsn_le
      early := fun i _ _ c hc => by rw [hnil] at hc; cases hc
      last := fun hr => by cases hr
      passes := h.passes }

theorem PipelineOK.register (h : PipelineOK s) (hpc : s.pc = .register) (accepted : Bool) :
    PipelineOK { s with pc := .wait, registered := accepted } := by
  have hsnap := h.quiet (h.unregistered (Or.inr hpc))
  have hran : s.pc.ran = some 0 := by rw [hpc]; rfl
  exact
    { unregistered := fun hp => by rcases hp with hp | hp <;> cases hp
      quiet := fun _ => hsnap
      idle := h.idle
      stmt := fun i hi => by cases hi
      table := fun i hi => h.table i (hran.trans hi)
      captured := h.captured
      lsn := h.lsn
      lsn_le := h.lsn_le
      early := fun i hi hr => h.early i hi (hran.trans hr)
      last := fun hr => by cases hr
      passes := h.passes }

/-- Debezium passes on one record. -/
theorem PipelineOK.emit {rec : Record} {rest : List Record} (h : PipelineOK s)
    (hpend : s.pending = rec :: rest) :
    PipelineOK { s with topic := s.topic ++ [rec], pending := rest } := by
  have hlog : (s.topic ++ [rec]) ++ rest = s.topic ++ s.pending := by
    rw [hpend, List.append_assoc]; rfl
  have hsnap : s.snapshotTaken ≠ false := by
    intro hs
    rw [(h.idle hs).2] at hpend
    cases hpend
  refine
    { unregistered := h.unregistered
      quiet := h.quiet
      idle := fun hs => absurd hs hsnap
      stmt := h.stmt
      table := h.table
      captured := fun hs => by simp only [hlog]; exact h.captured hs
      lsn := by simp only [hlog]; exact h.lsn
      lsn_le := by simp only [hlog]; exact h.lsn_le
      early := by simp only [hlog]; exact h.early
      last := fun hr hne => ?_
      passes := by simp only [hlog]; exact h.passes }
  obtain ⟨front, x, hfront, r, hmem, hnew⟩ := h.last hr (by rw [hpend]; exact List.cons_ne_nil _ _)
  -- the record passed on is not the last one, so it is the head of `front`
  rcases front with _ | ⟨y, front⟩
  · rw [hpend, List.nil_append] at hfront
    cases hfront
    exact absurd rfl hne
  · rw [hpend, List.cons_append] at hfront
    cases hfront
    refine ⟨front, x, rfl, r, hmem, fun c hc => hnew c ?_⟩
    simpa using hc

/-- The source is one of the pipeline's tables once the connector is registered. -/
theorem PipelineOK.exists_ran (h : PipelineOK s) (hreg : s.registered = true) (hraised : s.pc ≠ .raised) :
    ∃ i, s.pc.ran = some i := by
  have hearly : ¬(s.pc = .seed ∨ s.pc = .register) := fun hp => by
    rw [h.unregistered hp] at hreg
    cases hreg
  rcases hpc : s.pc with _ | _ | _ | i | i | _ | _ | _ | _
  · exact absurd (Or.inl hpc) hearly
  · exact absurd (Or.inr hpc) hearly
  · exact ⟨0, rfl⟩
  · exact ⟨0, rfl⟩
  · exact ⟨i, rfl⟩
  · exact ⟨3, rfl⟩
  · exact ⟨3, rfl⟩
  · exact ⟨3, rfl⟩
  · exact absurd hpc hraised

/-- The snapshot of a keyed table at one position of the source's log. -/
theorem lsnIncreasing_snapshot {rows : List SourceRow} (hU : UniqueKey SourceRow.key rows) (l : ℤ) :
    LsnIncreasing (rows.map (snapshotEvent (some l))) := by
  unfold LsnIncreasing
  rw [changes_snapshot fun _ => some l]
  refine ⟨fun c hc => ?_, ?_⟩
  · obtain ⟨r, -, rfl⟩ := List.mem_map.1 hc
    exact Option.some_ne_none l
  · rw [List.pairwise_map]
    refine (unique_iff_pairwise.1 hU).imp fun {a b} hab hk => ?_
    exact absurd hk.symm (hab a.id rfl)

/-- The last row of a snapshot is not in the events before its own. -/
theorem snapshot_last {rows : List SourceRow} (hU : UniqueKey SourceRow.key rows) (l : ℤ) (hne : rows ≠ []) :
    ∃ front r, rows = front ++ [r] ∧
      ∀ c ∈ changes (front.map (snapshotEvent (some l))), c.id ≠ r.key := by
  rcases List.eq_nil_or_concat rows with hnil | ⟨front, r, hcat⟩
  · exact absurd hnil hne
  have hrows : rows = front ++ [r] := by rw [hcat, List.concat_eq_append]
  refine ⟨front, r, hrows, fun c hc hk => ?_⟩
  rw [changes_snapshot fun _ => some l] at hc
  obtain ⟨r', hr', rfl⟩ := List.mem_map.1 hc
  rw [hrows, unique_iff_pairwise, List.pairwise_append] at hU
  exact hU.2.2 r' hr' r (by simp) r.id hk rfl

/-- Debezium takes the snapshot. -/
theorem PipelineOK.snapshot {rows : List SourceRow} (h : PipelineOK s) (hreg : s.registered = true)
    (hraised : s.pc ≠ .raised) (hfirst : s.snapshotTaken = false) (hrows : rows.Perm s.table) :
    PipelineOK { s with
      snapshotTaken := true, pending := rows.map (snapshotEvent (some s.wal)) } := by
  obtain ⟨htopic, -⟩ := h.idle hfirst
  obtain ⟨i₀, hran⟩ := h.exists_ran hreg hraised
  obtain ⟨clock, now, htable⟩ := h.table i₀ hran
  have hU : UniqueKey SourceRow.key rows := by
    refine UniqueKey.perm ?_ hrows.symm
    rw [htable]
    exact liveTable_unique clock now i₀
  have hlsn := lsnIncreasing_snapshot hU s.wal
  -- nothing was on the topic, so the snapshot is the whole log
  have hlog : s.topic ++ rows.map (snapshotEvent (some s.wal)) = rows.map (snapshotEvent (some s.wal)) := by
    rw [htopic, List.nil_append]
  have hchanges : ∀ c ∈ changes (rows.map (snapshotEvent (some s.wal))),
      ∃ r ∈ s.table, c = snapshotChange (some s.wal) r := by
    intro c hc
    rw [changes_snapshot fun _ => some s.wal] at hc
    obtain ⟨r, hr, rfl⟩ := List.mem_map.1 hc
    exact ⟨r, hrows.mem_iff.1 hr, rfl⟩
  refine
    { unregistered := h.unregistered
      quiet := fun hr => by rw [hreg] at hr; cases hr
      idle := fun hs => by cases hs
      stmt := h.stmt
      table := h.table
      captured := fun _ => by
        simp only [hlog]
        exact (captured_snapshot hU (fun _ => some s.wal) hlsn).perm hrows
      lsn := by simp only [hlog]; exact hlsn
      lsn_le := fun c hc x hx => ?_
      early := fun i hi hr c hc => ?_
      last := fun _ hne => ?_
      passes := fun c hc row hrow => ?_ }
  · simp only [hlog] at hc
    obtain ⟨r, -, rfl⟩ := hchanges c hc
    exact (Option.some.inj hx).ge
  · simp only [hlog] at hc
    obtain ⟨r, hr', rfl⟩ := hchanges c hc
    obtain ⟨clock, now, ht⟩ := h.table i hr
    rw [ht] at hr'
    exact fun he => id_ne_of_early i hi hr' (Option.some.inj he)
  · have hrows_ne : rows ≠ [] := fun hnil => hne (by simp only [hnil, List.map_nil])
    obtain ⟨front, r, hfront, hnew⟩ := snapshot_last hU s.wal hrows_ne
    refine ⟨front.map (snapshotEvent (some s.wal)), snapshotEvent (some s.wal) r, ?_, r, ?_, ?_⟩
    · simp only [hfront, List.map_append, List.map_cons, List.map_nil]
    · exact hrows.mem_iff.1 (by rw [hfront]; simp)
    · simp only [htopic, List.nil_append]
      exact hnew
  · simp only [hlog] at hc
    obtain ⟨r, hr', rfl⟩ := hchanges c hc
    rw [htable] at hr'
    cases hrow
    exact passes_liveTable i₀ hr'

theorem liveStatement_id {T : List SourceRow} {op : Dml} (h : liveStatement now T i = some op) (hi : i ≤ 1) :
    op.id ≠ 500 := by
  match i with
  | 0 =>
    obtain ⟨x, hx, rfl⟩ := Option.map_eq_some_iff.1 h
    have hkey : x.key = some 1 := lookup_key hx
    have hid : x.id = 1 := Option.some.inj hkey
    simp only [Dml.id, hid]
    decide
  | 1 =>
    cases h
    decide

/-- What a live statement adds to the log: at most one event, about its row. -/
theorem changes_eventsLive (rep : Replica) (T : List SourceRow) (lsn now : ℤ) (i : ℕ) :
    changes (eventsLive rep T lsn (liveStatement now T i)) = [] ∨
      ∃ op c, liveStatement now T i = some op ∧
        changes (eventsLive rep T lsn (liveStatement now T i)) = [c] ∧ c.lsn = some lsn ∧
        c.id = some op.id ∧ ∀ row, c.landed = some row → Passes row := by
  rcases hop : liveStatement now T i with _ | op
  · exact Or.inl rfl
  by_cases heff : op.Effective T
  · obtain ⟨c, hc, hl, hid, hland⟩ := events_of_effective rep (some lsn) heff
    refine Or.inr ⟨op, c, rfl, hc, hl, hid, fun row hrow => ?_⟩
    obtain ⟨r, hr, rfl⟩ := Option.map_eq_some_iff.1 (hland.symm.trans hrow)
    exact passes_of_liveStatement hop hr
  · have hnil := (events_of_not_effective rep (some lsn) heff).2
    left
    simp only [eventsLive, hnil, changes_nil]

/-! What Debezium owes for a live statement, `evs`, is nothing before its snapshot. -/

section Owed

variable {evs : List Record} {lsn : ℤ}
  (hevs : evs = if s.snapshotTaken then eventsLive rep s.table lsn (liveStatement now s.table i) else [])

include hevs

theorem changes_owed : changes evs = [] ∨ ∃ op c, liveStatement now s.table i = some op ∧
    changes evs = [c] ∧ c.lsn = some lsn ∧ c.id = some op.id ∧ ∀ row, c.landed = some row → Passes row := by
  rw [hevs]
  split
  · exact changes_eventsLive rep s.table lsn now i
  · exact Or.inl rfl

/-- A change of the log after the statement was in the log before or is the statement's. -/
theorem mem_changes_owed {c : Change} (hc : c ∈ changes (s.topic ++ (s.pending ++ evs))) :
    c ∈ changes (s.topic ++ s.pending) ∨ c.lsn = some lsn ∧
      (∃ op, liveStatement now s.table i = some op ∧ c.id = some op.id) ∧
        ∀ row, c.landed = some row → Passes row := by
  rw [← List.append_assoc, changes_append] at hc
  rcases List.mem_append.1 hc with hc | hc
  · exact Or.inl hc
  · rcases changes_owed hevs with hnil | ⟨op, c', hop, hone, hl, hid, hpass⟩
    · rw [hnil] at hc
      cases hc
    · rw [hone, List.mem_singleton] at hc
      subst hc
      exact Or.inr ⟨hl, ⟨op, hop, hid⟩, hpass⟩

theorem PipelineOK.lsn_owed (h : PipelineOK s) (hlsn : s.wal < lsn) :
    LsnIncreasing (s.topic ++ (s.pending ++ evs)) := by
  rw [← List.append_assoc]
  rcases changes_owed hevs with hnil | ⟨op, c, -, hone, hl, -, -⟩
  · unfold LsnIncreasing
    rw [changes_append, hnil, List.append_nil]
    exact h.lsn
  · exact h.lsn.append_one hone hl fun c' hc' x hx => (h.lsn_le c' hc' x hx).trans_lt hlsn

theorem PipelineOK.captured_owed (h : PipelineOK s) (hlsn : s.wal < lsn) (hs : s.snapshotTaken = true) :
    Captured (execLive s.table (liveStatement now s.table i)) (s.topic ++ (s.pending ++ evs)) := by
  have hcap := h.captured hs
  have hl := h.lsn_owed hevs hlsn
  rw [if_pos hs] at hevs
  rw [← List.append_assoc, hevs] at hl ⊢
  rcases hop : liveStatement now s.table i with _ | op
  · -- no row matched, nothing changed and nothing is owed
    simpa [eventsLive, execLive] using hcap
  · rw [hop] at hl
    exact hcap.exec rep op hl

end Owed

/-- The third statement finds no row 500, and nothing in the log mentions one. -/
theorem PipelineOK.last_owed {evs : List Record} {lsn : ℤ} (h : PipelineOK s) (hpc : s.pc = .statement 2)
    (hevs : evs = if s.snapshotTaken then eventsLive rep s.table lsn (liveStatement now s.table 2) else [])
    (hne : s.pending ++ evs ≠ []) :
    ∃ front rec, s.pending ++ evs = front ++ [rec] ∧
      ∃ r ∈ execLive s.table (liveStatement now s.table 2), ∀ c ∈ changes (s.topic ++ front), c.id ≠ r.key := by
  have hran : s.pc.ran = some 2 := by rw [hpc]; rfl
  obtain ⟨clock, now₀, ht₀⟩ := h.table 2 hran
  have ht : s.table = liveTable clock now 2 := ht₀.trans (liveTable_now now 2 le_rfl)
  have hs : s.snapshotTaken = true := by
    by_contra hs
    obtain ⟨-, hpend⟩ := h.idle (by simpa using hs)
    rw [if_neg hs] at hevs
    exact hne (by rw [hpend, hevs]; rfl)
  -- no row of the seed has the id of the insert
  have hnone : lookup SourceRow.key s.table 500 = none := by
    rw [lookup_eq_none]
    intro r hr hk
    rw [ht] at hr
    exact id_ne_of_early 2 le_rfl hr (Option.some.inj hk)
  refine ⟨s.pending, ⟨some ⟨none, some (SourceRow.image ⟨500, "capstone", 111 / 2, "NEW", now⟩),
    some .c, some lsn⟩⟩, ?_, ⟨500, "capstone", 111 / 2, "NEW", now⟩, ?_, h.early 2 le_rfl hran⟩
  · rw [hevs, if_pos hs]
    simp only [eventsLive, liveStatement, Replica.events, hnone]
  · rw [ht]
    exact mem_liveTable_three clock now

theorem afterStatement_ran (hi : i ≤ 2) : (afterStatement i).ran = some (i + 1) := by
  unfold afterStatement
  split
  · rfl
  · have hi2 : i = 2 := by omega
    rw [hi2]
    rfl

/-- A live statement. -/
theorem PipelineOK.statement {lsn : ℤ} (h : PipelineOK s) (hpc : s.pc = .statement i) (hlsn : s.wal < lsn) :
    PipelineOK { s with
      pc := afterStatement i
      table := execLive s.table (liveStatement now s.table i)
      wal := lsn
      pending := s.pending ++
        if s.snapshotTaken then eventsLive rep s.table lsn (liveStatement now s.table i) else [] } := by
  have hi := h.stmt i hpc
  have hran : s.pc.ran = some i := by rw [hpc]; rfl
  have hafter := afterStatement_ran hi
  set evs := if s.snapshotTaken then eventsLive rep s.table lsn (liveStatement now s.table i) else []
    with hevs
  refine
    { unregistered := fun hp => ?_
      quiet := h.quiet
      idle := fun hs => ?_
      stmt := fun j hj => ?_
      table := fun j hj => ?_
      captured := fun hs => h.captured_owed hevs hlsn hs
      lsn := h.lsn_owed hevs hlsn
      lsn_le := fun c hc x hx => ?_
      early := fun j hj hr c hc => ?_
      last := fun hr hne => ?_
      passes := fun c hc row hrow => ?_ }
  · rcases hp with hp | hp
    all_goals
      simp only at hp
      rw [hp] at hafter
      cases hafter
  · have hs' : s.snapshotTaken = false := hs
    obtain ⟨htopic, hpend⟩ := h.idle hs'
    refine ⟨htopic, ?_⟩
    rw [hevs, hs']
    simp [hpend]
  · simp only [afterStatement] at hj
    split at hj
    · cases hj
      omega
    · cases hj
  · obtain ⟨clock, now₀, ht⟩ := h.table i hran
    rw [liveTable_now now i hi] at ht
    rw [hafter] at hj
    cases hj
    exact ⟨clock, now, by simp only [ht]; rfl⟩
  · rcases mem_changes_owed hevs hc with hc | ⟨hl, -, -⟩
    · exact (h.lsn_le c hc x hx).trans hlsn.le
    · rw [hl, Option.mem_some_iff] at hx
      exact hx.ge
  · rw [hafter] at hr
    cases hr
    rcases mem_changes_owed hevs hc with hc | ⟨-, ⟨op, hop, hid⟩, -⟩
    · exact h.early i hi hran c hc
    · rw [hid]
      exact fun he => liveStatement_id hop (by omega) (Option.some.inj he)
  · rw [hafter] at hr
    cases hr
    exact h.last_owed hpc hevs hne
  · rcases mem_changes_owed hevs hc with hc | ⟨-, -, hpass⟩
    · exact h.passes c hc row hrow
    · exact hpass row hrow

theorem runOK_step (h : RunOK s) (hstep : Step rep onEmpty s l t) : RunOK t := by
  -- once it has raised, only Debezium goes on
  by_cases hraised : s.pc = .raised
  · left
    cases hstep with
    | snapshot rows hreg hfirst hrows => exact hraised
    | emit rec rest hpend => exact hraised
    | raise => rfl
    | _ => simp_all
  replace h := h.resolve_left hraised
  cases hstep with
  | seed clock hpc => exact Or.inr (h.seed hpc)
  | register accepted hpc => exact Or.inr (h.register hpc accepted)
  | waited status hpc =>
    exact Or.inr (h.move (by rw [hpc]; rfl) (by decide) (by decide) fun i hi => by cases hi)
  | polled i seen hpc hseen =>
    obtain ⟨hran, h₁, h₂, h₃⟩ := afterPoll_ran i seen
    exact Or.inr (h.move (hran.trans (by rw [hpc]; rfl)) h₁ h₂ h₃)
  | statement i lsn now hpc hlsn => exact Or.inr (h.statement hpc hlsn)
  | read delivered T hpc hdel hT =>
    exact Or.inr (h.move (by rw [hpc]; rfl) (by decide) (by decide) fun i hi => by cases hi)
  | quality T hpc hT =>
    exact Or.inr (h.move (by rw [hpc]; rfl) (by decide) (by decide) fun i hi => by cases hi)
  | raise hpc => exact Or.inl rfl
  | snapshot rows hreg hfirst hrows => exact Or.inr (h.snapshot hreg hraised hfirst hrows)
  | emit rec rest hpend => exact Or.inr (h.emit hpend)

end SparkDev.Capstone
