import SparkDev.Cdc.Mirror
import SparkDev.Runs.Emitter

/-!
# The connector and its topic

A run of the source and its connector interleaves single-row DML, other writes to the
WAL, and what the connector does or is made to do: it emits the next event, commits its
offset to `connect_offsets`, confirms the slot, is paused, resumed or restarted. A restart
goes on from the committed offset, so events may be emitted again.

* `reach_capture`: in every state reached, the rows of the source are what the newest
  events of the WAL say, and the topic misses only events that are still to come.
* `caughtUp_ingest`: once the connector has caught up, a read of the whole topic ingests to
  the source's rows.
-/

namespace SparkDev.Cdc

open Sql Runs

/-- An entry of the WAL: the event it is decoded to, if any. Commits, other tables and segment
switches decode to nothing. -/
structure WalEntry where
  record : Option Record
  deriving DecidableEq, Repr

/-- The source table and the capture of it: the LSN of the last statement, the WAL with the
connector's slot and topic. -/
structure Capture where
  rows : List SourceRow
  lsn : ℤ
  slot : Emitter WalEntry Record

/-- The events of the WAL, in commit order. -/
def Capture.log (s : Capture) : List Record := s.slot.log.filterMap WalEntry.record

/-- The topic. -/
def Capture.topic (s : Capture) : List Record := s.slot.topic

/-- The snapshot is on the topic and its offset is committed. -/
def Capture.snapshot (T : List SourceRow) (lsn : ℤ) : Capture where
  rows := T
  lsn := lsn
  slot := Emitter.start WalEntry.record (T.map fun r => ⟨some (snapshotEvent (some lsn) r)⟩)

/-- A step of the source or of its connector. -/
inductive CaptureAct where
  | dml (op : Dml)
  | other
  | connector (a : EmitterAct)

variable (rep : Replica)

/-- A statement has a later LSN than those before it, and its events are in the WAL, among
entries that decode to nothing. -/
inductive CaptureStep : Capture → CaptureAct → Capture → Prop where
  | dml {s : Capture} {op : Dml} {lsn : ℤ} {es : List WalEntry} (hlsn : s.lsn < lsn)
      (hes : es.filterMap WalEntry.record = rep.events s.rows (some lsn) op) :
      CaptureStep s (.dml op) ⟨op.exec s.rows, lsn, s.slot.write es⟩
  | other {s : Capture} {es : List WalEntry} (hes : es.filterMap WalEntry.record = []) :
      CaptureStep s .other { s with slot := s.slot.write es }
  | connector {s : Capture} {a : EmitterAct} {slot : Emitter WalEntry Record}
      (h : s.slot.Move WalEntry.record a slot) : CaptureStep s (.connector a) { s with slot := slot }

/-- The invariant: the WAL says what the rows are, with LSNs up to the last statement's. -/
structure Capture.OK (s : Capture) : Prop where
  captured : Captured s.rows s.log
  increasing : LsnIncreasing s.log
  below : ∀ c ∈ changes s.log, ∀ x ∈ c.lsn, x ≤ s.lsn
  slot : s.slot.OK WalEntry.record

variable {rep} {s t : Capture} {a : CaptureAct} {T : List SourceRow} {lsn : ℤ}

/-! ## The snapshot -/

theorem snapshot_log (T : List SourceRow) (lsn : ℤ) :
    (Capture.snapshot T lsn).log = T.map fun r => snapshotEvent (some lsn) r := by
  unfold Capture.log Capture.snapshot Emitter.start
  rw [List.filterMap_map]
  exact List.filterMap_eq_map (f := fun r => snapshotEvent (some lsn) r) ▸ rfl

/-- The rows of a snapshot have one event each, so one LSN will do for all of them. -/
theorem snapshot_increasing (hT : UniqueKey SourceRow.key T) :
    LsnIncreasing (T.map fun r => snapshotEvent (some lsn) r) := by
  unfold LsnIncreasing
  rw [changes_snapshot fun _ => some lsn]
  refine ⟨fun c hc => ?_, ?_⟩
  · obtain ⟨r, -, rfl⟩ := List.mem_map.1 hc
    exact Option.some_ne_none lsn
  · rw [List.pairwise_map]
    rw [unique_iff_pairwise] at hT
    refine hT.imp fun {r r'} hne hkey => ?_
    have hsame : r.key = r'.key := hkey
    exact absurd hsame.symm (hne r.id rfl)

theorem snapshot_ok (hT : UniqueKey SourceRow.key T) (lsn : ℤ) : (Capture.snapshot T lsn).OK where
  captured := by
    rw [snapshot_log]
    exact captured_snapshot hT (fun _ => some lsn) (snapshot_increasing hT)
  increasing := by
    rw [snapshot_log]
    exact snapshot_increasing hT
  below := by
    rw [snapshot_log, changes_snapshot fun _ => some lsn]
    intro c hc x hx
    obtain ⟨r, -, rfl⟩ := List.mem_map.1 hc
    have hxl : lsn = x := Option.some.inj hx
    exact le_of_eq hxl.symm
  slot := Emitter.start_ok _ _

/-! ## Steps -/

theorem write_log (slot : Emitter WalEntry Record) (es : List WalEntry) :
    (slot.write es).log.filterMap WalEntry.record =
      slot.log.filterMap WalEntry.record ++ es.filterMap WalEntry.record := List.filterMap_append ..

/-- The LSNs after a statement: those before it, and its own. -/
theorem changes_below {log : List Record} {op : Dml} {lsn₀ : ℤ} (hlsn : lsn₀ < lsn)
    (hbelow : ∀ c ∈ changes log, ∀ x ∈ c.lsn, x ≤ lsn₀) :
    ∀ c ∈ changes (log ++ rep.events T (some lsn) op), ∀ x ∈ c.lsn, x ≤ lsn := by
  intro c hc x hx
  rw [changes_append] at hc
  rcases List.mem_append.1 hc with hc | hc
  · have hle := hbelow c hc x hx
    omega
  · by_cases heff : op.Effective T
    · obtain ⟨c', hc', hl, -, -⟩ := events_of_effective rep (some lsn) heff
      rw [hc', List.mem_singleton] at hc
      rw [hc, hl] at hx
      exact le_of_eq (Option.some.inj hx).symm
    · rw [(events_of_not_effective rep (some lsn) heff).2] at hc
      exact absurd hc List.not_mem_nil

/-- The LSNs of the log still increase after a statement. -/
theorem increasing_exec {log : List Record} {op : Dml} {lsn₀ : ℤ} (hlog : LsnIncreasing log)
    (hlsn : lsn₀ < lsn) (hbelow : ∀ c ∈ changes log, ∀ x ∈ c.lsn, x ≤ lsn₀) :
    LsnIncreasing (log ++ rep.events T (some lsn) op) := by
  by_cases heff : op.Effective T
  · obtain ⟨c, hc, hl, -, -⟩ := events_of_effective rep (some lsn) heff
    refine hlog.append_one hc hl fun c' hc' x hx => ?_
    have hle := hbelow c' hc' x hx
    omega
  · rw [(events_of_not_effective rep (some lsn) heff).2, List.append_nil]
    exact hlog

/-- **One step.** -/
theorem Capture.OK.step (h : s.OK) (hs : CaptureStep rep s a t) : t.OK := by
  rcases hs with ⟨hlsn, hes⟩ | hes | hm
  · -- a statement: its event is the next of the log
    rename_i op lsn es
    have hlog : Capture.log ⟨op.exec s.rows, lsn, s.slot.write es⟩ =
        s.log ++ rep.events s.rows (some lsn) op := by
      unfold Capture.log
      rw [write_log, hes]
    have hinc : LsnIncreasing (s.log ++ rep.events s.rows (some lsn) op) :=
      increasing_exec h.increasing hlsn h.below
    refine ⟨?_, ?_, ?_, h.slot.write es⟩
    · rw [hlog]
      exact h.captured.exec rep op hinc
    · rw [hlog]
      exact hinc
    · rw [hlog]
      exact changes_below hlsn h.below
  · -- WAL of other tables: no event of it is in the log
    rename_i es
    have hlog : Capture.log { s with slot := s.slot.write es } = s.log := by
      unfold Capture.log
      rw [write_log, hes, List.append_nil]
    refine ⟨?_, ?_, ?_, h.slot.write es⟩
    · rw [hlog]
      exact h.captured
    · rw [hlog]
      exact h.increasing
    · rw [hlog]
      exact h.below
  · -- the connector moves in a log that stays
    rename_i slot
    have hlog : Capture.log { s with slot := slot } = s.log := by
      unfold Capture.log
      rw [hm.log]
    refine ⟨?_, ?_, ?_, h.slot.move hm⟩
    · rw [hlog]
      exact h.captured
    · rw [hlog]
      exact h.increasing
    · rw [hlog]
      exact h.below

/-- **Every state reached from a snapshot.** -/
theorem reach_capture (hT : UniqueKey SourceRow.key T)
    (hr : Reach (CaptureStep rep) (Capture.snapshot T lsn) s) : s.OK :=
  reach_invariant (fun _ _ _ hs hst => hs.step hst) (snapshot_ok hT lsn) hr

/-- What was emitted stays on the topic. -/
theorem CaptureStep.topic_prefix (h : CaptureStep rep s a t) : s.topic <+: t.topic := by
  rcases h with ⟨-, -⟩ | - | hm
  · exact List.prefix_refl _
  · exact List.prefix_refl _
  · exact hm.topic_prefix

/-! ## Caught up -/

/-- A caught-up topic has the last records of the WAL. -/
theorem Capture.OK.sameLast (h : s.OK) (hc : s.slot.CaughtUp) : SameLast s.topic s.log :=
  h.slot.caughtUp hc

/-- The connector's moves, as steps of the whole. -/
theorem reach_connector {slot : Emitter WalEntry Record}
    (hr : Reach (Emitter.Move WalEntry.record) s.slot slot) :
    Reach (CaptureStep rep) s { s with slot := slot } :=
  reach_map (fun slot => { s with slot := slot }) (fun _ a _ hm => ⟨.connector a, .connector hm⟩) hr

/-- **From every state the connector can catch up**, with the source at rest. -/
theorem Capture.OK.reach_caughtUp (h : s.OK) (rep : Replica) :
    ∃ t, Reach (CaptureStep rep) s t ∧ t.slot.CaughtUp ∧ t.rows = s.rows := by
  obtain ⟨slot, hr, hc⟩ := h.slot.catchUp
  exact ⟨{ s with slot := slot }, reach_connector hr, hc, rfl⟩

/-- **At least once is enough for a read of the whole topic.** In every run from a snapshot,
with the connector paused, resumed and restarted at any point and its events emitted again after
each restart: once it has caught up, ingesting the topic gives the rows the source has by then.
It can catch up from every state, without the source changing. -/
theorem caughtUp_ingest (rep : Replica) (T : List SourceRow) (hT : UniqueKey SourceRow.key T)
    (lsn : ℤ) (s : Capture) (hr : Reach (CaptureStep rep) (Capture.snapshot T lsn) s) :
    (s.slot.CaughtUp → (∃ M, Ingest s.topic M) ∧
        ∀ M, Ingest s.topic M → M.Perm (s.rows.map SourceRow.mirrored)) ∧
      ∃ t, Reach (CaptureStep rep) s t ∧ t.slot.CaughtUp ∧ t.rows = s.rows := by
  have hok := reach_capture hT hr
  constructor
  · intro hc
    refine ⟨upsert_exists [] s.topic, fun M hM => ?_⟩
    have hsame : ∀ rec, rec ∈ s.topic ↔ rec ∈ s.log := fun rec => (hok.sameLast hc).mem_iff
    exact ingest_captured hok.captured hok.increasing hsame hM
  · exact hok.reach_caughtUp rep

/-- A row of the source. -/
def unpaid : SourceRow := ⟨1, "ann", 10, "NEW", 0⟩

/-- The row after an update. -/
def paid : SourceRow := ⟨1, "ann", 10, "PAID", 1⟩

/-- The events of the row: the snapshot's and the update's. -/
def paidEvents : List Record :=
  [snapshotEvent (some 10) unpaid, ⟨some ⟨none, some paid.image, some .u, some 11⟩⟩]

/-- The source with the row updated, and its connector, the offset of the snapshot committed. -/
def paidAt (position : ℕ) (running : Bool) (topic : List Record) : Capture where
  rows := [paid]
  lsn := 11
  slot := ⟨[⟨some paidEvents[0]⟩, ⟨some paidEvents[1]⟩], 0, 1, 1, position, running, topic⟩

/-- The update is emitted. -/
theorem paidAt_emit (topic : List Record) :
    CaptureStep Replica.keyOnly (paidAt 1 true topic) (.connector .emit)
      (paidAt 2 true (topic ++ [paidEvents[1]])) :=
  .connector (@Emitter.Move.emit _ _ WalEntry.record (paidAt 1 true topic).slot _ rfl (Nat.zero_le _) rfl)

/-- The update is made and emitted, the connector restarted, and the update emitted again. -/
theorem caughtUp_ingest_resent : ∃ M, Ingest (paidEvents ++ paidEvents.drop 1) M ∧
    M.Perm [⟨some 1, some "ann", some 10, some "PAID", some 1⟩] := by
  have hdml : CaptureStep Replica.keyOnly (Capture.snapshot [unpaid] 10) (.dml (.update paid))
      (paidAt 1 true (paidEvents.take 1)) :=
    @CaptureStep.dml _ _ _ _ [⟨paidEvents[1]⟩] (show (10 : ℤ) < 11 by decide) rfl
  have hrestart : CaptureStep Replica.keyOnly (paidAt 2 true paidEvents) (.connector .restart)
      (paidAt 1 true paidEvents) := .connector .restart
  have hrun : Reach (CaptureStep Replica.keyOnly) (Capture.snapshot [unpaid] 10)
      (paidAt 2 true (paidEvents ++ paidEvents.drop 1)) :=
    (reach_step hdml).trans ((reach_step (paidAt_emit (paidEvents.take 1))).trans
      ((reach_step hrestart).trans (reach_step (paidAt_emit paidEvents))))
  obtain ⟨⟨M, hM⟩, hall⟩ := (caughtUp_ingest Replica.keyOnly [unpaid] (by decide) 10 _ hrun).1 rfl
  exact ⟨M, hM, hall M hM⟩

end SparkDev.Cdc
