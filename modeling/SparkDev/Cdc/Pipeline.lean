import Mathlib.Data.List.Induction
import SparkDev.Cdc.Connector
import SparkDev.Cdc.Guard
import SparkDev.Runs.Checkpoint

/-!
# The pipeline: Postgres, Debezium, Kafka, Spark, Iceberg

A run of the whole pipeline interleaves the source with its connector (`CaptureStep`) and
a streaming query that reads the topic in checkpointed batches and merges each into the
mirror (`foreachBatch`). The connector may be restarted and emit events again; the query may
crash and run a batch again; the topic has any number of partitions, with the events of a
row in one of them.

A batch that is run again may take a row back in time. It does
not stay there: whatever comes again is followed by everything after it.

* `Settling`: what the argument needs of a sink. Both sinks have it (`upsert_settling`,
  `guarded_settling`).
* `settled_final`: a row of the mirror is what the newest event says, once the last event
  put for it is the newest.
* `pipeline_mirrors`, `guarded_pipeline_mirrors`: **whenever everything emitted has been read, the
  mirror has the rows of the source.**
-/

namespace SparkDev.Cdc

open Sql Runs

/-! ## The last event of a row -/

/-- Is it an event of the id. -/
def Record.isOf (k : ℤ) (rec : Record) : Bool := (evt rec).change.any fun c => decide (c.id = some k)

/-- The last event of an id. -/
def lastChange (raw : List Record) (k : ℤ) : Option Change :=
  ((changes raw).filter fun c => decide (c.id = some k)).getLast?

variable {raw raw' log b : List Record} {c e : Change} {k : ℤ}

theorem changes_eq (raw : List Record) : changes raw = raw.filterMap fun rec => (evt rec).change := by
  unfold changes
  rw [List.filterMap_map]
  rfl

theorem lastChange_eq (raw : List Record) (k : ℤ) :
    lastChange raw k = (raw.filter (Record.isOf k)).getLast?.bind fun rec => (evt rec).change := by
  unfold lastChange
  rw [changes_eq]
  exact getLast?_filterMap_filter ..

theorem lastChange_eq_none : lastChange raw k = none ↔ ∀ c ∈ changes raw, c.id ≠ some k := by
  unfold lastChange
  rw [List.getLast?_eq_none_iff, List.filter_eq_nil_iff]
  simp

theorem lastChange_mem (h : lastChange raw k = some c) : c ∈ changes raw ∧ c.id = some k := by
  have hmem := List.mem_of_getLast? h
  rw [List.mem_filter, decide_eq_true_eq] at hmem
  exact hmem

/-- The later part has the last event, if it has any. -/
theorem lastChange_append (raw raw' : List Record) (k : ℤ) :
    lastChange (raw ++ raw') k = (lastChange raw' k).or (lastChange raw k) := by
  unfold lastChange
  rw [changes_append, List.filter_append, List.getLast?_append]

/-- **In commit order the last event is the newest.** -/
theorem lastChange_eq_newest (hl : LsnIncreasing log) (hid : Identified log) (k : ℤ) :
    lastChange log k = newestChange log k := by
  induction log using List.reverseRecOn with
  | nil => rfl
  | append_singleton log rec ih =>
    obtain ⟨hid₁, -⟩ := identified_append.1 hid
    rw [lastChange_append, newestChange_append hl hid, ih hl.append_left hid₁]
    congr 1
    -- a record has one change row at most
    have hone : changes [rec] = (evt rec).change.toList := by
      rw [changes_eq, List.filterMap_cons]
      rcases (evt rec).change with _ | c
      · rfl
      · rfl
    rcases hc : (evt rec).change with _ | c
    · rw [hc] at hone
      unfold lastChange newestChange
      rw [hone]
      rfl
    · rw [hc] at hone
      have hsingle : changes [rec] = [c] := hone
      unfold lastChange newestChange
      rw [hsingle, newest_singleton]
      by_cases h : c.id = some k
      · rw [if_pos h, List.filter_cons_of_pos (by simpa using h)]
        rfl
      · rw [if_neg h, List.filter_cons_of_neg (by simpa using h)]
        rfl

/-! ## Sinks that settle -/

/-- A sink with a mirror of the newest events of `log`. Under the invariant, a batch of records of the
log leaves the ids alone that have no event in it, and settles those whose newest event it has. -/
structure Settling {σ : Type*} (log : List Record) (Put : σ → Batch Record → σ → Prop)
    (mirror : σ → List MirrorRow) (I : σ → Prop) : Prop where
  unique : ∀ s, I s → UniqueKey MirrorRow.id (mirror s)
  keyed : ∀ s, I s → nullRows MirrorRow.id (mirror s) = []
  keep : ∀ s b t, I s → (∀ rec ∈ b.records, rec ∈ log) → Put s b t → I t
  other : ∀ s b t k, I s → (∀ rec ∈ b.records, rec ∈ log) → Put s b t →
    (∀ c ∈ changes b.records, c.id ≠ some k) →
      lookup MirrorRow.id (mirror t) k = lookup MirrorRow.id (mirror s) k
  newest : ∀ s b t k e, I s → (∀ rec ∈ b.records, rec ∈ log) → Put s b t →
    newestChange log k = some e → e ∈ changes b.records → lookup MirrorRow.id (mirror t) k = e.landed

section Settling

variable {σ : Type*} {Put : σ → Batch Record → σ → Prop} {mirror : σ → List MirrorRow} {I : σ → Prop}
  {init : σ} {puts : List (Batch Record × σ)}

/-- The invariant holds after every run of batches from the log. -/
theorem Settling.final_ok (hs : Settling log Put mirror I) (h0 : I init) (hc : Chain Put init puts)
    (hsub : ∀ rec ∈ Reader.records puts, rec ∈ log) : I (final init puts) := by
  induction puts using List.reverseRecOn with
  | nil => exact h0
  | append_singleton puts x ih =>
    obtain ⟨b, t⟩ := x
    obtain ⟨hc, hput, -⟩ := (chain_append puts init).1 hc
    rw [Reader.records_append, Reader.records_singleton] at hsub
    obtain ⟨hpre, hb⟩ := List.forall_mem_append.1 hsub
    rw [final_append]
    exact hs.keep _ b t (ih hc hpre) hb hput

/-- **A row is what the newest event says** once the last event put for it is the newest, whatever
was put before. -/
theorem settled_final (hs : Settling log Put mirror I) (h0 : I init) (hc : Chain Put init puts)
    (hsub : ∀ rec ∈ Reader.records puts, rec ∈ log)
    (hlast : lastChange (Reader.records puts) k = newestChange log k) :
    lookup MirrorRow.id (mirror (final init puts)) k =
      landing (newestChange log k) (lookup MirrorRow.id (mirror init) k) := by
  -- on the puts, from the last one back: only the last event of the id matters
  induction puts using List.reverseRecOn with
  | nil =>
    rw [← hlast]
    rfl
  | append_singleton puts x ih =>
    obtain ⟨b, t⟩ := x
    obtain ⟨hc, hput, -⟩ := (chain_append puts init).1 hc
    rw [Reader.records_append, Reader.records_singleton] at hsub hlast
    obtain ⟨hpre, hb⟩ := List.forall_mem_append.1 hsub
    have hI := hs.final_ok h0 hc hpre
    rw [lastChange_append] at hlast
    rw [final_append]
    rcases hn : lastChange b.records k with _ | e
    · -- the batch has no event of the id, so the last one came before it
      rw [hn, Option.none_or] at hlast
      have hrow := hs.other _ b t k hI hb hput (lastChange_eq_none.1 hn)
      exact hrow.trans (ih hc hpre hlast)
    · rw [hn, Option.some_or] at hlast
      have hrow := hs.newest _ b t k e hI hb hput hlast.symm (lastChange_mem hn).1
      rw [← hlast]
      exact hrow

/-- The mirror has the rows of a captured source once the last event put for each is the newest. -/
theorem settled_mirrors {S : List SourceRow} (hS : Captured S log) (hs : Settling log Put mirror I)
    (h0 : I init) (hempty : mirror init = []) (hc : Chain Put init puts)
    (hsub : ∀ rec ∈ Reader.records puts, rec ∈ log)
    (hlast : ∀ k, lastChange (Reader.records puts) k = newestChange log k) :
    (mirror (final init puts)).Perm (S.map SourceRow.mirrored) := by
  have hI := hs.final_ok h0 hc hsub
  refine mirror_perm (hs.unique _ hI) (hS.unique.map mirrored_id) (fun k => ?_) ?_
  · rw [settled_final hs h0 hc hsub (hlast k), hempty, lookup_map mirrored_id, hS.row k]
    rcases newestChange log k with _ | e
    · rfl
    · rfl
  · rw [hs.keyed _ hI, nullRows_mirrored]

end Settling

/-- `foreachBatch` with the dedup and the `MERGE` of CDC-7. -/
def upsertBatch (T : List MirrorRow) (b : Batch Record) (T' : List MirrorRow) : Prop := Upsert T b.records T'

/-- `foreachBatch` with the guarded `MERGE` of CDC-9. -/
def guardedBatch (T : List VersionedRow) (b : Batch Record) (T' : List VersionedRow) : Prop :=
  GuardedUpsert T b.records T'

/-- Of part of a log that has the newest event of an id, that is the newest. -/
theorem newestChange_part (hw : WellStamped Change.id Change.lsn (changes log))
    (hb : ∀ rec ∈ b, rec ∈ log) (he : newestChange log k = some e) (heb : e ∈ changes b) :
    newestChange b k = some e := by
  rw [newest_eq_some (wellStamped_of_subset hw hb)]
  refine ⟨heb, newest_key he, fun c hc hck => ?_⟩
  exact ((newest_eq_some hw).1 he).2.2 c (mem_changes_of_sub hb hc) hck

theorem upsert_settling (hw : WellStamped Change.id Change.lsn (changes log)) :
    Settling log upsertBatch (fun T => T)
      fun T => UniqueKey MirrorRow.id T ∧ nullRows MirrorRow.id T = [] where
  unique _ h := h.1
  keyed _ h := h.2
  keep T b T' h hb hput := by
    have hwb := wellStamped_of_subset hw hb
    exact ⟨upsert_unique h.1 hput, (upsert_nullRows hwb.key_ne hput).trans h.2⟩
  other T b T' k h hb hput hno := by
    have hn : newestChange b.records k = none := newest_eq_none.2 hno
    rw [upsert_lookup h.1 (wellStamped_of_subset hw hb) hput k, hn]
    rfl
  newest T b T' k e h hb hput he heb := by
    rw [upsert_lookup h.1 (wellStamped_of_subset hw hb) hput k, newestChange_part hw hb he heb]
    rfl

/-- The rows of a mirror with LSNs. -/
def plainRows (T : List VersionedRow) : List MirrorRow := T.map VersionedRow.row

theorem lookup_plainRows (T : List VersionedRow) (k : ℤ) :
    lookup MirrorRow.id (plainRows T) k = (lookup VersionedRow.id T k).map VersionedRow.row :=
  lookup_map (fun _ => rfl) T k

theorem guarded_settling (hw : WellStamped Change.id Change.lsn (changes log)) :
    Settling log guardedBatch plainRows (FromLog log) where
  unique T h := h.unique.map fun _ => rfl
  keyed T h := by
    rw [nullRows_eq_nil]
    intro r hr
    obtain ⟨t, ht, rfl⟩ := List.mem_map.1 hr
    exact nullRows_eq_nil.1 h.keyed t ht
  keep T b T' h hb hput := h.step hw hb hput
  other T b T' k h hb hput hno := by
    have hn : newestChange b.records k = none := newest_eq_none.2 hno
    rw [lookup_plainRows, lookup_plainRows, guarded_lookup h.unique (wellStamped_of_subset hw hb) hput k, hn]
    rfl
  newest T b T' k e h hb hput he heb := by
    rw [lookup_plainRows, h.newest_settles hw hb hput he heb]
    unfold Change.settled Change.landed
    split
    · rfl
    · rfl

/-! ## The whole pipeline -/

/-- The partition of a record. The events of one row are in one partition. -/
structure Partitioner (π : Type*) where
  part : Record → π
  keyed : ∀ rec rec' c c', (evt rec).change = some c → (evt rec').change = some c' → c.id = c'.id →
    part rec = part rec'

/-- The source with its connector, and the query. -/
structure Pipeline (π σ : Type*) where
  capture : Capture
  query : Reader Record π σ

/-- A step of the source, the connector or the query. -/
inductive PipelineAct (π : Type*) where
  | capture (a : CaptureAct)
  | query (a : ReaderAct Record π)

section Pipeline

variable {π σ : Type*} [DecidableEq π] (rep : Replica) (hash : Partitioner π)
  (Put : σ → Batch Record → σ → Prop) (init : σ)

/-- The steps of the pipeline. The query reads what is on the topic by then. -/
inductive PipelineStep : Pipeline π σ → PipelineAct π → Pipeline π σ → Prop where
  | capture {s : Pipeline π σ} {a : CaptureAct} {t : Capture} (h : CaptureStep rep s.capture a t) :
      PipelineStep s (.capture a) { s with capture := t }
  | query {s : Pipeline π σ} {a : ReaderAct Record π} {t : Reader Record π σ}
      (h : Reader.Step hash.part Put init s.capture.topic s.query a t) :
      PipelineStep s (.query a) { s with query := t }

/-- The source's snapshot is on the topic, and the query has not started. -/
def Pipeline.start (π σ : Type*) (T : List SourceRow) (lsn : ℤ) : Pipeline π σ :=
  ⟨Capture.snapshot T lsn, Reader.start Record π σ⟩

/-- What the query's sink has. -/
def Pipeline.sink (s : Pipeline π σ) : σ := final init s.query.puts

/-- The connector has emitted the whole WAL, and the query has read the whole topic. -/
def Pipeline.Quiet (s : Pipeline π σ) : Prop :=
  s.capture.slot.CaughtUp ∧ Reader.Drained hash.part s.capture.topic s.query

/-- The invariant: those of its parts. -/
structure Pipeline.OK (s : Pipeline π σ) : Prop where
  capture : s.capture.OK
  query : s.query.OK hash.part Put init s.capture.topic

variable {rep hash Put init} {s t : Pipeline π σ} {a : PipelineAct π} {T : List SourceRow} {lsn : ℤ}

theorem pipeline_start_ok (hT : UniqueKey SourceRow.key T) :
    (Pipeline.start π σ T lsn).OK hash Put init where
  capture := snapshot_ok hT lsn
  query := Reader.start_ok

/-- **One step**, by whichever party. -/
theorem Pipeline.OK.step (h : s.OK hash Put init) (hs : PipelineStep rep hash Put init s a t) :
    t.OK hash Put init := by
  rcases hs with hstep | hstep
  · obtain ⟨new, hnew⟩ := hstep.topic_prefix
    refine ⟨h.capture.step hstep, ?_⟩
    have hgrow := h.query.grow new
    rw [hnew] at hgrow
    exact hgrow
  · exact ⟨h.capture, h.query.step hstep⟩

theorem reach_pipeline (hT : UniqueKey SourceRow.key T)
    (hr : Reach (PipelineStep rep hash Put init) (Pipeline.start π σ T lsn) s) : s.OK hash Put init :=
  reach_invariant (fun _ _ _ hs hst => hs.step hst) (pipeline_start_ok hT) hr

/-- **At rest, the last event that reached the sink for a row is the newest one.** -/
theorem Pipeline.OK.lastChange (h : s.OK hash Put init) (hq : s.Quiet hash) (k : ℤ) :
    lastChange (Reader.records s.query.puts) k = newestChange s.capture.log k := by
  have hcap := h.capture.captured
  have hpart : ∀ p, SameLast (onPart hash.part p (Reader.records s.query.puts))
      (onPart hash.part p s.capture.log) := by
    intro p
    exact (h.query.drained_delivered hq.2 p).trans ((h.capture.sameLast hq.1).onPart hash.part p)
  have hone : ∀ x y, Record.isOf k x = true → Record.isOf k y = true → hash.part x = hash.part y := by
    intro x y hx hy
    unfold Record.isOf at hx hy
    rw [Option.any_eq_true] at hx hy
    obtain ⟨c, hc, hck⟩ := hx
    obtain ⟨c', hc', hck'⟩ := hy
    rw [decide_eq_true_eq] at hck hck'
    exact hash.keyed x y c c' hc hc' (hck.trans hck'.symm)
  rw [← lastChange_eq_newest h.capture.increasing hcap.identified k, lastChange_eq, lastChange_eq,
    getLast?_of_onPart hash.part hpart hone]

/-- What reached the sink was in the WAL. -/
theorem Pipeline.OK.mem_log (h : s.OK hash Put init) {rec : Record}
    (hrec : rec ∈ Reader.records s.query.puts) : rec ∈ s.capture.log := by
  have htopic : rec ∈ s.capture.topic := h.query.mem_records hrec
  have hmem := h.capture.slot.topic.mem_iff.1 (List.mem_append_left _ htopic)
  exact hmem

/-- **At rest a sink that settles has the source's rows.** -/
theorem Pipeline.OK.mirrors {mirror : σ → List MirrorRow} {I : σ → Prop} (h : s.OK hash Put init)
    (hs : Settling s.capture.log Put mirror I) (h0 : I init) (hempty : mirror init = [])
    (hq : s.Quiet hash) :
    (mirror (s.sink init)).Perm (s.capture.rows.map SourceRow.mirrored) :=
  settled_mirrors h.capture.captured hs h0 hempty h.query.chain (fun _ hrec => h.mem_log hrec)
    (h.lastChange hq)

/-- **From every state the pipeline can come to rest**, with the source as it is. -/
theorem Pipeline.OK.reach_quiet (h : s.OK hash Put init) (rep : Replica)
    (htotal : ∀ u b, ∃ v, Put u b v) :
    ∃ t, Reach (PipelineStep rep hash Put init) s t ∧ t.Quiet hash ∧ t.capture.rows = s.capture.rows := by
  obtain ⟨c, hsc, hcu, hrows⟩ := h.capture.reach_caughtUp rep
  have hreach : Reach (PipelineStep rep hash Put init) s { s with capture := c } :=
    reach_map (fun c => { s with capture := c }) (fun _ a _ hst => ⟨.capture a, .capture hst⟩) hsc
  have hok : Pipeline.OK hash Put init { s with capture := c } :=
    reach_invariant (fun _ _ _ hs hst => hs.step hst) h hreach
  obtain ⟨q, hsq, hd⟩ := hok.query.reach_drained htotal
  have hlift : ∀ q a q', Reader.Step hash.part Put init c.topic q a q' →
      ∃ l, PipelineStep rep hash Put init ⟨c, q⟩ l ⟨c, q'⟩ :=
    fun _ a _ hst => ⟨.query a, .query hst⟩
  have hquery := reach_map (fun q : Reader Record π σ => (⟨c, q⟩ : Pipeline π σ)) hlift hsq
  exact ⟨⟨c, q⟩, hreach.trans hquery, ⟨hcu, hd⟩, hrows⟩

end Pipeline

/-- **The mirror equals the source, end to end.** In every run of the pipeline from a snapshot,
over any number of partitions, with the connector restarted and batches run again at any point:
whenever everything emitted has been read, the CDC-7 mirror has exactly the rows the source has by
then, and the pipeline can get there from every state without the source changing. -/
theorem pipeline_mirrors {π : Type*} [DecidableEq π] (rep : Replica) (hash : Partitioner π)
    (T : List SourceRow) (hT : UniqueKey SourceRow.key T) (lsn : ℤ) (s : Pipeline π (List MirrorRow))
    (hr : Reach (PipelineStep rep hash upsertBatch []) (Pipeline.start π _ T lsn) s) :
    (s.Quiet hash → (s.sink []).Perm (s.capture.rows.map SourceRow.mirrored)) ∧
      ∃ t, Reach (PipelineStep rep hash upsertBatch []) s t ∧ t.Quiet hash ∧
        t.capture.rows = s.capture.rows := by
  have hok := reach_pipeline hT hr
  have hw := hok.capture.increasing.wellStamped hok.capture.captured.identified
  refine ⟨fun hq => hok.mirrors (upsert_settling hw) ⟨unique_nil, rfl⟩ rfl hq, ?_⟩
  exact hok.reach_quiet rep fun M b => upsert_exists M b.records

/-! A run in which the connector is restarted and a batch is run again. -/

/-- All records in one partition. -/
def onePartition : Partitioner Unit := ⟨fun _ => (), fun _ _ _ _ _ _ _ => rfl⟩

/-- The source with the row updated, its connector at a position, and a query. -/
def pipelineAt {σ : Type} (position : ℕ) (topic : List Record) (query : Reader Record Unit σ) :
    Pipeline Unit σ := ⟨paidAt position true topic, query⟩

/-- The update is emitted and both events are merged, twice; after a restart the update is emitted and
merged again. -/
def resentRun {σ : Type} (m : σ) : List (PipelineAct Unit × Pipeline Unit σ) :=
  let twice : List (Batch Record × σ) := [(⟨false, paidEvents⟩, m), (⟨true, paidEvents⟩, m)]
  let thrice := twice ++ [(⟨false, paidEvents.drop 1⟩, m)]
  let again := paidEvents ++ paidEvents.drop 1
  [(.capture (.dml (.update paid)), pipelineAt 1 (paidEvents.take 1) (Reader.start _ _ _)),
   (.capture (.connector .emit), pipelineAt 2 paidEvents (Reader.start _ _ _)),
   (.query (.plan fun _ => 2), pipelineAt 2 paidEvents ⟨fun _ => 0, some fun _ => 2, false, []⟩),
   (.query (.put ⟨false, paidEvents⟩), pipelineAt 2 paidEvents ⟨fun _ => 0, some fun _ => 2, true, twice.take 1⟩),
   (.query (.put ⟨true, paidEvents⟩), pipelineAt 2 paidEvents ⟨fun _ => 0, some fun _ => 2, true, twice⟩),
   (.query .commit, pipelineAt 2 paidEvents ⟨fun _ => 2, none, false, twice⟩),
   (.capture (.connector .restart), pipelineAt 1 paidEvents ⟨fun _ => 2, none, false, twice⟩),
   (.capture (.connector .emit), pipelineAt 2 again ⟨fun _ => 2, none, false, twice⟩),
   (.query (.plan fun _ => 3), pipelineAt 2 again ⟨fun _ => 2, some fun _ => 3, false, twice⟩),
   (.query (.put ⟨false, paidEvents.drop 1⟩), pipelineAt 2 again ⟨fun _ => 2, some fun _ => 3, true, thrice⟩),
   (.query .commit, pipelineAt 2 again ⟨fun _ => 3, none, false, thrice⟩)]

theorem resentRun_isRun {σ : Type} {Put : σ → Batch Record → σ → Prop} {init m : σ}
    (h : Put init ⟨false, paidEvents⟩ m) (h' : Put m ⟨true, paidEvents⟩ m)
    (h'' : Put m ⟨false, paidEvents.drop 1⟩ m) :
    Reach (PipelineStep Replica.keyOnly onePartition Put init) (Pipeline.start Unit σ [unpaid] 10)
      (final (Pipeline.start Unit σ [unpaid] 10) (resentRun m)) := by
  refine ⟨resentRun m, ⟨.capture (@CaptureStep.dml _ _ _ _ [⟨paidEvents[1]⟩]
      (show (10 : ℤ) < 11 by decide) rfl),
    .capture (paidAt_emit (paidEvents.take 1)),
    .query (.plan rfl fun _ => ⟨Nat.zero_le 2, Nat.le_refl 2⟩), .query (.put rfl rfl (fun _ => rfl) h),
    .query (.put rfl rfl (fun _ => rfl) h'), .query (.commit rfl rfl), .capture (.connector .restart),
    .capture (paidAt_emit paidEvents),
    .query (.plan rfl fun _ => ⟨Nat.le_succ 2, Nat.le_refl 3⟩), .query (.put rfl rfl (fun _ => rfl) h''),
    .query (.commit rfl rfl), trivial⟩, rfl⟩

/-- The state the run ends in is at rest. -/
theorem resentRun_quiet {σ : Type} (m : σ) :
    (final (Pipeline.start Unit σ [unpaid] 10) (resentRun m)).Quiet onePartition :=
  ⟨rfl, rfl, fun _ => rfl⟩

/-- The CDC-7 pipeline after that run. -/
theorem pipeline_mirrors_resent :
    ((final (Pipeline.start Unit _ [unpaid] 10) (resentRun [paid.mirrored])).sink []).Perm
      [⟨some 1, some "ann", some 10, some "PAID", some 1⟩] :=
  (pipeline_mirrors Replica.keyOnly onePartition [unpaid] (by decide) 10 _
    (resentRun_isRun (upsert_of_merge (by decide)) (upsert_of_merge (by decide))
      (upsert_of_merge (by decide)))).1 (resentRun_quiet _)

/-- **The same for the guarded `MERGE` of CDC-9.** A delete or an insert that comes again is followed
by everything after it, so at rest the mirror has the rows of the source. -/
theorem guarded_pipeline_mirrors {π : Type*} [DecidableEq π] (rep : Replica) (hash : Partitioner π)
    (T : List SourceRow) (hT : UniqueKey SourceRow.key T) (lsn : ℤ)
    (s : Pipeline π (List VersionedRow))
    (hr : Reach (PipelineStep rep hash guardedBatch []) (Pipeline.start π _ T lsn) s) :
    (s.Quiet hash → (plainRows (s.sink [])).Perm (s.capture.rows.map SourceRow.mirrored)) ∧
      ∃ t, Reach (PipelineStep rep hash guardedBatch []) s t ∧ t.Quiet hash ∧
        t.capture.rows = s.capture.rows := by
  have hok := reach_pipeline hT hr
  have hw := hok.capture.increasing.wellStamped hok.capture.captured.identified
  refine ⟨fun hq => hok.mirrors (guarded_settling hw) (fromLog_nil _) rfl hq, ?_⟩
  exact hok.reach_quiet rep fun M b => guarded_exists M b.records

/-- The CDC-9 pipeline after that run. -/
theorem guarded_pipeline_mirrors_resent :
    (plainRows ((final (Pipeline.start Unit _ [unpaid] 10)
      (resentRun [(⟨paid.mirrored, some 11⟩ : VersionedRow)])).sink [])).Perm
        [⟨some 1, some "ann", some 10, some "PAID", some 1⟩] :=
  (guarded_pipeline_mirrors Replica.keyOnly onePartition [unpaid] (by decide) 10 _
    (resentRun_isRun (guarded_of_merge (by decide)) (guarded_of_merge (by decide))
      (guarded_of_merge (by decide)))).1 (resentRun_quiet _)

end SparkDev.Cdc
