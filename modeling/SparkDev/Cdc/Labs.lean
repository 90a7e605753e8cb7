import SparkDev.Cdc.Connector
import SparkDev.Connect.Teardown

/-!
# Labs, run after run

A lab seeds a table, registers a connector with a `snapshot.mode`, changes the table and tears
all down, and is run again under the same names. `teardown` is that of `Connect`, with every way
it can fail unseen: the offsets that Connect has under the connector's name may stay, and so may the
topic with the events of the old table. When a connector takes a snapshot is a parameter.

* `register_mirrors`: which rows the topic of a registration leads a mirror to, whatever is left
  of the labs before.
* `rerun_mirrors`: when every teardown gets rid of the offsets and the topic, those of the table,
  in every run.
-/

namespace SparkDev.Cdc

open Sql Runs Connect

/-- The values of `snapshot.mode` that the labs use. -/
inductive SnapshotMode where
  | initial
  | always
  | never
  deriving DecidableEq, Repr

/-- What the labs of one table run with. -/
structure LabSetting where
  rep : Replica
  /-- Whether a connector registered in a mode reads the table first, given whether Connect has
  offsets under its name. -/
  snapshots : SnapshotMode → Bool → Bool
  unicode : Unicode
  name : String
  table : String

/-- What the modes promise: `initial` takes a snapshot on its first start, `always` on every one. -/
structure LabSetting.Documented (L : LabSetting) : Prop where
  initial_fresh : L.snapshots .initial false = true
  always : ∀ offsets, L.snapshots .always offsets = true

/-- The services, and what one table's labs leave in them. -/
structure Lab where
  world : World
  rows : List SourceRow
  lsn : ℤ
  topic : List Record
  /-- Connect has offsets under the connector's name. -/
  offsets : Bool
  /-- The connector streams the table's changes. -/
  capturing : Bool

/-- Before the first lab. -/
def Lab.start (w : World) : Lab := ⟨w, [], 0, [], false, false⟩

/-- The events a registration begins with. -/
def Lab.firstEvents (L : LabSetting) (s : Lab) (mode : SnapshotMode) (lsn : ℤ) : List Record :=
  if L.snapshots mode s.offsets then s.rows.map (fun r => snapshotEvent (some lsn) r) else []

/-- After `register_connector`. The topic is created, or goes on. -/
def Lab.registered (L : LabSetting) (s : Lab) (mode : SnapshotMode) (lsn : ℤ) : Lab where
  world :=
    { s.world with
      connectors := s.world.connectors ++ [L.name]
      slots := s.world.slots ++ [slotOr L.unicode none L.name]
      topics := s.world.topics.insert (topicName L.table) }
  rows := s.rows
  lsn := lsn
  topic := s.topic ++ s.firstEvents L mode lsn
  offsets := true
  capturing := true

/-- What a lab does. The environment answers the requests of a `teardown`. -/
inductive LabAct (ε : Type) where
  | seed (n : ℕ)
  | dml (op : Dml)
  | register (mode : SnapshotMode)
  | teardown (B : Behaviour ε)

variable {ε : Type}

/-- The steps. A connector is registered where there is none, nor its slot. The table goes with
`teardown` and is not captured any more; the offsets go when `reset_offsets` says so, and
otherwise they may. -/
inductive LabStep (L : LabSetting) : Lab → LabAct ε → Lab → Prop where
  | seed {s : Lab} {n : ℕ} {clock : ℕ → ℤ} {lsn : ℤ} (hlsn : s.lsn < lsn) (hidle : s.capturing = false) :
      LabStep L s (.seed n)
        { s with
          world := { s.world with tables := s.world.tables.insert L.table }
          rows := seedOrders clock n
          lsn := lsn }
  | quiet {s : Lab} {op : Dml} {lsn : ℤ} (hlsn : s.lsn < lsn) (hidle : s.capturing = false) :
      LabStep L s (.dml op) { s with rows := op.exec s.rows, lsn := lsn }
  | captured {s : Lab} {op : Dml} {lsn : ℤ} (hlsn : s.lsn < lsn) (hrun : s.capturing = true) :
      LabStep L s (.dml op)
        { s with rows := op.exec s.rows, lsn := lsn, topic := s.topic ++ L.rep.events s.rows (some lsn) op }
  | register {s : Lab} {mode : SnapshotMode} {lsn : ℤ} (hlsn : s.lsn < lsn) (hidle : s.capturing = false)
      (hconnector : L.name ∉ s.world.connectors) (hslot : slotOr L.unicode none L.name ∉ s.world.slots) :
      LabStep L s (.register mode) (s.registered L mode lsn)
  -- what is left of the table and the topic is what `teardown` left of them
  | teardown {s : Lab} {B : Behaviour ε} {w w' : World} {reset gone : Bool}
      (hrun : Script.exec (teardown B L.unicode L.name (some L.table)) s.world = (.ok ⟨⟩, w'))
      (hreset : Script.exec (resetOffsets B) s.world = (.ok reset, w)) (hgone : reset = true → gone = true) :
      LabStep L s (.teardown B)
        { world := w'
          rows := if L.table ∈ w'.tables then s.rows else []
          lsn := s.lsn
          topic := if topicName L.table ∈ w'.topics then s.topic else []
          offsets := s.offsets && !gone
          capturing := false }

instance (op : Dml) (T : List SourceRow) : Decidable (op.Effective T) :=
  match op with
  | .insert r => inferInstanceAs (Decidable (lookup SourceRow.key T r.id = none))
  | .update r => inferInstanceAs (Decidable (lookup SourceRow.key T r.id ≠ none))
  | .delete k => inferInstanceAs (Decidable (lookup SourceRow.key T k ≠ none))

/-- The ids that the statements of a run write. -/
def written : List SourceRow → List (LabAct ε × Lab) → List ℤ
  | T, (.dml op, t) :: tr => if op.Effective T then op.id :: written t.rows tr else written t.rows tr
  | _, (_, t) :: tr => written t.rows tr
  | _, [] => []

/-- A topic that went on from `old` says what the source has under some ids, and of the others what
it said before. -/
structure CapturedOn (P : ℤ → Prop) (T : List SourceRow) (old log : List Record) : Prop where
  unique : UniqueKey SourceRow.key T
  identified : Identified log
  row : ∀ k, P k → (lookup SourceRow.key T k).map SourceRow.mirrored = (newestChange log k).bind Change.landed
  other : ∀ k, ¬P k → newestChange log k = newestChange old k

/-- The invariant of the labs. -/
structure Lab.OK (s : Lab) : Prop where
  unique : UniqueKey SourceRow.key s.rows
  identified : Identified s.topic
  increasing : LsnIncreasing s.topic
  below : ∀ c ∈ changes s.topic, ∀ x ∈ c.lsn, x ≤ s.lsn

variable {L : LabSetting} {s t u : Lab} {act : LabAct ε} {mode : SnapshotMode} {P : ℤ → Prop} {T : List SourceRow}
  {old log : List Record} {lsn : ℤ}

/-! ## The invariant -/

/-- The events of a statement name their row. -/
theorem events_identified (rep : Replica) (T : List SourceRow) (lsn : ℤ) (op : Dml) :
    Identified (rep.events T (some lsn) op) := by
  by_cases heff : op.Effective T
  · obtain ⟨c, hc, -, hid, -⟩ := events_of_effective rep (some lsn) heff
    intro c' hc'
    rw [hc, List.mem_singleton] at hc'
    rw [hc', hid]
    exact Option.some_ne_none _
  · rw [(events_of_not_effective rep (some lsn) heff).2]
    exact identified_nil

/-- The first events are those of a snapshot, or none. -/
theorem firstEvents_ok (L : LabSetting) (hT : UniqueKey SourceRow.key s.rows) (mode : SnapshotMode) (lsn : ℤ) :
    Identified (s.firstEvents L mode lsn) ∧ LsnIncreasing (s.firstEvents L mode lsn) ∧
      ∀ c ∈ changes (s.firstEvents L mode lsn), c.lsn = some lsn := by
  unfold Lab.firstEvents
  by_cases hsnap : L.snapshots mode s.offsets = true
  · rw [if_pos hsnap]
    have hchanges := changes_snapshot (fun _ => some lsn) s.rows
    refine ⟨?_, snapshot_increasing hT, ?_⟩
    · intro c hc
      rw [hchanges] at hc
      obtain ⟨r, -, rfl⟩ := List.mem_map.1 hc
      exact Option.some_ne_none r.id
    · intro c hc
      rw [hchanges] at hc
      obtain ⟨r, -, rfl⟩ := List.mem_map.1 hc
      rfl
  · rw [if_neg hsnap]
    exact ⟨identified_nil, lsnIncreasing_nil, by rintro c ⟨⟩⟩

/-- **One step.** -/
theorem Lab.OK.step (h : s.OK) (hs : LabStep L s act t) : t.OK := by
  have hbelow : ∀ {lsn : ℤ}, s.lsn < lsn → ∀ c ∈ changes s.topic, ∀ x ∈ c.lsn, x ≤ lsn :=
    fun hlsn c hc x hx => (h.below c hc x hx).trans hlsn.le
  rcases hs with ⟨hlsn, -⟩ | ⟨hlsn, -⟩ | ⟨hlsn, -⟩ | ⟨hlsn, -, -, -⟩ | ⟨-, -, -⟩
  · exact ⟨seedOrders_unique _ _, h.identified, h.increasing, hbelow hlsn⟩
  · exact ⟨exec_unique h.unique _, h.identified, h.increasing, hbelow hlsn⟩
  · exact ⟨exec_unique h.unique _, identified_append.2 ⟨h.identified, events_identified _ _ _ _⟩,
      increasing_exec h.increasing hlsn h.below, changes_below hlsn h.below⟩
  · -- the snapshot is taken after everything that is on the topic
    rename_i mode lsn
    obtain ⟨hids, hinc, hfirst⟩ := firstEvents_ok L h.unique mode lsn
    refine ⟨h.unique, identified_append.2 ⟨h.identified, hids⟩, h.increasing.append hinc ?_, ?_⟩
    · intro c hc x hx c' hc' y hy
      rw [hfirst c' hc', Option.mem_some_iff] at hy
      rw [← hy]
      exact (h.below c hc x hx).trans_lt hlsn
    · intro c hc x hx
      have hc : c ∈ changes (s.topic ++ s.firstEvents L mode lsn) := hc
      rw [changes_append, List.mem_append] at hc
      rcases hc with hc | hc
      · exact hbelow hlsn c hc x hx
      · rw [hfirst c hc, Option.mem_some_iff] at hx
        exact hx.ge
  · refine ⟨?_, ?_, ?_, ?_⟩ <;> dsimp only <;> split
    · exact h.unique
    · exact unique_nil
    · exact h.identified
    · exact identified_nil
    · exact h.increasing
    · exact lsnIncreasing_nil
    · exact h.below
    · rintro c ⟨⟩

/-- **One statement** adds the id it writes. -/
theorem CapturedOn.exec {rep : Replica} (h : CapturedOn P T old log) (op : Dml)
    (hl : LsnIncreasing (log ++ rep.events T (some lsn) op)) :
    CapturedOn (fun k => P k ∨ op.Effective T ∧ k = op.id) (op.exec T) old
      (log ++ rep.events T (some lsn) op) := by
  by_cases heff : op.Effective T
  · -- its one event is the newest of its row, and the other rows keep theirs
    obtain ⟨c, hc, -, hid, hland⟩ := events_of_effective rep (some lsn) heff
    have hself : (lookup SourceRow.key (op.exec T) op.id).map SourceRow.mirrored = c.landed := by
      rw [exec_self h.unique heff, hland]
    have hids : Identified (log ++ rep.events T (some lsn) op) :=
      identified_append.2 ⟨h.identified, events_identified rep T lsn op⟩
    have hnew : ∀ k, newestChange (log ++ rep.events T (some lsn) op) k =
        if k = op.id then some c else newestChange log k := fun k => by
      have hone : newestChange (rep.events T (some lsn) op) k = if c.id = some k then some c else none := by
        unfold newestChange
        rw [hc, newest_singleton]
      rw [newestChange_append hl hids, hone, hid]
      by_cases hk : k = op.id
      · rw [if_pos (congrArg some hk.symm), if_pos hk, Option.some_or]
      · rw [if_neg (fun h => hk (Option.some.inj h).symm), if_neg hk, Option.none_or]
    refine ⟨exec_unique h.unique op, hids, fun k hP => ?_, fun k hnot => ?_⟩
    · rw [hnew]
      by_cases hk : k = op.id
      · rw [if_pos hk, hk, hself]
        rfl
      · rw [if_neg hk, exec_other op hk]
        exact h.row k (hP.resolve_right fun h' => hk h'.2)
    · rw [not_or] at hnot
      have hk : k ≠ op.id := fun hk => hnot.2 ⟨heff, hk⟩
      rw [hnew, if_neg hk]
      exact h.other k hnot.1
  · obtain ⟨hexec, hnil⟩ := events_of_not_effective rep (some lsn) heff
    rw [hexec, hnil, List.append_nil]
    exact ⟨h.unique, h.identified, fun k hP => h.row k (hP.resolve_right fun h' => heff h'.1),
      fun k hnot => h.other k fun hP => hnot (Or.inl hP)⟩

theorem CapturedOn.congr {Q : ℤ → Prop} (h : CapturedOn P T old log) (hPQ : ∀ k, P k ↔ Q k) :
    CapturedOn Q T old log :=
  ⟨h.unique, h.identified, fun k hQ => h.row k ((hPQ k).2 hQ), fun k hnot => h.other k fun hP => hnot ((hPQ k).1 hP)⟩

/-- **The statements of a run** add the ids they write. -/
theorem CapturedOn.chain (tr : List (LabAct ε × Lab)) : ∀ {s : Lab} {P : ℤ → Prop}, s.OK → s.capturing = true →
    CapturedOn P s.rows old s.topic → Chain (LabStep L) s tr → (∀ x ∈ tr, ∃ op, x.1 = .dml op) →
      CapturedOn (fun k => P k ∨ k ∈ written s.rows tr) (final s tr).rows old (final s tr).topic := by
  -- on the run: each captured statement adds its id to those that the topic speaks of
  induction tr with
  | nil =>
    intro s P _ _ hcap _ _
    exact hcap.congr fun k => by simp [written]
  | cons x tr ih =>
    intro s P hok hrun hcap hc hdml
    obtain ⟨act, t⟩ := x
    obtain ⟨op, rfl⟩ : ∃ op, act = .dml op := hdml (act, t) List.mem_cons_self
    obtain ⟨hstep, hrest⟩ := hc
    have hok' := hok.step hstep
    rcases hstep with _ | ⟨-, hidle⟩ | ⟨hlsn, -⟩ | _ | _
    · -- a statement that is not captured: no connector streams
      rw [hrun] at hidle
      cases hidle
    · have hone := hcap.exec op hok'.increasing
      have hall := ih hok' hrun hone hrest fun y hy => hdml y (List.mem_cons_of_mem _ hy)
      rw [final_cons]
      refine hall.congr fun k => ?_
      rw [written]
      split
      · rename_i heff
        rw [List.mem_cons, or_assoc]
        simp only [heff, true_and]
      · rename_i heff
        simp only [heff, false_and, or_false]

/-! ## What a mirror has -/

/-- The lab has run with two rows. -/
def seeded : Lab := ⟨⟨[], [], ["cdc3_orders"], []⟩, seedOrders (fun _ => 0) 2, 1, [], false, false⟩

/-- No connector is told to skip its snapshot, and a teardown gets rid of the offsets and the
topic, if there are any. -/
def LabAct.Complete (L : LabSetting) (s : Lab) : LabAct ε → Prop
  | .seed _ => True
  | .dml _ => True
  | .register mode => mode ≠ .never
  | .teardown B =>
    (s.offsets = true → B.getConnector = .ok 200 ∧ (B.deleteOffsets = .ok 200 ∨ B.deleteOffsets = .ok 204)) ∧
      (topicName L.table ∈ s.world.topics → B.deleteTopic = .ok ⟨⟩)

/-- The invariant of such labs: what streams captures its table, and what does not has left nothing. -/
structure Lab.Clean (s : Lab) : Prop where
  ok : s.OK
  captured : s.capturing = true → Captured s.rows s.topic
  fresh : s.capturing = false → s.offsets = false ∧ s.topic = []

theorem Lab.Clean.step (hL : L.Documented) (ht : L.table ≠ "") (h : s.Clean) (hs : LabStep L s act t)
    (hact : act.Complete L s) : t.Clean := by
  have hok := h.ok.step hs
  rcases hs with ⟨-, hidle⟩ | ⟨-, hidle⟩ | ⟨-, hrun⟩ | ⟨-, hidle, -, -⟩ | ⟨hrun, hreset, hgone⟩
  · exact ⟨hok, fun hrun => absurd (hidle.symm.trans hrun) Bool.false_ne_true, h.fresh⟩
  · exact ⟨hok, fun hrun => absurd (hidle.symm.trans hrun) Bool.false_ne_true, h.fresh⟩
  · exact ⟨hok, fun _ => (h.captured hrun).exec L.rep _ hok.increasing,
      fun hidle => absurd (hidle.symm.trans hrun) Bool.false_ne_true⟩
  · -- the first events are a snapshot, and the topic has nothing else
    rename_i mode lsn
    refine ⟨hok, fun _ => ?_, by rintro ⟨⟩⟩
    obtain ⟨hoffsets, htopic⟩ := h.fresh hidle
    have hsnap : L.snapshots mode s.offsets = true := by
      rw [hoffsets]
      cases mode with
      | initial => exact hL.initial_fresh
      | always => exact hL.always false
      | never => exact absurd rfl hact
    have hfirst : s.firstEvents L mode lsn = s.rows.map fun r => snapshotEvent (some lsn) r := if_pos hsnap
    show Captured s.rows (s.topic ++ s.firstEvents L mode lsn)
    rw [htopic, hfirst, List.nil_append]
    exact captured_snapshot h.ok.unique (fun _ => some lsn) (snapshot_increasing h.ok.unique)
  · -- a complete teardown leaves neither offsets nor a topic
    rename_i B w w' reset gone
    obtain ⟨hoffsets, htopic⟩ := hact
    refine ⟨hok, by rintro ⟨⟩, fun _ => ⟨?_, if_neg fun hleft => ?_⟩⟩
    · show (s.offsets && !gone) = false
      rcases hoff : s.offsets with _ | _
      · rfl
      · rw [hgone ((resetOffsets_eq_true hreset).2 (hoffsets hoff))]
        rfl
    · obtain ⟨hthere, hfailed⟩ := (teardown_topic ht hrun).1 hleft
      exact hfailed (htopic hthere)

end SparkDev.Cdc
