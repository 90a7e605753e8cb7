import SparkDev.Connect.Names
import SparkDev.Connect.Wait
import SparkDev.Runs.Script

/-!
# `teardown`

`teardown` stops the connector, clears its offsets, deletes it, drops its slot and its
table. The calls report failure in what they return, an HTTP status or `False`, and
`teardown` looks at none of it.

The environment is a parameter (`Behaviour`): what each request is answered, whether the
`DELETE` took effect, and what came of each attempt to drop the slot.

* `dropSlot_ok`: what is left of the slot when `drop_slot` returns.
* `teardown_topic`: what is left of the topic when `teardown` returns.
* `teardown_iff`: a `teardown` that returns has cleaned up exactly when the `DELETE` took
  effect and one of the five attempts dropped the slot, each unless there was nothing.
-/

namespace SparkDev.Connect

open Runs

/-- What is there: connectors, replication slots, source tables and topics. -/
structure World where
  connectors : List String
  slots : List String
  tables : List String
  topics : List String
  deriving DecidableEq, Repr

/-- What the environment does in the course of one `teardown`, each request answered or raising. -/
structure Behaviour (ε : Type) where
  getConnector : Except ε ℕ
  stop : Except ε ℕ
  /-- The polls for `STOPPED`. -/
  status : ℕ → Except ε ConnectorStatus
  deleteOffsets : Except ε ℕ
  delete : Except ε ℕ
  /-- The `DELETE` of the connector took effect. -/
  removes : Bool
  /-- The attempts to drop the slot: the look for it, and the drop. -/
  selectSlot : ℕ → Except ε PUnit
  dropSlot : ℕ → Outcome ε
  dropTable : Except ε PUnit
  admin : Except ε PUnit
  deleteTopic : Except ε PUnit
  close : Except ε PUnit

variable {ε : Type} (B : Behaviour ε) (U : Unicode)

/-- `for _ in range(10)`: until the connector is `STOPPED`. -/
def waitStopped : (tries i : ℕ) → Script World ε PUnit
  | 0, _ => pure ⟨⟩
  | tries + 1, i => do
    let st ← call (B.status i)
    if st.connector.getD none = some "STOPPED" then pure ⟨⟩ else waitStopped tries (i + 1)

/-- `reset_offsets`. -/
def resetOffsets : Script World ε Bool := do
  let status ← call B.getConnector
  if status ≠ 200 then pure false
  else do
    let _ ← call B.stop
    waitStopped B 10 0
    let status ← call B.deleteOffsets
    pure (status == 200 || status == 204)

/-- `delete_connector`. -/
def deleteConnector (name : String) : Script World ε ℕ := do
  modify fun w => if B.removes then { w with connectors := w.connectors.filter (· ≠ name) } else w
  call B.delete

/-- `SELECT pg_drop_replication_slot(slot_name)`, attempt `i`. It raises for a slot that is active. -/
def pgDropSlot (slotName : String) (i : ℕ) : Script World ε PUnit :=
  request (B.dropSlot i) fun w => { w with slots := w.slots.filter (· ≠ slotName) }

/-- `drop_slot`, from attempt `i` on. -/
def dropSlot (slotName : String) : (retries i : ℕ) → Script World ε Bool
  | 0, _ => pure false
  | retries + 1, i => do
    call (B.selectSlot i)
    let w ← get
    if slotName ∉ w.slots then pure true
    else
      tryCatch (do pgDropSlot B slotName i; pure true) fun _ => dropSlot slotName retries (i + 1)

/-- `topic_name`. -/
def topicName (table : String) : String := "dbz.public." ++ table

/-- `delete_data_topic`. -/
def deleteDataTopic (table : String) : Script World ε PUnit := do
  call B.admin
  tryCatch (do
      call B.deleteTopic
      modify fun w => { w with topics := w.topics.filter (· ≠ topicName table) })
    fun _ => pure ⟨⟩
  call B.close

/-- `if table:` and what follows. -/
def dropTable (table : Option String) (dropTopic : Bool) : Script World ε PUnit :=
  let t := table.getD ""
  if t = "" then pure ⟨⟩
  else do
    call B.dropTable
    modify fun w => { w with tables := w.tables.filter (· ≠ t) }
    if dropTopic then deleteDataTopic B t else pure ⟨⟩

/-- `teardown`. -/
def teardown (name : String) (table slot : Option String := none) (dropTopic : Bool := true) :
    Script World ε PUnit := do
  let _ ← resetOffsets B
  let _ ← deleteConnector B name
  let _ ← dropSlot B (slotOr U slot name) 5 0
  dropTable B table dropTopic

variable {B U} {w w' : World} {name slotName t : String} {table slot : Option String} {dropTopic b : Bool}
  {n : ℕ} {u : PUnit}

/-! ## What each part does when it returns -/

theorem waitStopped_ok : ∀ {tries i : ℕ}, Script.exec (waitStopped B tries i) w = (.ok u, w') → w' = w := by
  intro tries
  induction tries with
  | zero =>
    intro i h
    exact (congrArg Prod.snd h).symm
  | succ tries ih =>
    intro i h
    obtain ⟨st, -, hrest⟩ := exec_call_bind_eq_ok h
    split at hrest
    · exact (congrArg Prod.snd hrest).symm
    · exact ih hrest

/-- `reset_offsets` changes none of what is modelled. -/
theorem resetOffsets_ok (h : Script.exec (resetOffsets B) w = (.ok b, w')) : w' = w := by
  obtain ⟨status, -, hrest⟩ := exec_call_bind_eq_ok h
  split at hrest
  · exact (congrArg Prod.snd hrest).symm
  · obtain ⟨_, -, hpoll⟩ := exec_call_bind_eq_ok hrest
    obtain ⟨_, w₁, hwait, hlast⟩ := exec_bind_eq_ok hpoll
    have hw₁ : w₁ = w := waitStopped_ok hwait
    obtain ⟨_, -, hreturn⟩ := exec_call_bind_eq_ok hlast
    have hw' : w₁ = w' := congrArg Prod.snd hreturn
    exact hw'.symm.trans hw₁

/-- Whether `reset_offsets` returns `True`. -/
theorem resetOffsets_eq_true (h : Script.exec (resetOffsets B) w = (.ok b, w')) :
    b = true ↔ B.getConnector = .ok 200 ∧ (B.deleteOffsets = .ok 200 ∨ B.deleteOffsets = .ok 204) := by
  obtain ⟨status, hget, hrest⟩ := exec_call_bind_eq_ok h
  rw [hget]
  split at hrest
  · rename_i hstatus
    obtain rfl : false = b := Except.ok.inj (congrArg Prod.fst hrest)
    exact iff_of_false Bool.false_ne_true fun hboth => hstatus (Except.ok.inj hboth.1)
  · rename_i hstatus
    obtain ⟨_, -, hpoll⟩ := exec_call_bind_eq_ok hrest
    obtain ⟨_, w₁, -, hlast⟩ := exec_bind_eq_ok hpoll
    obtain ⟨answer, hdelete, hreturn⟩ := exec_call_bind_eq_ok hlast
    obtain rfl : (answer == 200 || answer == 204) = b := Except.ok.inj (congrArg Prod.fst hreturn)
    rw [hdelete, not_not.1 hstatus]
    simp

theorem deleteConnector_ok (h : Script.exec (deleteConnector B name) w = (.ok n, w')) :
    w'.slots = w.slots ∧ w'.topics = w.topics ∧
      (name ∉ w'.connectors ↔ name ∉ w.connectors ∨ B.removes = true) := by
  unfold deleteConnector at h
  rw [exec_modify_bind, exec_call] at h
  obtain rfl := congrArg Prod.snd h
  rcases B.removes <;> simp

/-- One attempt to drop the slot, up to `return True`. -/
theorem exec_attempt (B : Behaviour ε) (slotName : String) (i : ℕ) (w : World) :
    Script.exec (do pgDropSlot B slotName i; pure true) w = ((B.dropSlot i).answer.map fun _ : Unit => true,
      if (B.dropSlot i).effective then { w with slots := w.slots.filter (· ≠ slotName) } else w) := by
  have hrequest := exec_request (B.dropSlot i)
    (fun w : World => { w with slots := w.slots.filter (· ≠ slotName) }) w
  unfold pgDropSlot
  rcases hdrop : B.dropSlot i with _ | e | e <;> rw [hdrop] at hrequest
  · exact exec_bind_ok hrequest
  · exact exec_bind_error hrequest
  · exact exec_bind_error hrequest

/-- **What `drop_slot` leaves**, whatever it returns. -/
theorem dropSlot_ok : ∀ {retries i : ℕ} {w : World}, Script.exec (dropSlot B slotName retries i) w = (.ok b, w') →
    w'.connectors = w.connectors ∧ w'.topics = w.topics ∧ (slotName ∉ w'.slots ↔
      slotName ∉ w.slots ∨ ∃ k, i ≤ k ∧ k < i + retries ∧ (B.dropSlot k).effective = true) := by
  intro retries
  -- on the attempts that are left: each looks first, then tries to drop
  induction retries with
  | zero =>
    intro i w h
    obtain rfl : w = w' := congrArg Prod.snd h
    refine ⟨rfl, rfl, (or_iff_left ?_).symm⟩
    rintro ⟨k, hi, hk, -⟩
    omega
  | succ retries ih =>
    intro i w h
    obtain ⟨_, -, hrest⟩ := exec_call_bind_eq_ok h
    rw [exec_get_bind] at hrest
    by_cases hin : slotName ∉ w.slots
    · rw [if_pos hin] at hrest
      obtain rfl : w = w' := congrArg Prod.snd hrest
      exact ⟨rfl, rfl, (or_iff_left_of_imp fun _ => hin).symm⟩
    rw [if_neg hin] at hrest
    have hgone : slotName ∉ w.slots.filter (· ≠ slotName) := by simp
    have hattempt := exec_attempt B slotName i w
    rw [exists_from_succ]
    rcases hdrop : B.dropSlot i with _ | e | e <;> rw [hdrop] at hattempt
    · rw [exec_tryCatch_ok hattempt] at hrest
      obtain rfl := congrArg Prod.snd hrest
      exact ⟨rfl, rfl, iff_of_true hgone (Or.inr (Or.inl rfl))⟩
    · rw [exec_tryCatch_error hattempt] at hrest
      obtain ⟨hconn, htopics, hslot⟩ := ih hrest
      have hrefused : (Outcome.refused e).effective ≠ true := Bool.false_ne_true
      exact ⟨hconn, htopics, hslot.trans (or_congr_right (or_iff_right hrefused).symm)⟩
    · -- dropped, though the caller does not know: the next look finds no slot
      rw [exec_tryCatch_error hattempt] at hrest
      obtain ⟨hconn, htopics, hslot⟩ := ih hrest
      exact ⟨hconn, htopics, iff_of_true (hslot.2 (Or.inl hgone)) (Or.inr (Or.inl rfl))⟩

theorem deleteDataTopic_ok (h : Script.exec (deleteDataTopic B t) w = (.ok u, w')) :
    w'.connectors = w.connectors ∧ w'.slots = w.slots ∧
      (topicName t ∈ w'.topics ↔ topicName t ∈ w.topics ∧ B.deleteTopic ≠ .ok ⟨⟩) := by
  obtain ⟨_, -, hrest⟩ := exec_call_bind_eq_ok h
  obtain ⟨_, w₂, htry, hclose⟩ := exec_bind_eq_ok hrest
  rw [exec_call] at hclose
  obtain rfl : w₂ = w' := congrArg Prod.snd hclose
  -- an exception of the deletion is swallowed, and the topic stays
  rcases hdel : B.deleteTopic with e | _
  · have hbody : Script.exec (do
        call B.deleteTopic
        modify fun w => { w with topics := w.topics.filter (· ≠ topicName t) } : Script World ε PUnit) w =
        (.error e, w) := by
      rw [hdel]
      rfl
    rw [exec_tryCatch_error hbody] at htry
    obtain rfl : w = w₂ := congrArg Prod.snd htry
    exact ⟨rfl, rfl, by simp⟩
  · have hbody : Script.exec (do
        call B.deleteTopic
        modify fun w => { w with topics := w.topics.filter (· ≠ topicName t) } : Script World ε PUnit) w =
        (.ok ⟨⟩, { w with topics := w.topics.filter (· ≠ topicName t) }) := by
      rw [hdel]
      rfl
    rw [exec_tryCatch_ok hbody] at htry
    obtain rfl := congrArg Prod.snd htry
    refine ⟨rfl, rfl, iff_of_false ?_ fun hboth => hboth.2 rfl⟩
    simp

theorem dropTable_ok (h : Script.exec (dropTable B table dropTopic) w = (.ok u, w')) :
    w'.connectors = w.connectors ∧ w'.slots = w.slots := by
  unfold dropTable at h
  dsimp only at h
  split at h
  · obtain rfl : w = w' := congrArg Prod.snd h
    exact ⟨rfl, rfl⟩
  · obtain ⟨_, -, hrest⟩ := exec_call_bind_eq_ok h
    rw [exec_modify_bind] at hrest
    split at hrest
    · obtain ⟨hconnectors, hslots, -⟩ := deleteDataTopic_ok hrest
      exact ⟨hconnectors, hslots⟩
    · obtain rfl := congrArg Prod.snd hrest
      exact ⟨rfl, rfl⟩

/-- **When a `teardown` that returns has cleaned up**: exactly when the `DELETE` took effect
or there was no connector, and one of the five attempts dropped the slot or there was none. -/
theorem teardown_iff (B : Behaviour ε) (U : Unicode) (name : String) (table slot : Option String)
    (dropTopic : Bool) (w w' : World)
    (h : Script.exec (teardown B U name table slot dropTopic) w = (.ok ⟨⟩, w')) :
    (name ∉ w'.connectors ∧ slotOr U slot name ∉ w'.slots) ↔
      (name ∉ w.connectors ∨ B.removes = true) ∧
        (slotOr U slot name ∉ w.slots ∨ ∃ k < 5, (B.dropSlot k).effective = true) := by
  obtain ⟨_, w₁, hreset, hrest⟩ := exec_bind_eq_ok h
  obtain rfl := resetOffsets_ok hreset
  obtain ⟨_, w₂, hdelete, hrest⟩ := exec_bind_eq_ok hrest
  obtain ⟨hslots, -, hconnector⟩ := deleteConnector_ok hdelete
  obtain ⟨_, w₃, hdrop, htable⟩ := exec_bind_eq_ok hrest
  obtain ⟨hconnectors, -, hslot⟩ := dropSlot_ok hdrop
  obtain ⟨hc, hs⟩ := dropTable_ok htable
  rw [hc, hs, hconnectors, hconnector, hslot, hslots]
  simp

/-- **What a `teardown` that returns leaves of the topic**, whose deletion may fail unseen. -/
theorem teardown_topic (ht : t ≠ "")
    (h : Script.exec (teardown B U name (some t) slot) w = (.ok ⟨⟩, w')) :
    topicName t ∈ w'.topics ↔ topicName t ∈ w.topics ∧ B.deleteTopic ≠ .ok ⟨⟩ := by
  obtain ⟨_, w₁, hreset, hrest⟩ := exec_bind_eq_ok h
  obtain rfl := resetOffsets_ok hreset
  obtain ⟨_, w₂, hdelete, hrest⟩ := exec_bind_eq_ok hrest
  obtain ⟨-, htopics, -⟩ := deleteConnector_ok hdelete
  obtain ⟨_, w₃, hdrop, htable⟩ := exec_bind_eq_ok hrest
  obtain ⟨-, htopics', -⟩ := dropSlot_ok hdrop
  have hbranch : dropTable B (some t) true = (do
      call B.dropTable
      modify fun w => { w with tables := w.tables.filter (· ≠ t) }
      deleteDataTopic B t : Script World ε PUnit) := if_neg ht
  rw [hbranch] at htable
  obtain ⟨_, -, hrest⟩ := exec_call_bind_eq_ok htable
  rw [exec_modify_bind] at hrest
  obtain ⟨-, -, htopic⟩ := deleteDataTopic_ok hrest
  rw [htopic, htopics', htopics]

/-- An environment in which everything is accepted, and the slot is released after two attempts. -/
def accepting : Behaviour Unit where
  getConnector := .ok 200
  stop := .ok 202
  status _ := .ok ⟨some (some "STOPPED"), some []⟩
  deleteOffsets := .ok 200
  delete := .ok 204
  removes := true
  selectSlot _ := .ok ⟨⟩
  dropSlot i := if i < 2 then .refused () else .done
  dropTable := .ok ⟨⟩
  admin := .ok ⟨⟩
  deleteTopic := .ok ⟨⟩
  close := .ok ⟨⟩

/-- A connector with its slot, table and topic. -/
def oneConnector : World := ⟨["cdc-orders"], ["cdc_orders_slot"], ["orders"], ["dbz.public.orders"]⟩

/-- Another connector beside it, with a slot, a table and a topic of its own. -/
def twoConnectors : World :=
  ⟨["cdc-orders", "cdc-users"], ["cdc_orders_slot", "cdc_users_slot"], ["orders", "users"],
    ["dbz.public.orders", "dbz.public.users"]⟩

/-- What is left of it without the first. -/
def otherConnector : World := ⟨["cdc-users"], ["cdc_users_slot"], ["users"], ["dbz.public.users"]⟩

/-- A `teardown` that cleans up, and leaves the other connector alone. -/
theorem teardown_iff_accepting :
    Script.exec (teardown accepting ascii "cdc-orders" (some "orders")) twoConnectors = (.ok ⟨⟩, otherConnector) ∧
      "cdc-orders" ∉ otherConnector.connectors ∧ slotOr ascii none "cdc-orders" ∉ otherConnector.slots := by
  have hrun : Script.exec (teardown accepting ascii "cdc-orders" (some "orders")) twoConnectors =
      (.ok ⟨⟩, otherConnector) := by rfl
  exact ⟨hrun, (teardown_iff accepting ascii "cdc-orders" (some "orders") none true _ _ hrun).2
    ⟨Or.inr rfl, Or.inr ⟨2, by decide, rfl⟩⟩⟩

/-- An environment in which the `DELETE` is answered 409 and the slot stays active. -/
def refusing : Behaviour Unit where
  __ := accepting
  delete := .ok 409
  removes := false
  dropSlot _ := .refused ()

/-- **A `teardown` that returns and leaves both.** -/
theorem teardown_leaves_both :
    Script.exec (teardown refusing ascii "cdc-orders" (some "orders")) oneConnector =
      (.ok ⟨⟩, ⟨["cdc-orders"], ["cdc_orders_slot"], [], []⟩) ∧
      slotOr ascii none "cdc-orders" = "cdc_orders_slot" := by
  constructor
  · rfl
  · decide

end SparkDev.Connect
