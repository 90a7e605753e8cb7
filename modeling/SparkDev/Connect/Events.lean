import SparkDev.Py.Dict

/-!
# `read_cdc_events` and `op_counts`

The reader puts `None` where a record has no operation to show: for a null value, for an
empty one, and for a document without an `op`, such as the flattened rows of an unwrapped
topic. `op_counts` counts every `None` as a tombstone.

* `readCdcEvents_eq`: one event for each record, in order.
* `get?_opCounts`: what is counted, and that the counts add up (`sum_opCounts`).
* `counts_agree_iff`: the tombstones counted are the null values of the topic exactly when
  every other record has an operation of its own.
-/

namespace SparkDev.Connect

open Py

variable {Json : Type}

/-- A JSON object: the text of its `op`, `none` when it has none or a null there, its `before`
and `after`, and the object itself. -/
structure Document (Json : Type) where
  op : Option String
  before : Option Json
  after : Option Json
  raw : Json
  deriving DecidableEq

/-- The value of a record. -/
inductive Value (Json : Type) where
  | null
  /-- `b""`. -/
  | empty
  | document (d : Document Json)
  deriving DecidableEq

/-- The `value_deserializer`, with `json.loads` of what it returns: `b.decode() if b else None`. -/
def Value.decoded : Value Json → Option (Document Json)
  | .null => none
  | .empty => none
  | .document d => some d

/-- An item of `read_cdc_events`. -/
structure Event (Json : Type) where
  op : Option String
  before : Option Json
  after : Option Json
  raw : Option Json
  deriving DecidableEq

/-- The item the loop appends for a record. -/
def readEvent (m : Value Json) : Event Json :=
  match m.decoded with
  | none => ⟨none, none, none, none⟩
  | some v => ⟨v.op, v.before, v.after, some v.raw⟩

/-- `read_cdc_events`. -/
def readCdcEvents (topic : List (Value Json)) : List (Event Json) :=
  topic.foldl (fun out m => out ++ [readEvent m]) []

/-- `e["op"] if e["op"] is not None else "tombstone"`. -/
def opKey (e : Event Json) : String := e.op.getD "tombstone"

/-- `op_counts`. -/
def opCounts (events : List (Event Json)) : Dict String ℕ :=
  events.foldl (fun counts e => counts.count (opKey e)) .empty

/-- `e` is the item of record `m`. -/
def ItemOf (m : Value Json) (e : Event Json) : Prop :=
  match m with
  | .null => e = ⟨none, none, none, none⟩
  | .empty => e = ⟨none, none, none, none⟩
  | .document d => e = ⟨d.op, d.before, d.after, some d.raw⟩

/-- The events and their counts agree with the topic. -/
structure CountsAgree (topic : List (Value Json)) : Prop where
  items : List.Forall₂ ItemOf topic (readCdcEvents topic)
  total : (opCounts (readCdcEvents topic)).sum = topic.length
  tombstones : ((opCounts (readCdcEvents topic)).get? "tombstone").getD 0 =
    topic.countP fun m => m matches .null

/-- A record with an operation that is not called `tombstone`. -/
def HasOp (m : Value Json) : Prop := ∃ d op, m = .document d ∧ d.op = some op ∧ op ≠ "tombstone"

variable {topic : List (Value Json)} {m : Value Json}

/-- **One event for each record, in order.** -/
theorem readCdcEvents_eq (topic : List (Value Json)) : readCdcEvents topic = topic.map readEvent := by
  have hfold : ∀ (topic : List (Value Json)) (out : List (Event Json)),
      topic.foldl (fun out m => out ++ [readEvent m]) out = out ++ topic.map readEvent := by
    intro topic
    induction topic with
    | nil => intro out; simp
    | cons m topic ih =>
      intro out
      rw [List.foldl_cons, ih, List.map_cons, List.append_assoc, List.singleton_append]
  exact hfold topic []

theorem itemOf_readEvent (m : Value Json) : ItemOf m (readEvent m) := by
  rcases m with _ | _ | d <;> rfl

theorem opCounts_eq (events : List (Event Json)) :
    opCounts events = (events.map opKey).foldl Dict.count .empty := by
  unfold opCounts
  rw [List.foldl_map]

/-- **The counts add up.** -/
theorem sum_opCounts (events : List (Event Json)) : (opCounts events).sum = events.length := by
  rw [opCounts_eq, Dict.sum_counted, List.length_map]
  exact Nat.zero_add _

/-- **What is counted under a key.** -/
theorem get?_opCounts (events : List (Event Json)) (k : String) :
    ((opCounts events).get? k).getD 0 = events.countP fun e => opKey e == k := by
  rw [opCounts_eq, Dict.get?_counted, Dict.get?_empty, Option.getD_none, Nat.zero_add, List.count,
    List.countP_map]
  rfl

/-- A record is counted as a tombstone unless it has an operation. -/
theorem opKey_readEvent (m : Value Json) : opKey (readEvent m) = "tombstone" ↔ ¬HasOp m := by
  unfold HasOp
  rcases m with _ | _ | ⟨op, before, after, raw⟩
  · exact iff_of_true rfl (by simp)
  · exact iff_of_true rfl (by simp)
  · rcases op with _ | op
    · exact iff_of_true rfl (by simp)
    · simp [opKey, readEvent, Value.decoded]

theorem countP_eq_iff {α : Type*} {p q : α → Bool} {l : List α} (h : ∀ x ∈ l, p x = true → q x = true) :
    l.countP q = l.countP p ↔ ∀ x ∈ l, q x = true → p x = true := by
  have hsplit := List.countP_eq_countP_filter_add l q p
  have hfirst : (l.filter p).countP q = l.countP p := by
    rw [List.countP_filter]
    refine List.countP_congr fun x hx => ?_
    rw [Bool.and_eq_true, and_iff_right_of_imp (h x hx)]
  rw [hsplit, hfirst, Nat.add_eq_left, List.countP_eq_zero]
  simp only [List.mem_filter]
  constructor
  · intro hrest x hx hq
    by_contra hp
    exact hrest x ⟨hx, by simpa using hp⟩ hq
  · rintro hall x ⟨hx, hp⟩ hq
    simp [hall x hx hq] at hp

/-- **When the counts agree with the topic**: exactly when every record without a null value
has an operation, and none is called `tombstone`. -/
theorem counts_agree_iff (topic : List (Value Json)) :
    CountsAgree topic ↔ ∀ m ∈ topic, m = .null ∨ HasOp m := by
  have hnull : ∀ m : Value Json, (m matches .null) = true ↔ m = .null := by
    intro m
    rcases m with _ | _ | d <;> simp
  have hcount : ((opCounts (readCdcEvents topic)).get? "tombstone").getD 0 =
      topic.countP fun m => opKey (readEvent m) == "tombstone" := by
    rw [get?_opCounts, readCdcEvents_eq, List.countP_map]
    rfl
  have htomb : ((opCounts (readCdcEvents topic)).get? "tombstone").getD 0 =
      (topic.countP fun m => m matches .null) ↔ ∀ m ∈ topic, m = .null ∨ HasOp m := by
    rw [hcount, countP_eq_iff fun m _ hm => ?_]
    · refine forall₂_congr fun m _ => ?_
      rw [hnull, beq_iff_eq, opKey_readEvent]
      exact or_iff_not_imp_right.symm
    · rw [(hnull m).1 hm]
      rfl
  rw [← htomb]
  refine ⟨fun h => h.tombstones, fun h => ⟨?_, ?_, h⟩⟩
  · rw [readCdcEvents_eq, List.forall₂_map_right_iff]
    exact List.forall₂_same.2 fun m _ => itemOf_readEvent m
  · rw [sum_opCounts, readCdcEvents_eq, List.length_map]

/-- A flattened row of an unwrapped topic. -/
def unwrappedRow : Document String := ⟨none, none, none, "row 201"⟩

/-- **Tombstones that are none**: a flattened row, and an empty value. -/
theorem rows_counted_as_tombstones :
    ((opCounts (readCdcEvents [Value.document unwrappedRow])).get? "tombstone") = some 1 ∧
      ((opCounts (readCdcEvents [(Value.empty : Value String)])).get? "tombstone") = some 1 ∧
      ¬CountsAgree [Value.document unwrappedRow] := by
  refine ⟨by decide, by decide, fun h => ?_⟩
  exact absurd h.tombstones (by decide)

end SparkDev.Connect
