import Mathlib.Data.List.Perm.Basic
import SparkDev.Runs.Stream
import SparkDev.Sql.Logic

/-!
# The dead-letter split

The messages of a topic are parsed by `from_json`. One stream writes those with an id
to the main table, another those without to the dead-letter table, each with its own
checkpoint. The detection of step 2, `isPoison`, also asks for a non-empty value.

* `once_each`: every message is in exactly one of the tables, once, and the main table
  has no null id.
* `exact_iff`: the dead-letter table is what the detection flags exactly when no message
  without an id has a null or an empty value.
* `tombstone_in_dlq`: a null value goes to the dead-letter table unflagged.
-/

namespace SparkDev.Kafka

open Runs Sql

/-- A message, as the source reads it, its value cast to a string. -/
structure Message where
  value : Option String
  topic : String
  partition : ℕ
  offset : ℕ
  timestamp : ℤ
  deriving DecidableEq, Repr

/-- The struct of the schema, and a row of the main table. `δ` is the type of doubles. -/
structure Parsed (δ : Type) where
  id : Option ℤ
  amount : Option δ
  status : Option String
  deriving DecidableEq, Repr

variable {δ : Type} (fromJson : Option String → Option (Parsed δ))

/-- `parsed.id`, which is null in a null struct. -/
def parsedId (m : Message) : Option ℤ := (fromJson m.value).bind Parsed.id

/-- `x.isNull()`. -/
def isNull {β : Type} (x : Option β) : Truth := if x.isNone = true then .tt else .ff

/-- `is_poison`. -/
def isPoison (m : Message) : Truth :=
  ((isNull (parsedId fromJson m)).and (isNull m.value).not).and
    (compare (fun a b => decide (a > b)) (m.value.map String.length) (some 0))

/-- `detected_poison`. -/
def detectedPoison (topic : List Message) : ℕ :=
  (topic.filter fun m => (isPoison fromJson m).holds).length

/-- `detected_good`. -/
def detectedGood (topic : List Message) : ℕ :=
  (topic.filter fun m => (isPoison fromJson m).not.holds).length

/-- `poison_flag`. -/
def poisonFlag (m : Message) : Truth := isNull (parsedId fromJson m)

/-- `clean_df`. -/
def cleanDf : Query Message (Parsed δ) where
  keep m := (poisonFlag fromJson m).not.holds
  row m :=
    { id := parsedId fromJson m
      amount := (fromJson m.value).bind Parsed.amount
      status := (fromJson m.value).bind Parsed.status }

/-- `dlq_df`. -/
def dlqDf : Query Message Message where
  keep m := (poisonFlag fromJson m).holds
  row m := m

/-- The two streams, `q_main` and `q_dlq`. -/
structure Streams (δ : Type) where
  main : Progress (Parsed δ)
  dlq : Progress Message

/-- Both tables empty, no checkpoint. -/
def Streams.start : Streams δ := ⟨.start, .start⟩

/-- Either stream takes a step. -/
inductive Streams.Step (topic : List Message) : Streams δ → Act ⊕ Act → Streams δ → Prop where
  | main {s : Streams δ} {a : Act} {main' : Progress (Parsed δ)}
      (h : (cleanDf fromJson).Step topic s.main a main') :
      Streams.Step topic s (.inl a) { s with main := main' }
  | dlq {s : Streams δ} {a : Act} {dlq' : Progress Message}
      (h : (dlqDf fromJson).Step topic s.dlq a dlq') :
      Streams.Step topic s (.inr a) { s with dlq := dlq' }

/-- Both streams have read the topic. -/
def Streams.Done (topic : List Message) (s : Streams δ) : Prop :=
  Query.Drained topic s.main ∧ Query.Drained topic s.dlq

/-- The routing is exact. -/
structure Exact (topic : List Message) (s : Streams δ) : Prop where
  /-- Every message is in one of the tables, once. -/
  once : ∃ good poison, topic.Perm (good ++ poison) ∧
    s.main.table.Perm (good.map (cleanDf fromJson).row) ∧ s.dlq.table.Perm (poison.map (dlqDf fromJson).row)
  flagged : s.dlq.table.Perm
    ((topic.filter fun m => (isPoison fromJson m).holds).map (dlqDf fromJson).row)
  poisonCount : detectedPoison fromJson topic = s.dlq.table.length
  goodCount : detectedGood fromJson topic = s.main.table.length
  nonNull : ∀ r ∈ s.main.table, r.id ≠ none

variable {fromJson} {topic : List Message} {s t : Streams δ} {m : Message}

/-! ## The two streams -/

theorem reach_main (h : Reach (Streams.Step fromJson topic) s t) :
    Reach ((cleanDf fromJson).Step topic) s.main t.main := by
  refine reach_invariant (I := fun t => Reach _ s.main t.main) ?_ (reach_refl _) h
  rintro u _ _ hu (⟨h⟩ | ⟨h⟩)
  · exact hu.trans (reach_step h)
  · exact hu

theorem reach_dlq (h : Reach (Streams.Step fromJson topic) s t) :
    Reach ((dlqDf fromJson).Step topic) s.dlq t.dlq := by
  refine reach_invariant (I := fun t => Reach _ s.dlq t.dlq) ?_ (reach_refl _) h
  rintro u _ _ hu (⟨h⟩ | ⟨h⟩)
  · exact hu
  · exact hu.trans (reach_step h)

/-- The streams do not wait for each other: both finish. -/
theorem exists_done (fromJson : Option String → Option (Parsed δ)) (topic : List Message) :
    ∃ s, Reach (Streams.Step fromJson topic) .start s ∧ s.Done topic := by
  obtain ⟨main, hmain, hmainDone⟩ := Query.reach_drained (Query.start_ok (cleanDf fromJson) topic)
  obtain ⟨dlq, hdlq, hdlqDone⟩ := Query.reach_drained (Query.start_ok (dlqDf fromJson) topic)
  have hfirst : Reach (Streams.Step fromJson topic) .start ⟨main, .start⟩ :=
    reach_invariant (I := fun main => Reach _ Streams.start ⟨main, .start⟩)
      (fun _ _ _ hu h => hu.trans (reach_step (.main h))) (reach_refl _) hmain
  have hsecond : Reach (Streams.Step fromJson topic) .start ⟨main, dlq⟩ :=
    reach_invariant (I := fun dlq => Reach _ Streams.start ⟨main, dlq⟩)
      (fun _ _ _ hu h => hu.trans (reach_step (.dlq h))) hfirst hdlq
  exact ⟨⟨main, dlq⟩, hsecond, hmainDone, hdlqDone⟩

/-- What the tables hold when both streams are done. -/
theorem done_tables (h : Reach (Streams.Step fromJson topic) .start s) (hd : s.Done topic) :
    s.main.table = (cleanDf fromJson).rows topic ∧ s.dlq.table = (dlqDf fromJson).rows topic :=
  ⟨Query.drained_table (reach_main h) hd.1, Query.drained_table (reach_dlq h) hd.2⟩

/-! ## Routing and detection -/

theorem isNull_eq_tt {β : Type} {x : Option β} : isNull x = .tt ↔ x = none := by
  rcases x with _ | b <;> simp [isNull]

/-- The flag is never UNKNOWN. -/
theorem poisonFlag_not (m : Message) :
    (poisonFlag fromJson m).not.holds = !(poisonFlag fromJson m).holds := by
  unfold poisonFlag isNull
  split <;> rfl

theorem clean_keep (m : Message) : (cleanDf fromJson).keep m = !(poisonFlag fromJson m).holds :=
  poisonFlag_not m

theorem poisonFlag_holds : (poisonFlag fromJson m).holds = true ↔ parsedId fromJson m = none := by
  rw [Truth.holds_iff, poisonFlag, isNull_eq_tt]

/-- What the detection flags has no id and a value that is not empty. -/
theorem isPoison_holds : (isPoison fromJson m).holds = true ↔
    parsedId fromJson m = none ∧ ∃ v, m.value = some v ∧ v ≠ "" := by
  unfold isPoison
  rw [Truth.holds_iff, Truth.and_eq_tt, Truth.and_eq_tt, isNull_eq_tt, and_assoc]
  refine and_congr_right fun _ => ?_
  rcases m.value with _ | v
  · simp [isNull, Truth.not]
  · simp [isNull, Truth.not, Sql.compare, Nat.pos_iff_ne_zero]

/-- Nor is the detection: a null value makes it FALSE. -/
theorem isPoison_not (m : Message) :
    (isPoison fromJson m).not.holds = !(isPoison fromJson m).holds := by
  have hknown : isPoison fromJson m ≠ .unknown := by
    unfold isPoison isNull
    rcases m.value with _ | v <;> rcases (parsedId fromJson m).isNone <;>
      simp [Truth.not, Truth.and, Sql.compare]
    split <;> simp
  rcases h : isPoison fromJson m
  · rfl
  · rfl
  · exact absurd h hknown

/-- What is flagged goes to the dead-letter table. -/
theorem poisonFlag_of_isPoison (h : (isPoison fromJson m).holds = true) :
    (poisonFlag fromJson m).holds = true :=
  poisonFlag_holds.2 (isPoison_holds.1 h).1

/-- The messages the two agree on. -/
theorem flags_agree_iff : ((poisonFlag fromJson m).holds = true → (isPoison fromJson m).holds = true) ↔
    (parsedId fromJson m = none → ∃ v, m.value = some v ∧ v ≠ "") := by
  rw [poisonFlag_holds, isPoison_holds]
  exact ⟨fun h hid => (h hid).2, fun h hid => ⟨hid, h hid⟩⟩

/-- **Every message is in exactly one of the tables, once**, and no row of the main table has a
null id, whatever the messages are. -/
theorem once_each (fromJson : Option String → Option (Parsed δ)) (topic : List Message) :
    (∃ good poison, topic.Perm (good ++ poison) ∧
      (cleanDf fromJson).rows topic = good.map (cleanDf fromJson).row ∧
      (dlqDf fromJson).rows topic = poison.map (dlqDf fromJson).row) ∧
    ∀ r ∈ (cleanDf fromJson).rows topic, r.id ≠ none := by
  constructor
  · refine ⟨topic.filter (cleanDf fromJson).keep, topic.filter (dlqDf fromJson).keep, ?_, rfl, rfl⟩
    have hkeep : (cleanDf fromJson).keep = fun m => !(dlqDf fromJson).keep m := funext clean_keep
    rw [hkeep]
    exact (List.perm_append_comm.trans (List.filter_append_perm (dlqDf fromJson).keep topic)).symm
  · intro r hr hid
    obtain ⟨m, hm, rfl⟩ := List.mem_map.1 hr
    have hkeep := (List.mem_filter.1 hm).2
    rw [clean_keep, poisonFlag_holds.2 hid] at hkeep
    cases hkeep

/-- Two filters of which one keeps more agree when they keep as many. -/
theorem filter_agree {μ : Type} {p q : μ → Bool} {l : List μ} (hpq : ∀ m, p m = true → q m = true)
    (hlen : (l.filter p).length = (l.filter q).length) : ∀ m ∈ l, q m = true → p m = true := by
  have heq : l.filter p = l.filter q := (List.monotone_filter_right l hpq).eq_of_length hlen
  intro m hm hq
  have hmem : m ∈ l.filter p := heq ▸ List.mem_filter.2 ⟨hm, hq⟩
  exact (List.mem_filter.1 hmem).2

/-- The routing of a finished pipeline is exact when the two flags agree on the topic. -/
theorem exact_of_agree (hmain : s.main.table = (cleanDf fromJson).rows topic)
    (hdlq : s.dlq.table = (dlqDf fromJson).rows topic)
    (hagree : ∀ m ∈ topic, (poisonFlag fromJson m).holds = true → (isPoison fromJson m).holds = true) :
    Exact fromJson topic s := by
  obtain ⟨⟨good, poison, hperm, hgood, hpoison⟩, hid⟩ := once_each fromJson topic
  have hflags : ∀ m ∈ topic, (isPoison fromJson m).holds = (poisonFlag fromJson m).holds :=
    fun m hm => Bool.eq_iff_iff.2 ⟨poisonFlag_of_isPoison, hagree m hm⟩
  have hfilter : (topic.filter fun m => (isPoison fromJson m).holds) = topic.filter (dlqDf fromJson).keep :=
    List.filter_congr hflags
  have hfilterNot : (topic.filter fun m => (isPoison fromJson m).not.holds) =
      topic.filter (cleanDf fromJson).keep :=
    List.filter_congr fun m hm => by
      rw [isPoison_not, hflags m hm, clean_keep]
  exact {
    once := ⟨good, poison, hperm, by rw [hmain, hgood], by rw [hdlq, hpoison]⟩
    flagged := by rw [hdlq, hfilter, Query.rows]
    poisonCount := by rw [detectedPoison, hfilter, hdlq, Query.rows, List.length_map]
    goodCount := by rw [detectedGood, hfilterNot, hmain, Query.rows, List.length_map]
    nonNull := hmain ▸ hid }

/-- **When the routing is exact.** Both streams finish, and however they are cut into batches and
interleaved, the tables are exactly what the detection says if and only if every message without
an id has a value that is neither null nor empty. -/
theorem exact_iff (fromJson : Option String → Option (Parsed δ)) (topic : List Message) :
    (∃ s, Reach (Streams.Step fromJson topic) .start s ∧ s.Done topic) ∧
    ∀ s, Reach (Streams.Step fromJson topic) .start s → s.Done topic →
      (Exact fromJson topic s ↔
        ∀ m ∈ topic, parsedId fromJson m = none → ∃ v, m.value = some v ∧ v ≠ "") := by
  refine ⟨exists_done fromJson topic, fun s hs hd => ?_⟩
  obtain ⟨hmain, hdlq⟩ := done_tables hs hd
  have hagree : (∀ m ∈ topic, (poisonFlag fromJson m).holds = true → (isPoison fromJson m).holds = true) ↔
      ∀ m ∈ topic, parsedId fromJson m = none → ∃ v, m.value = some v ∧ v ≠ "" :=
    forall₂_congr fun _ _ => flags_agree_iff
  rw [← hagree]
  constructor
  · intro h
    have hlen := h.poisonCount
    rw [hdlq, detectedPoison, Query.rows, List.length_map] at hlen
    exact filter_agree (fun _ => poisonFlag_of_isPoison) hlen
  · exact exact_of_agree hmain hdlq

/-- A message with a null value. -/
def tombstone : Message := ⟨none, "kaf6_orders", 0, 0, 0⟩

/-- **A null value is written to the dead-letter table and not detected**: `from_json` gives a null
struct for it. -/
theorem tombstone_in_dlq :
    ¬∀ s, Reach (Streams.Step (fun _ => (none : Option (Parsed ℤ))) [tombstone]) .start s →
      s.Done [tombstone] → Exact (fun _ => (none : Option (Parsed ℤ))) [tombstone] s := by
  intro h
  obtain ⟨s, hs, hd⟩ := exists_done (fun _ => (none : Option (Parsed ℤ))) [tombstone]
  have hcount := (h s hs hd).poisonCount
  rw [(done_tables hs hd).2] at hcount
  cases hcount

end SparkDev.Kafka
