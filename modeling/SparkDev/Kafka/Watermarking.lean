import Mathlib.Data.Finset.Max
import SparkDev.Runs.Watermark

/-!
# The watermarked count of clicks

`run_windowed_stream` counts the clicks of each minute of `event_time` behind a watermark
of two minutes, in append mode to an Iceberg table, with `trigger(availableNow=True)` over
one checkpoint. The engine is a parameter, of which the lab's notes are assumed. Times are
in seconds.

* `table_brackets`: what the table says of a window, whatever came late.
* `prompt_exact`: when no click comes two minutes after its window has ended, the table is
  the plain count of the topic. So it is in the lab, straggler and all.
* `open_windows_bounded`: at most three windows are held between runs.
-/

namespace SparkDev.Kafka

open Runs

/-- A record of the topic, by the timestamp that its `event_time` is cast to. -/
structure Click where
  eventTime : Option ℤ
  deriving DecidableEq, Repr

/-- `WATERMARK`. -/
def watermark : ℤ := 120

/-- `WINDOW`. -/
def windowSize : ℤ := 60

/-- The windows of `withWatermark` and `window`, by their start. -/
def clickWindows : Windowing ℤ ℤ where
  window t := t - t % windowSize
  close w := w + windowSize
  back t := t - watermark
  lt_close t := by
    have hmod := Int.emod_lt_of_pos t (show 0 < windowSize by decide)
    omega

/-- `parsed_batch`: the event times of a read of the topic. -/
def parsedBatch (records : List Click) : List ℤ := records.filterMap Click.eventTime

/-- `no_wm`: the windowed count without a watermark. -/
def windowedCounts (records : List Click) : List (ℤ × ℕ) :=
  ((parsedBatch records).map clickWindows.window).dedup.map
    fun w => (w, clickWindows.tally (parsedBatch records) w)

variable {σ : Type*}

/-- An engine that runs `run_windowed_stream` as its documentation says. The first watermark is the epoch. -/
def RunsWindowedStream (q : WindowQuery σ ℤ ℤ) : Prop := q.Documented clickWindows 0

/-- The topic, the checkpoint and the sink. -/
def ClickStep (q : WindowQuery σ ℤ ℤ) : Windowed σ Click → WindowAct Click → Windowed σ Click → Prop :=
  q.Step Click.eventTime

/-- A window has ended: some click came two minutes after it. -/
def Ended (clicks : List ℤ) (w : ℤ) : Prop := w + windowSize ≤ 0 ∨ ∃ e ∈ clicks, w + windowSize + watermark ≤ e

variable {q : WindowQuery σ ℤ ℤ} {s : Windowed σ Click}

theorem reach_clicks (hq : RunsWindowedStream q) (h : Reach (ClickStep q) q.begin s) :
    WindowQuery.OK clickWindows 0 q Click.eventTime s := WindowQuery.reach_ok hq h

/-- When a window has ended for the watermark. -/
theorem ended_iff (w : ℤ) (l : List ℤ) : clickWindows.close w ≤ clickWindows.frontier 0 l ↔ Ended l w := by
  rw [Windowing.le_frontier_iff]
  have hback : ∀ e : ℤ, clickWindows.close w ≤ clickWindows.back e ↔ w + windowSize + watermark ≤ e := fun e => by
    show w + windowSize ≤ e - watermark ↔ _
    omega
  simp only [hback]
  exact Iff.rfl

theorem mem_windowedCounts {records : List Click} {w : ℤ} {n : ℕ} : (w, n) ∈ windowedCounts records ↔
    0 < n ∧ n = clickWindows.tally (parsedBatch records) w := by
  unfold windowedCounts
  rw [List.mem_map]
  constructor
  · rintro ⟨w', hw', h⟩
    obtain ⟨rfl, rfl⟩ := Prod.mk.inj h
    exact ⟨List.count_pos_iff.2 (List.mem_dedup.1 hw'), rfl⟩
  · rintro ⟨hpos, rfl⟩
    exact ⟨w, List.mem_dedup.2 (List.count_pos_iff.1 hpos), rfl⟩

/-- A window with a click ends after the epoch. -/
theorem close_pos_of_tally {l : List ℤ} (hpos : ∀ e ∈ l, 0 ≤ e) {w : ℤ} (h : 0 < clickWindows.tally l w) :
    0 < w + windowSize := by
  obtain ⟨e, he, rfl⟩ := Windowing.tally_pos.1 h
  exact (hpos e he).trans_lt (clickWindows.lt_close e)

/-! ## A run of the engine that counts -/

/-- The engine that counts in lists, on the clicks. -/
def clickCounting : WindowQuery (WindowQuery.Counts clickWindows) ℤ ℤ := WindowQuery.counting clickWindows 0

theorem clickCounting_runs : RunsWindowedStream clickCounting := WindowQuery.counting_documented clickWindows 0

/-- Some records are produced, and a run reads them in one batch and acts on the watermark in another. -/
def runOver (s : Windowed (WindowQuery.Counts clickWindows) Click) (records : List Click) :
    Windowed (WindowQuery.Counts clickWindows) Click :=
  ⟨(s.query.batch (parsedBatch records)).batch [], s.read ++ records, []⟩

theorem produce_reach (s : Windowed σ Click) (records : List Click) :
    Reach (ClickStep q) s { s with ahead := s.ahead ++ records } := by
  induction records generalizing s with
  | nil =>
    rw [List.append_nil]
    exact reach_refl s
  | cons r records ih =>
    have hone : Reach (ClickStep q) s { s with ahead := s.ahead ++ [r] } := reach_step .produce
    have hrest := ih { s with ahead := s.ahead ++ [r] }
    rw [List.append_assoc] at hrest
    exact hone.trans hrest

theorem runOver_reach {s : Windowed (WindowQuery.Counts clickWindows) Click} (hahead : s.ahead = [])
    (records : List Click) : Reach (ClickStep clickCounting) s (runOver s records) := by
  obtain ⟨query, read, ahead⟩ := s
  obtain rfl : ahead = [] := hahead
  have hread : Reach (ClickStep clickCounting) ⟨query, read, records⟩
      ⟨query.batch (parsedBatch records), read ++ records, []⟩ := by
    have hstep : ClickStep clickCounting ⟨query, read, records⟩ (.batch records.length)
        ⟨query.batch ((records.take records.length).filterMap Click.eventTime), read ++ records.take records.length,
          records.drop records.length⟩ := .batch rfl
    rw [List.take_length, List.drop_length] at hstep
    exact reach_step hstep
  have hact : Reach (ClickStep clickCounting) ⟨query.batch (parsedBatch records), read ++ records, []⟩
      (runOver ⟨query, read, []⟩ records) := by
    have hstep : ClickStep clickCounting ⟨query.batch (parsedBatch records), read ++ records, []⟩ (.batch 0)
        ⟨(query.batch (parsedBatch records)).batch [], (read ++ records) ++ [], []⟩ := .batch rfl
    rw [List.append_nil] at hstep
    exact reach_step hstep
  exact ((produce_reach ⟨query, read, []⟩ records).trans hread).trans hact

theorem runOver_rest (s : Windowed (WindowQuery.Counts clickWindows) Click) (records : List Click) :
    clickCounting.Rest clickWindows (runOver s records) :=
  ⟨rfl, fun _ hw => (WindowQuery.Counts.mem_stored _ (List.count_pos_iff.1 hw)).1⟩

/-! ## The table -/

/-- **The table brackets the plain count.** When a run has come to its end, the table has a window only if
some click came two minutes after its end, and then with no more than the plain count of the topic and no
less than the clicks that came before that; and it has every such window that has one of these. -/
theorem table_brackets (q : WindowQuery σ ℤ ℤ) (hq : RunsWindowedStream q) (s : Windowed σ Click)
    (hr : Reach (ClickStep q) q.begin s) (hrest : q.Rest clickWindows s) (w : ℤ) :
    (∀ n, (w, n) ∈ q.sink s.query → Ended (parsedBatch s.read) w ∧
        clickWindows.tally (clickWindows.prompt 0 (parsedBatch s.read)) w ≤ n ∧
        n ≤ clickWindows.tally (parsedBatch s.read) w) ∧
      (Ended (parsedBatch s.read) w → (∃ e ∈ clickWindows.prompt 0 (parsedBatch s.read), clickWindows.window e = w) →
        ∃ n, (w, n) ∈ q.sink s.query) := by
  have hok := reach_clicks hq hr
  have hended : clickWindows.close w ≤ q.watermark s.query ↔ Ended (parsedBatch s.read) w := by
    rw [hok.mark]
    exact ended_iff w _
  have hprompt : clickWindows.tally (clickWindows.prompt 0 (parsedBatch s.read)) w ≤ q.counted s.query w :=
    hok.prompt_le w
  constructor
  · intro n hmem
    obtain ⟨hclose, -, rfl⟩ := (hok.mem_sink hrest w n).1 hmem
    exact ⟨hended.1 hclose, hprompt, hok.counted_le w⟩
  · intro hclose hclick
    have hpos := Windowing.tally_pos.2 hclick
    exact ⟨_, (hok.mem_sink hrest w _).2 ⟨hended.2 hclose, hpos.trans_le hprompt, rfl⟩⟩

/-- Two clicks, the second long after the first, and a run; then one more of the first minute, and a run. -/
def lateClick : Windowed (WindowQuery.Counts clickWindows) Click :=
  runOver (runOver clickCounting.begin [⟨some 70⟩, ⟨some 600⟩]) [⟨some 80⟩]

/-- The first minute has two clicks, of which one is late. -/
theorem table_brackets_late :
    (∃ n, (60, n) ∈ clickCounting.sink lateClick.query) ∧
      ∀ n, (60, n) ∈ clickCounting.sink lateClick.query → 1 ≤ n ∧ n ≤ 2 := by
  have hreach : Reach (ClickStep clickCounting) clickCounting.begin lateClick :=
    (runOver_reach rfl _).trans (runOver_reach rfl _)
  obtain ⟨honly, hmem⟩ := table_brackets clickCounting clickCounting_runs lateClick hreach (runOver_rest _ _) 60
  exact ⟨hmem (Or.inr ⟨600, by decide, by decide⟩) ⟨70, by decide, by decide⟩, fun n hn => (honly n hn).2⟩

/-- **The table is the plain count of the windows that have ended**, when no click comes two minutes after
the end of its window: every click is counted, and the table has a window exactly when a click came two
minutes after its end, with the count that a batch read of the topic has for it. -/
theorem prompt_exact (q : WindowQuery σ ℤ ℤ) (hq : RunsWindowedStream q) (s : Windowed σ Click)
    (hr : Reach (ClickStep q) q.begin s) (hrest : q.Rest clickWindows s) (hpos : ∀ e ∈ parsedBatch s.read, 0 ≤ e)
    (hprompt : (parsedBatch s.read).Pairwise fun e e' => e < clickWindows.window e' + windowSize + watermark) :
    (∀ w, q.counted s.query w = clickWindows.tally (parsedBatch s.read) w) ∧
      ∀ w n, (w, n) ∈ q.sink s.query ↔
        (w, n) ∈ windowedCounts s.read ∧ ∃ e ∈ parsedBatch s.read, w + windowSize + watermark ≤ e := by
  have hok := reach_clicks hq hr
  have hall : clickWindows.prompt 0 (parsedBatch s.read) = parsedBatch s.read := by
    refine Windowing.prompt_eq_self (fun e he => (hpos e he).trans_lt (clickWindows.lt_close e)) ?_
    refine hprompt.imp fun {e e'} hlt => ?_
    show e - watermark < clickWindows.window e' + windowSize
    omega
  -- every click is prompt, so the bounds meet
  have hcounted : ∀ w, q.counted s.query w = clickWindows.tally (parsedBatch s.read) w := fun w => by
    have hle : clickWindows.tally (clickWindows.prompt 0 (parsedBatch s.read)) w ≤ q.counted s.query w :=
      hok.prompt_le w
    rw [hall] at hle
    exact Nat.le_antisymm (hok.counted_le w) hle
  refine ⟨hcounted, fun w n => ?_⟩
  rw [hok.mem_sink hrest, hok.mark, hcounted, mem_windowedCounts]
  have hended : clickWindows.close w ≤ clickWindows.frontier 0 (s.read.filterMap Click.eventTime) ↔
      Ended (parsedBatch s.read) w := ended_iff w _
  rw [hended]
  constructor
  · -- a window before the epoch has no click
    rintro ⟨hend, hn, rfl⟩
    have hclose := close_pos_of_tally hpos hn
    exact ⟨⟨hn, rfl⟩, hend.resolve_left (not_le.2 hclose)⟩
  · rintro ⟨⟨hn, hcount⟩, hend⟩
    exact ⟨Or.inr hend, hn, hcount⟩

/-- 2026-06-24 10:00, the `BASE` of the lab. -/
def base : ℤ := 1782295200

/-- `ontime`. -/
def ontime (i : ℕ) : Click :=
  let minute := i / 20
  let second := i % 20 * 3
  ⟨some (base + 60 * minute + second)⟩

/-- The on-time batch. -/
def ontimeClicks : List Click := (List.range 60).map ontime

/-- Run #1 over the on-time batch, then run #2 over the straggler at 10:00:30. -/
def lab : Windowed (WindowQuery.Counts clickWindows) Click :=
  runOver (runOver clickCounting.begin ontimeClicks) [⟨some (base + 30)⟩]

theorem lab_reach : Reach (ClickStep clickCounting) clickCounting.begin lab :=
  (runOver_reach rfl _).trans (runOver_reach rfl _)

/-- The newest click of the lab is at 10:02:57: the straggler is counted, and no window has ended, not even
that of 10:00. -/
theorem prompt_exact_lab :
    clickCounting.counted lab.query base = 21 ∧ clickCounting.sink lab.query = [] := by
  obtain ⟨hcounted, hsink⟩ := prompt_exact clickCounting clickCounting_runs lab lab_reach (runOver_rest _ _)
    (by decide +kernel) (by decide +kernel)
  have hlast : ∀ e ∈ parsedBatch lab.read, e ≤ base + 177 := by decide +kernel
  have hfirst : ∀ p ∈ windowedCounts lab.read, base ≤ p.1 := by decide +kernel
  have hten : clickWindows.tally (parsedBatch lab.read) base = 21 := by decide +kernel
  refine ⟨(hcounted base).trans hten, List.eq_nil_iff_forall_not_mem.2 ?_⟩
  -- a window of the lab begins at 10:00 at the earliest, and would need a click at 10:03
  rintro ⟨w, n⟩ hmem
  obtain ⟨hcounts, e, he, hend⟩ := (hsink w n).1 hmem
  have hle := hlast e he
  have hge : base ≤ w := hfirst (w, n) hcounts
  have hend' : w + 60 + 120 ≤ e := hend
  omega

/-! ## What is held -/

/-- A window that is held has a click that was read. -/
theorem window_of_held (hok : WindowQuery.OK clickWindows 0 q Click.eventTime s) {w : ℤ}
    (hw : 0 < q.held s.query w) : ∃ e ∈ parsedBatch s.read, clickWindows.window e = w := by
  have hle : q.counted s.query w ≤ clickWindows.tally (parsedBatch s.read) w := hok.counted_le w
  unfold WindowQuery.counted at hle
  exact Windowing.tally_pos.1 (by omega)

/-- **The state is bounded**: however long the topic, at most three windows are held when a run has
come to its end, since a window ends no later than two minutes behind the clicks of another. -/
theorem open_windows_bounded (q : WindowQuery σ ℤ ℤ) (hq : RunsWindowedStream q) (s : Windowed σ Click)
    (hr : Reach (ClickStep q) q.begin s) (hrest : q.Rest clickWindows s) (ws : List ℤ) (hnodup : ws.Nodup)
    (hheld : ∀ w ∈ ws, 0 < q.held s.query w) : ws.length ≤ 3 := by
  have hok := reach_clicks hq hr
  -- the windows that are held lie within three minutes of the first of them
  by_cases hnil : ws = []
  · rw [hnil]
    exact Nat.zero_le _
  · obtain ⟨x, hx⟩ := List.exists_mem_of_ne_nil _ hnil
    have hne : ws.toFinset.Nonempty := ⟨x, List.mem_toFinset.2 hx⟩
    obtain ⟨w₀, hw₀, hmin⟩ := ws.toFinset.exists_min_image id hne
    have hfirst := hheld w₀ (List.mem_toFinset.1 hw₀)
    obtain ⟨e₀, -, hwin₀⟩ := window_of_held hok hfirst
    have hsub : ws ⊆ [w₀, w₀ + 60, w₀ + 120] := by
      intro w hw
      obtain ⟨e, he, hwin⟩ := window_of_held hok (hheld w hw)
      have hge : w₀ ≤ w := hmin w (List.mem_toFinset.2 hw)
      -- the first window is still open behind a click of this one
      have hopen : q.watermark s.query < w₀ + 60 := hrest.2 w₀ hfirst
      have hmark : e - 120 ≤ q.watermark s.query := by
        rw [hok.mark]
        exact (Windowing.le_frontier_iff _ _ _).2 (Or.inr ⟨e, he, le_rfl⟩)
      have hmod : e - e % 60 = w := hwin
      have hmod₀ : e₀ - e₀ % 60 = w₀ := hwin₀
      simp only [List.mem_cons, List.not_mem_nil, or_false]
      omega
    exact (hnodup.subperm hsub).length_le

/-- The lab holds three windows, so no other one. -/
theorem open_windows_bounded_lab : ¬0 < clickCounting.held lab.query (base - 60) := by
  intro hheld
  have hfour : [base - 60, base, base + 60, base + 120].length ≤ 3 :=
    open_windows_bounded clickCounting clickCounting_runs lab lab_reach (runOver_rest _ _) _ (by decide) (by
      rintro w hw
      rcases List.mem_cons.1 hw with rfl | hw
      · exact hheld
      · exact (by decide +kernel : ∀ w ∈ [base, base + 60, base + 120], 0 < clickCounting.held lab.query w) w hw)
  exact absurd hfour (by decide)

end SparkDev.Kafka
