import Hsmc.Link.Emits
import Hsmc.Link.Loop

/-
  `run()` loses no event it took from a race.

  The result of the `push_back` after a race is thrown away. `Ran` is a run of the loop beside
  the event channel, which anyone may send to at any time and which delivers in order; its log
  says where every event came from. The queue is empty whenever the loop races, so the push
  succeeds and everything pushed before has been popped (`race_loses_nothing`).
-/

namespace Hsmc

open Machine

variable {Ev Ctx Val : Type} {qn tn : Nat} {c : Chart} {u : UserCode Ev Ctx Val} {k : RunKind}

/-! ## What is pushed and what is popped -/

/-- What put an event into the queue. -/
inductive Source where
  /-- A call before `run()`. -/
  | before
  | emitted
  | during
  | channel
deriving DecidableEq, Repr

/-- Events of one source. -/
def ofSource (src : Source) (pushed : List (Source × Ev)) : List Ev :=
  (pushed.filter fun p => p.1 == src).map (·.2)

/-- The pushed events are those popped, in order, and then the queue. -/
def Split (pushed : List (Source × Ev)) (popped queue : List Ev) : Prop :=
  ∃ P Q, pushed = P ++ Q ∧ P.map (·.2) = popped ∧ Q.map (·.2) = queue

namespace Split

variable {pushed : List (Source × Ev)} {popped queue : List Ev}

theorem push (h : Split pushed popped queue) (new : List (Source × Ev)) :
    Split (pushed ++ new) popped (queue ++ new.map (·.2)) := by
  obtain ⟨P, Q, rfl, hP, hQ⟩ := h
  exact ⟨P, Q ++ new, List.append_assoc _ _ _, hP, by rw [List.map_append, hQ]⟩

theorem pop {front rest : List Ev} (h : Split pushed popped (front ++ rest)) :
    Split pushed (popped ++ front) rest := by
  obtain ⟨P, Q, rfl, hP, hQ⟩ := h
  obtain ⟨Q₁, Q₂, rfl, h₁, h₂⟩ := List.map_eq_append_iff.mp hQ
  exact ⟨P ++ Q₁, Q₂, (List.append_assoc _ _ _).symm, by rw [List.map_append, hP, h₁], h₂⟩

end Split

/-! ## Runs of the loop -/

/-- What became of events since `run()` was called. -/
structure Log (Ev : Type) where
  /-- Sent over the channel. -/
  sent : List Ev
  /-- Received from the channel by the race. -/
  received : List Ev
  /-- Accepted by the queue. -/
  pushed : List (Source × Ev)
  /-- Popped by `step`. -/
  popped : List Ev
deriving DecidableEq

/-- The log after a step that was taken on `m`, of which `won` was pushed just before. -/
def Log.step (L : Log Ev) (c : Chart) (u : UserCode Ev Ctx Val) (won : List (Source × Ev))
    (m : Machine Ev Ctx qn tn) (elapsed : Nat) : Log Ev :=
  { L with
    pushed := L.pushed ++ won ++ (accepted (stepEmits c u m elapsed)).map (.emitted, ·)
    popped := L.popped ++ stepPops c m elapsed }

/-- The push of an event that a race won, if the queue takes it. -/
def wonBy (src : Source) (ev : Ev) (s : RunState Ev Ctx qn tn) : List (Source × Ev) :=
  if (s.machine.queue.push ev).isSome then [(src, ev)] else []

variable (c u k) in
/-- Where a `run()` on a reachable machine can stand at the top of its loop, with the log. -/
inductive Ran : RunState Ev Ctx qn c.maxTimers → Log Ev → Prop where
  | start {m : ChartMachine c Ev Ctx qn} {now : Nat} {s : RunState Ev Ctx qn c.maxTimers}
      (sent : List Ev) : Reachable c u m → runStart c u now m = .ok (.looping s) →
      Ran s (Log.step { sent, received := [], pushed := m.queue.items.map (.before, ·)
                        popped := [] } c u [] m 0)
  | send {s : RunState Ev Ctx qn c.maxTimers} {L : Log Ev} (ev : Ev) : Ran s L →
      Ran s { L with sent := L.sent ++ [ev] }
  | quiet {s s' : RunState Ev Ctx qn c.maxTimers} {L : Log Ev} {w : Wake Ev Ctx}
      {m : ChartMachine c Ev Ctx qn} {elapsed : Nat} : Ran s L →
      turnWins c k w s = none → turnStep c k w s = some (m, elapsed) →
      runTurn c u k w s = .ok (.looping s') → Ran s' (L.step c u [] m elapsed)
  | during {s s' : RunState Ev Ctx qn c.maxTimers} {L : Log Ev} {w : Wake Ev Ctx}
      {m : ChartMachine c Ev Ctx qn} {elapsed : Nat} {ev : Ev} : Ran s L →
      turnWins c k w s = some ev → turnStep c k w s = some (m, elapsed) →
      runTurn c u k w s = .ok (.looping s') → Ran s' (L.step c u (wonBy .during ev s) m elapsed)
  | channel {s s' : RunState Ev Ctx qn c.maxTimers} {L : Log Ev} {w : Wake Ev Ctx}
      {m : ChartMachine c Ev Ctx qn} {elapsed : Nat} {ev : Ev} {pending : List Ev} : Ran s L →
      L.sent = L.received ++ ev :: pending → turnWins c k w s = some ev →
      turnStep c k w s = some (m, elapsed) → runTurn c u k w s = .ok (.looping s') →
      Ran s' { L.step c u (wonBy .channel ev s) m elapsed with received := L.received ++ [ev] }

theorem Ran.congr {s : RunState Ev Ctx qn c.maxTimers} {L L' : Log Ev} (h : Ran c u k s L)
    (hL : L = L') : Ran c u k s L' := hL ▸ h

/-- What holds at the top of the loop. -/
structure Kept (c : Chart) (m : Machine Ev Ctx qn tn) (L : Log Ev) : Prop where
  valid : m.Valid c
  split : ∃ q, Split L.pushed L.popped q ∧ (m.terminated = false → q = m.queue.items)
  received : ofSource .channel L.pushed = L.received
  le_sent : L.received <+: L.sent

/-- A step pops from the front and pushes what was emitted. -/
theorem split_step (S : c.Sound) {pushed : List (Source × Ev)} {popped : List Ev}
    {m m' : Machine Ev Ctx qn tn} {elapsed : Nat} {next : Option Nat} (hv : m.Valid c)
    (ht : m.terminated = false) (hs : Split pushed popped m.queue.items)
    (h : step c u m elapsed = .ok (next, m')) :
    ∃ q, Split (pushed ++ (accepted (stepEmits c u m elapsed)).map (Source.emitted, ·))
      (popped ++ stepPops c m elapsed) q ∧ (m'.terminated = false → q = m'.queue.items) := by
  obtain ⟨rest, acc, ref, hserves⟩ := step_serves S hv ht h
  rw [hserves.pops] at hs
  refine ⟨rest ++ acc, ?_, fun ht' => ?_⟩
  · rw [hserves.emits, accepted_answered]
    simpa using hs.pop.push (acc.map (Source.emitted, ·))
  · rw [hserves.queue, ht']
    rfl

theorem ofSource_append (src : Source) (l l' : List (Source × Ev)) :
    ofSource src (l ++ l') = ofSource src l ++ ofSource src l' := by
  simp [ofSource]

theorem ofSource_map {src src' : Source} (h : src' ≠ src) (evs : List Ev) :
    ofSource src (evs.map (src', ·)) = [] := by
  simp [ofSource, List.filter_map, Function.comp_def, h]

/-- The queue takes what the race won, since the loop races with the queue empty. -/
theorem wonBy_eq (hqn : 1 ≤ qn) (src : Source) {ev : Ev} {w : Wake Ev Ctx}
    {s : RunState Ev Ctx qn tn} {m : Machine Ev Ctx qn tn} {elapsed : Nat}
    (hwin : turnWins c k w s = some ev) (hturn : turnStep c k w s = some (m, elapsed)) :
    wonBy src ev s = [(src, ev)] ∧
      m.queue.items = s.machine.queue.items ++ [(src, ev)].map (·.2) := by
  have hempty := items_of_turnRaces (turnRaces_of_turnWins hwin)
  obtain ⟨q, hq, hitems⟩ := Bounded.push_of_lt (b := s.machine.queue) ev
    (by rw [hempty]; exact hqn)
  have hm := (turnStep_prepared hturn).1.queue
  rw [hwin] at hm
  simp only [hq, Option.getD_some] at hm
  refine ⟨?_, by rw [hm, hitems]; rfl⟩
  unfold wonBy
  rw [hq]
  rfl

theorem Kept.turn (S : c.Sound) {s s' : RunState Ev Ctx qn tn} {L : Log Ev} {w : Wake Ev Ctx}
    {m : Machine Ev Ctx qn tn} {elapsed : Nat} {won : List (Source × Ev)}
    (h : Kept c s.machine L) (hturn : turnStep c k w s = some (m, elapsed))
    (hq : m.queue.items = s.machine.queue.items ++ won.map (·.2))
    (hrun : runTurn c u k w s = .ok (.looping s')) :
    s'.machine.Valid c ∧ ∃ q, Split (L.step c u won m elapsed).pushed
      (L.step c u won m elapsed).popped q ∧
        (s'.machine.terminated = false → q = s'.machine.queue.items) := by
  obtain ⟨hprep, -⟩ := turnStep_prepared hturn
  have hv := hprep.same.valid h.valid
  have ht := hprep.same.terminated.trans hprep.running
  obtain ⟨q, hsplit, hqueue⟩ := h.split
  rw [hqueue hprep.running] at hsplit
  have hpushed := hsplit.push won
  rw [← hq] at hpushed
  rw [runTurn_of_step hturn] at hrun
  obtain ⟨⟨next, m₁⟩, hstep, he⟩ := Except.bind_eq_ok.mp hrun
  cases he
  exact ⟨(step_spec_of_ok S hv hstep).valid, split_step S hv ht hpushed hstep⟩

theorem ofSource_step (L : Log Ev) (won : List (Source × Ev)) (m : Machine Ev Ctx qn tn)
    (elapsed : Nat) : ofSource .channel (L.step c u won m elapsed).pushed =
      ofSource .channel L.pushed ++ ofSource .channel won := by
  unfold Log.step
  simp only
  rw [ofSource_append, ofSource_append, ofSource_map (by decide), List.append_nil]

theorem Kept.start (S : c.Sound) {m : Machine Ev Ctx qn tn} {now : Nat}
    {s : RunState Ev Ctx qn tn} (sent : List Ev) (hv : m.Valid c)
    (h : runStart c u now m = .ok (.looping s)) :
    Kept c s.machine (Log.step { sent, received := [], pushed := m.queue.items.map (.before, ·)
                                 popped := [] } c u [] m 0) := by
  obtain ⟨ht, -, hstep, -⟩ := runStart_looping h
  have hsplit : Split (m.queue.items.map (Source.before, ·)) [] m.queue.items :=
    ⟨[], _, rfl, rfl, by simp⟩
  obtain ⟨q, hq, hqueue⟩ := split_step S hv ht hsplit hstep
  refine ⟨(step_spec_of_ok S hv hstep).valid, ⟨q, by simpa [Log.step] using hq, hqueue⟩, ?_,
    List.nil_prefix⟩
  rw [ofSource_step, ofSource_map (by decide)]
  rfl

theorem Ran.kept (S : c.Sound) (hqn : 1 ≤ qn) {s : RunState Ev Ctx qn c.maxTimers} {L : Log Ev}
    (h : Ran c u k s L) : Kept c s.machine L := by
  induction h with
  | start sent hm hs => exact .start S sent (hm.valid S) hs
  | send ev _ ih =>
      exact ⟨ih.valid, ih.split, ih.received, ih.le_sent.trans (List.prefix_append _ _)⟩
  | @quiet s s' L w m elapsed _ hwin hturn hrun ih =>
      have hq := (turnStep_prepared hturn).1.queue
      rw [hwin] at hq
      have hitems : m.queue.items =
          s.machine.queue.items ++ ([] : List (Source × Ev)).map (·.2) := by simp [hq]
      obtain ⟨hv, hsplit⟩ := ih.turn S hturn hitems hrun
      refine ⟨hv, hsplit, ?_, ih.le_sent⟩
      rw [ofSource_step, ih.received]
      exact List.append_nil _
  | @during s s' L w m elapsed ev _ hwin hturn hrun ih =>
      obtain ⟨hwon, hitems⟩ := wonBy_eq hqn .during hwin hturn
      rw [hwon]
      obtain ⟨hv, hsplit⟩ := ih.turn S hturn hitems hrun
      refine ⟨hv, hsplit, ?_, ih.le_sent⟩
      rw [ofSource_step, ih.received]
      exact List.append_nil _
  | @channel s s' L w m elapsed ev pending _ hsent hwin hturn hrun ih =>
      obtain ⟨hwon, hitems⟩ := wonBy_eq hqn .channel hwin hturn
      rw [hwon]
      obtain ⟨hv, hsplit⟩ := ih.turn S hturn hitems hrun
      refine ⟨hv, hsplit, ?_, ⟨pending, ?_⟩⟩
      · have := ofSource_step (c := c) (u := u) L [(.channel, ev)] m elapsed
        rw [ih.received] at this
        exact this
      · rw [List.append_assoc, List.singleton_append]
        exact hsent.symm

/-- At a race the queue is empty, so it takes whatever the race wins, and everything that was
    pushed before has been popped. No event received from the channel is lost, and the channel
    events that were popped are the first ones received, in order. -/
theorem race_loses_nothing {input : StatechartInput} (hc : statechartImpl input = .ok c)
    (hqn : 1 ≤ qn) {s : RunState Ev Ctx qn c.maxTimers} {L : Log Ev} (h : Ran c u k s L) :
    (turnRaces c k s = true → s.machine.queue.items = [] ∧
      (∀ ev, (s.machine.queue.push ev).isSome = true) ∧ L.pushed.map (·.2) = L.popped) ∧
    ofSource .channel L.pushed = L.received ∧ L.received <+: L.sent ∧
    ∃ P Q, L.pushed = P ++ Q ∧ P.map (·.2) = L.popped ∧
      (s.machine.terminated = false → Q.map (·.2) = s.machine.queue.items) ∧
      ofSource .channel P <+: L.received := by
  obtain ⟨S⟩ := sound hc
  have hk := h.kept S hqn
  obtain ⟨q, ⟨P, Q, hpushed, hP, hQ⟩, hq⟩ := hk.split
  refine ⟨?_, hk.received, hk.le_sent, P, Q, hpushed, hP, fun ht => by rw [hQ, hq ht], ?_⟩
  · intro hr
    have hempty := items_of_turnRaces hr
    have ht : s.machine.terminated = false := by
      unfold turnRaces at hr
      cases ht : s.machine.terminated with
      | false => rfl
      | true => simp [ht] at hr
    refine ⟨hempty, fun ev => ?_, ?_⟩
    · obtain ⟨b, hb, -⟩ := Bounded.push_of_lt (b := s.machine.queue) ev
        (by rw [hempty]; exact hqn)
      rw [hb]
      rfl
    · rw [hq ht, hempty] at hQ
      rw [hpushed, List.map_append, hP, hQ, List.append_nil]
  · rw [← hk.received, hpushed, ofSource_append]
    exact List.prefix_append _ _

/-! ## The relay -/

/-- `Ping` arrives at 1. -/
def pingWake : Wake Ident Unit := { durings := id, race := .event "Ping", now := 1 }

theorem relayRuns : (loopState (runStart relayChart (relayCode 0 1) 0
    (.new () : ChartMachine relayChart Ident Unit 1))).isSome = true := by
  decide +kernel

def relayRun₀ : RunState Ident Unit 1 relayChart.maxTimers := (loopState _).get relayRuns

theorem relayPings : (loopState
    (runTurn relayChart (relayCode 0 1) (tokio true) pingWake relayRun₀)).isSome = true := by
  decide +kernel

def relayRun₁ : RunState Ident Unit 1 relayChart.maxTimers := (loopState _).get relayPings

theorem relayPing_isSome : (turnStep relayChart (tokio true) pingWake relayRun₀).isSome = true := by
  decide +kernel

/-- `Ping` is sent, received and popped, and its `Ping` in parting is waiting. -/
def relayLog : Log Ident :=
  { sent := ["Ping"], received := ["Ping"], pushed := [(.channel, "Ping"), (.emitted, "Ping")]
    popped := ["Ping"] }

theorem relayRun₁_ran : Ran relayChart (relayCode 0 1) (tokio true) relayRun₁ relayLog := by
  have hwin : turnWins relayChart (tokio true) pingWake relayRun₀ = some "Ping" := by
    decide +kernel
  have h₀ := Ran.start (c := relayChart) (k := tokio true) ["Ping"] (.new ())
    (eq_looping relayRuns)
  exact (h₀.channel rfl hwin (Option.some_get relayPing_isSome).symm
    (eq_looping relayPings)).congr (by decide +kernel)

theorem race_loses_nothing_relay : ofSource .channel relayLog.pushed = relayLog.received :=
  (race_loses_nothing relay_accepted (by decide) relayRun₁_ran).2.1

end Hsmc
