import Hsmc.Link.Reach

/-
  The loop of `run()` as a run of steps.

  A turn either returns, and then `runTurn_of_none` says what, or calls `step` once
  (`runTurn_of_step`). Before that call it changes only the context, the overflow flag and the
  queue (`turnStep_prepared`).
-/

namespace Hsmc

open Machine

variable {Ev Ctx Val : Type} {c : Chart} {u : UserCode Ev Ctx Val} {k : RunKind}
  {w : Wake Ev Ctx}

section

variable {qn tn : Nat} {s : RunState Ev Ctx qn tn}

theorem turnStep_eq_none_of {k : RunKind} {w : Wake Ev Ctx}
    (h : s.machine.terminated = true ∨ s.machine.overflow = true) : turnStep c k w s = none := by
  unfold turnStep
  rw [if_pos (by simpa using h)]

/-- A turn that calls `step` goes on with what the call returns. -/
theorem runTurn_of_step {m : Machine Ev Ctx qn tn} {elapsed : Nat}
    (h : turnStep c k w s = some (m, elapsed)) :
    runTurn c u k w s = step c u m elapsed >>= fun p =>
      .ok (.looping { machine := p.2, next := p.1, lastInstant := w.now }) := by
  unfold turnStep at h
  unfold runTurn
  split at h
  · cases h
  · rename_i hgo
    obtain ⟨ht, ho⟩ : s.machine.terminated = false ∧ s.machine.overflow = false := by
      simpa using hgo
    simp only [ht, ho, takeOverflow, Bool.false_eq_true, ↓reduceIte] at h ⊢
    split at h
    · cases h
      rename_i hq
      rw [if_pos hq]
      rfl
    · rename_i hq
      rw [if_neg hq]
      split at h
      · cases h
      · rename_i hidle
        rw [if_neg hidle]
        cases hr : w.race with
        | event ev =>
            rw [hr] at h
            cases h
            rfl
        | channelClosed =>
            simp only [hr] at h
            split at h
            · cases h
            · rename_i hopen
              cases h
              exact if_neg hopen
        | timer =>
            rw [hr] at h
            cases h
            rfl

/-- A turn that returns reports the overflow flag, unless the machine is terminated. The durings
    may have been polled for the last time. -/
theorem runTurn_of_none (h : turnStep c k w s = none) :
    ∃ m', runTurn c u k w s = .ok (.returned
      (if s.machine.terminated = false ∧ s.machine.overflow = true then .error .queueFull
        else .ok ()) m') ∧
      (m' = s.machine ∨ m' = s.machine.takeOverflow.2 ∨
        m' = pollDurings c w.durings s.machine.takeOverflow.2) := by
  unfold turnStep at h
  unfold runTurn
  cases ht : s.machine.terminated with
  | true => exact ⟨s.machine, by simp, .inl rfl⟩
  | false =>
      cases ho : s.machine.overflow with
      | true => exact ⟨s.machine.takeOverflow.2, by simp [takeOverflow, ho], .inr (.inl rfl)⟩
      | false =>
          simp only [ht, ho, takeOverflow, Bool.false_eq_true, Bool.or_self, ↓reduceIte,
            and_false] at h ⊢
          split at h
          · cases h
          · rename_i hq
            rw [if_neg hq]
            split at h
            · rename_i hidle
              rw [if_pos hidle]
              exact ⟨_, rfl, .inr (.inl rfl)⟩
            · rename_i hidle
              rw [if_neg hidle]
              cases hr : w.race with
              | event ev =>
                  rw [hr] at h
                  cases h
              | channelClosed =>
                  simp only [hr] at h
                  split at h
                  · rename_i hclosed
                    exact ⟨_, if_pos hclosed, .inr (.inr rfl)⟩
                  · cases h
              | timer =>
                  rw [hr] at h
                  cases h

/-- The machine of a turn's step: as the loop left it, with what the race won. -/
structure Prepared (c : Chart) (k : RunKind) (w : Wake Ev Ctx) (s : RunState Ev Ctx qn tn)
    (m : Machine Ev Ctx qn tn) : Prop where
  running : s.machine.terminated = false
  clear : s.machine.overflow = false
  same : SameCore s.machine m
  overflow : m.overflow = false
  queue : m.queue = match turnWins c k w s with
    | some ev => (s.machine.queue.push ev).getD s.machine.queue
    | none => s.machine.queue

/-- A turn races only with the queue empty. -/
theorem items_of_turnRaces (h : turnRaces c k s = true) : s.machine.queue.items = [] := by
  unfold turnRaces at h
  simp only [Bool.and_eq_true, List.isEmpty_iff] at h
  exact h.1.2

theorem turnRaces_of_turnWins {ev : Ev} (h : turnWins c k w s = some ev) :
    turnRaces c k s = true := by
  unfold turnWins at h
  split at h
  · assumption
  · cases h

theorem sameCore_pollDurings (f : Ctx → Ctx) (m : Machine Ev Ctx qn tn) :
    SameCore m (pollDurings c f m) ∧ (pollDurings c f m).queue = m.queue ∧
      (pollDurings c f m).overflow = m.overflow := by
  unfold pollDurings
  split <;> exact ⟨⟨rfl, rfl, rfl, rfl⟩, rfl, rfl⟩

theorem turnStep_prepared {m : Machine Ev Ctx qn tn} {elapsed : Nat}
    (h : turnStep c k w s = some (m, elapsed)) :
    Prepared c k w s m ∧ elapsed = k.elapsed (w.now - s.lastInstant) := by
  unfold turnStep at h
  split at h
  · cases h
  · rename_i hgo
    obtain ⟨ht, ho⟩ : s.machine.terminated = false ∧ s.machine.overflow = false := by
      simpa using hgo
    have hpoll := sameCore_pollDurings (c := c) w.durings s.machine.takeOverflow.2
    have hq : (pollDurings c w.durings s.machine.takeOverflow.2).queue = s.machine.queue :=
      hpoll.2.1
    have hsame : SameCore s.machine (pollDurings c w.durings s.machine.takeOverflow.2) :=
      ⟨hpoll.1.current, hpoll.1.timers, hpoll.1.terminated, hpoll.1.journal⟩
    simp only at h
    split at h
    · rename_i hfull
      have hraces : turnRaces c k s = false := by
        have hne : s.machine.queue.items.isEmpty = false := by simpa [takeOverflow] using hfull
        simp [turnRaces, hne]
      cases h
      refine ⟨⟨ht, ho, sameCore_takeOverflow _, rfl, ?_⟩, rfl⟩
      simp [turnWins, hraces, takeOverflow]
    · rename_i hnil
      have hempty : s.machine.queue.items.isEmpty = true := by simpa [takeOverflow] using hnil
      split at h
      · cases h
      · rename_i hidle
        have hraces : turnRaces c k s = true := by
          simp only [Bool.and_eq_true, not_and, Bool.not_eq_true, takeOverflow] at hidle
          unfold turnRaces
          cases hk : k.channel <;> cases hn : s.next <;> simp_all
        cases hr : w.race with
        | event ev =>
            rw [hr] at h
            cases h
            refine ⟨⟨ht, ho, ⟨hsame.current, hsame.timers, hsame.terminated, hsame.journal⟩,
              hpoll.2.2, ?_⟩, rfl⟩
            simp only [turnWins, hraces, ↓reduceIte, hr, hq]
        | channelClosed =>
            simp only [hr] at h
            split at h
            · cases h
            · cases h
              refine ⟨⟨ht, ho, hsame, hpoll.2.2, ?_⟩, rfl⟩
              simpa only [turnWins, hraces, ↓reduceIte, hr] using hq
        | timer =>
            rw [hr] at h
            cases h
            refine ⟨⟨ht, ho, hsame, hpoll.2.2, ?_⟩, rfl⟩
            simpa only [turnWins, hraces, ↓reduceIte, hr] using hq

/-! ## The loop -/

theorem runLoop_returned (ws : List (Wake Ev Ctx)) (result : Except HsmcError Unit)
    (m : Machine Ev Ctx qn tn) :
    runLoop c u k ws (.returned result m) = .ok (.returned result m) := by
  cases ws <;> rfl

/-- A turn that cannot step ends the loop. -/
theorem runLoop_of_none {w : Wake Ev Ctx} {ws : List (Wake Ev Ctx)} {s : RunState Ev Ctx qn tn}
    {result : Except HsmcError Unit} {m' : Machine Ev Ctx qn tn} (hturn : turnStep c k w s = none)
    (h : runLoop c u k (w :: ws) (.looping s) = .ok (.returned result m')) :
    result = if s.machine.terminated = false ∧ s.machine.overflow = true
      then .error .queueFull else .ok () := by
  obtain ⟨m₁, hm₁, -⟩ := runTurn_of_none (u := u) hturn
  unfold runLoop at h
  rw [hm₁, Except.ok_bind_eq, runLoop_returned] at h
  cases h
  rfl

theorem runLoop_of_step {w : Wake Ev Ctx} {ws : List (Wake Ev Ctx)} {s : RunState Ev Ctx qn tn}
    {result : Except HsmcError Unit} {m m' : Machine Ev Ctx qn tn} {elapsed : Nat}
    (hturn : turnStep c k w s = some (m, elapsed))
    (h : runLoop c u k (w :: ws) (.looping s) = .ok (.returned result m')) :
    ∃ next m₁, step c u m elapsed = .ok (next, m₁) ∧
      loopSteps c u k (w :: ws) s = (m, elapsed) ::
        loopSteps c u k ws { machine := m₁, next, lastInstant := w.now } ∧
      runLoop c u k ws (.looping { machine := m₁, next, lastInstant := w.now }) =
        .ok (.returned result m') := by
  unfold runLoop at h
  rw [runTurn_of_step hturn, bind_assoc] at h
  obtain ⟨⟨next, m₁⟩, hstep, h⟩ := Except.bind_eq_ok.mp h
  refine ⟨next, m₁, hstep, ?_, h⟩
  rw [loopSteps]
  simp only [hturn, hstep]

/-- A loop that starts on a terminated machine or on a raised flag makes no step. -/
theorem loop_halted {ws : List (Wake Ev Ctx)} {s : RunState Ev Ctx qn tn}
    {result : Except HsmcError Unit} {m' : Machine Ev Ctx qn tn}
    (hs : s.machine.terminated = true ∨ s.machine.overflow = true)
    (h : runLoop c u k ws (.looping s) = .ok (.returned result m')) :
    loopSteps c u k ws s = [] ∧ result =
      if s.machine.terminated = false ∧ s.machine.overflow = true then .error .queueFull
        else .ok () := by
  cases ws with
  | nil => cases h
  | cons w ws =>
      have hturn := turnStep_eq_none_of (c := c) (k := k) (w := w) hs
      refine ⟨?_, runLoop_of_none hturn h⟩
      rw [loopSteps]
      simp only [hturn]

end

end Hsmc
