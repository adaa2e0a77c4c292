import Hsmc.Abstract.Calls
import Hsmc.Link.Drain
import Hsmc.Link.Loop
import Hsmc.Link.MeansStep
import Hsmc.Link.Timely

/-
  Every public call does what the chart means.

  `Agrees.step` lifted over the draining loop of `dispatch` and the loop of `run()` to whole
  scripts (`Agrees.performAll`): the interpreter can give the same answers, and machine and
  configuration agree again. What the races poll is a hypothesis here (`PollsAlike`).
-/

namespace Hsmc

open Machine

variable {Ev Ctx Val : Type} {qn : Nat} {input : StatechartInput} {c : Chart} {n : TraceNames}
  {u : UserCode Ev Ctx Val} {G : Glossary input c n u}

/-- The times in a call fit a `u64`, and a loop does not add to the time it measures. -/
def Call.InRange : Call Ev Ctx → Prop
  | .step elapsed => elapsed < 2 ^ 64
  | .run k _ wakes => (∀ d, k.elapsed d ≤ d) ∧ ∀ w ∈ wakes, w.now < 2 ^ 64
  | _ => True

/-- What a `run()` answers: a result, when it has returned. -/
def Running.answer {tn : Nat} : Running Ev Ctx qn tn → Answer
  | .looping _ => .pending
  | .returned result _ => .result result

/-- The races of the machine poll durings when those of the configuration do. -/
def PollsAlike (G : Glossary input c n u) (qn : Nat) : Prop :=
  ∀ {m : ChartMachine c Ev Ctx qn} {g : Config Ev Ctx qn}, Agrees G m g →
    c.hasActiveDuring m.current = !g.polled.isEmpty ∧
      (c.raceDurings m.current).isEmpty = g.polled.isEmpty

namespace Agrees

variable {m m' : ChartMachine c Ev Ctx qn} {g g' : Config Ev Ctx qn}

theorem withQueue (h : Agrees G m g) (queue : Bounded Ev qn) :
    Agrees G { m with queue } { g with queue } :=
  ⟨⟨h.valid.current_lt, h.valid.halted⟩, h.means.ctx, h.means.active, rfl, h.means.clocks,
    h.means.terminated, h.means.overflow, h.means.log⟩

/-! ## `dispatch` -/

theorem drains {ms : List (ChartMachine c Ev Ctx qn)} {result : Except HsmcError Unit}
    (hd : Hsmc.Drains c u m ms result m') : ∀ {g : Config Ev Ctx qn}, Agrees G m g →
    ∃ g', Config.Drains input u c.chartHash g result g' ∧ Agrees G m' g' := by
  induction hd with
  | empty hq => exact fun {g} h => ⟨g, .empty (by rw [h.means.queue, hq]), h⟩
  | overflow hne hstep ho =>
      intro g h
      obtain ⟨g₁, hg₁, h₁⟩ := h.step (by decide) hstep
      exact ⟨_, .overflow (by rwa [h.means.queue]) hg₁ (h₁.means.overflow.trans ho),
        h₁.takeOverflow.2⟩
  | terminated hne hstep ho ht =>
      intro g h
      obtain ⟨g₁, hg₁, h₁⟩ := h.step (by decide) hstep
      exact ⟨_, .terminated (by rwa [h.means.queue]) hg₁ (h₁.means.overflow.trans ho)
        (h₁.means.terminated.trans ht), h₁.takeOverflow.2⟩
  | turn hne hstep ho ht _ ih =>
      intro g h
      obtain ⟨g₁, hg₁, h₁⟩ := h.step (by decide) hstep
      obtain ⟨g', hrest, h'⟩ := ih h₁.takeOverflow.2
      exact ⟨g', .turn (by rwa [h.means.queue]) hg₁ (h₁.means.overflow.trans ho)
        (h₁.means.terminated.trans ht) hrest, h'⟩

theorem dispatch (h : Agrees G m g) {fuel : Nat} {ev : Ev} {result : Except HsmcError Unit}
    (hd : Hsmc.dispatch c u fuel ev m = .ok (result, m')) :
    ∃ g', Config.Dispatches input u c.chartHash ev g result g' ∧ Agrees G m' g' := by
  obtain ⟨hanswer, hsent⟩ := h.send ev
  have hrefused : ∀ e, (m.send ev).1 = .error e →
      Config.Dispatches input u c.chartHash ev g (.error e) g := by
    intro e he
    have hge := hanswer.symm.trans he
    rw [← hge]
    exact .refused (by rw [hge]; exact nofun)
  rcases dispatch_drains hd with ⟨ht, -, rfl, rfl⟩ | ⟨ht, hpush, -, rfl, rfl⟩ |
    ⟨queue, ht, hpush, hdrain⟩
  · exact ⟨g, hrefused _ (by rw [send_of_terminated ht]), h⟩
  · exact ⟨g, hrefused _ (by rw [send_of_full ht hpush]), h⟩
  · rw [send_of_push ht hpush] at hanswer hsent
    obtain ⟨g', hg', h'⟩ := drains hdrain hsent
    exact ⟨g', .drains hanswer.symm hg', h'⟩

/-! ## `run()` -/

theorem poll (hpolls : PollsAlike G qn) (h : Agrees G m g) (durings : Ctx → Ctx) :
    Agrees G (pollDurings c durings m) (g.poll durings) := by
  unfold pollDurings Config.poll
  rw [(hpolls h).2]
  split
  · exact h
  · exact h.contextMut durings

/-- A turn of the loop returns on both sides, or goes on to a step from what agrees. -/
theorem turn (hpolls : PollsAlike G qn) (h : Agrees G m g) (k : RunKind) (w : Wake Ev Ctx)
    (next : Option Nat) (last : Nat) :
    (∃ result m' g', runTurn c u k w ⟨m, next, last⟩ = .ok (.returned result m') ∧
      g.turn k w next = .inl (result, g') ∧ Agrees G m' g') ∨
    ∃ m₁ g₁, runTurn c u k w ⟨m, next, last⟩ = runStep c u k w.now ⟨m₁, next, last⟩ ∧
      g.turn k w next = .inr g₁ ∧ Agrees G m₁ g₁ := by
  unfold runTurn Config.turn
  rw [h.means.terminated, h.means.overflow, h.means.queue]
  cases ht : m.terminated with
  | true => exact .inl ⟨_, m, g, rfl, rfl, h⟩
  | false =>
      obtain ⟨-, htake⟩ := h.takeOverflow
      cases ho : m.overflow with
      | true =>
          refine .inl ⟨.error .queueFull, m.takeOverflow.2, _, ?_, rfl, htake⟩
          simp [Machine.takeOverflow, ho]
      | false =>
          have hsame : m.takeOverflow = (false, m) := by
            obtain ⟨ctx, queue, timers, current, terminated, overflow, journal⟩ := m
            cases ho
            rfl
          obtain ⟨hactive, hrace⟩ := hpolls h
          simp only [hsame, hactive, Bool.false_eq_true, ↓reduceIte, Bool.not_not]
          split
          · exact .inr ⟨m, g, rfl, rfl, h⟩
          · split
            · exact .inl ⟨_, m, g, rfl, rfl, h⟩
            · have hpoll := h.poll hpolls w.durings
              revert hpoll
              generalize pollDurings c w.durings m = m₁
              generalize g.poll w.durings = g₁
              intro hpoll
              cases w.race with
              | event ev =>
                  refine .inr ⟨_, _, rfl, rfl, ?_⟩
                  rw [hpoll.means.queue]
                  exact hpoll.withQueue _
              | channelClosed =>
                  dsimp only
                  split
                  · exact .inl ⟨_, m₁, g₁, rfl, rfl, hpoll⟩
                  · exact .inr ⟨m₁, g₁, rfl, rfl, hpoll⟩
              | timer => exact .inr ⟨m₁, g₁, rfl, rfl, hpoll⟩

/-- The loop of a `run()` goes on alike to its end, or to the end of its wakes. -/
theorem loops (hpolls : PollsAlike G qn) {k : RunKind} (hk : ∀ d, k.elapsed d ≤ d) :
    ∀ {wakes : List (Wake Ev Ctx)} {m : ChartMachine c Ev Ctx qn} {g : Config Ev Ctx qn}
      {next : Option Nat} {last : Nat} {r : Running Ev Ctx qn c.maxTimers},
      (∀ w ∈ wakes, w.now < 2 ^ 64) → Agrees G m g →
      runLoop c u k wakes (.looping ⟨m, next, last⟩) = .ok r →
      ∃ g', Config.Loops input u c.chartHash k wakes next last g r.answer g' ∧
        Agrees G r.machine g'
  | [], m, g, next, last, r, _, h, hrun => by
      cases hrun
      exact ⟨g, .pending, h⟩
  | w :: wakes, m, g, next, last, r, hw, h, hrun => by
      obtain ⟨hnow, hw⟩ := List.forall_mem_cons.mp hw
      unfold runLoop at hrun
      obtain ⟨r₁, hr₁, hrun⟩ := Except.bind_eq_ok.mp hrun
      rcases h.turn hpolls k w next last with ⟨result, m', g', hm', hg', h'⟩ |
        ⟨m₁, g₁, hm₁, hg₁, h₁⟩
      · rw [hm'] at hr₁
        cases hr₁
        rw [runLoop_returned] at hrun
        cases hrun
        exact ⟨g', .returns hg', h'⟩
      · rw [hm₁] at hr₁
        obtain ⟨⟨next', m₂⟩, hstep, hr₁⟩ := Except.bind_eq_ok.mp hr₁
        cases hr₁
        have hlt : k.elapsed (w.now - last) < 2 ^ 64 :=
          (hk _).trans_lt ((Nat.sub_le _ _).trans_lt hnow)
        obtain ⟨g₂, hg₂, h₂⟩ := h₁.step hlt hstep
        obtain ⟨g', hloop, h'⟩ := loops hpolls hk hw h₂ hrun
        exact ⟨g', .step hg₁ hg₂ hloop, h'⟩

theorem run (hpolls : PollsAlike G qn) (h : Agrees G m g) {k : RunKind}
    (hk : ∀ d, k.elapsed d ≤ d) {now : Nat} {wakes : List (Wake Ev Ctx)}
    (hw : ∀ w ∈ wakes, w.now < 2 ^ 64) {r : Running Ev Ctx qn c.maxTimers}
    (hrun : run c u k now wakes m = .ok r) :
    ∃ g', Config.Runs input u c.chartHash k now wakes g r.answer g' ∧ Agrees G r.machine g' := by
  unfold Hsmc.run at hrun
  obtain ⟨r₁, hstart, hrun⟩ := Except.bind_eq_ok.mp hrun
  rcases runStart_cases hstart with ⟨ht, rfl⟩ |
    ⟨next, m₁, ht, hstep, ⟨ho, rfl⟩ | ⟨ho, rfl⟩⟩
  · rw [runLoop_returned] at hrun
    cases hrun
    exact ⟨g, .ended (h.means.terminated.trans ht), h⟩
  · obtain ⟨g₁, hg₁, h₁⟩ := h.step (by decide) hstep
    rw [runLoop_returned] at hrun
    cases hrun
    exact ⟨_, .overflow (h.means.terminated.trans ht) hg₁ (h₁.means.overflow.trans ho),
      h₁.takeOverflow.2⟩
  · obtain ⟨g₁, hg₁, h₁⟩ := h.step (by decide) hstep
    obtain ⟨g', hloop, h'⟩ := loops hpolls hk hw h₁ hrun
    exact ⟨g', .loops (h.means.terminated.trans ht) hg₁ (h₁.means.overflow.trans ho) hloop, h'⟩

/-! ## Scripts -/

theorem perform (hpolls : PollsAlike G qn) (h : Agrees G m g) {call : Call Ev Ctx}
    (hrange : call.InRange) {answer : Answer} (hp : perform c u call m = .ok (answer, m')) :
    ∃ g', Config.Performs input u c.chartHash call g answer g' ∧ Agrees G m' g' := by
  unfold Hsmc.perform at hp
  cases call with
  | step elapsed =>
      obtain ⟨⟨next, m₁⟩, hstep, hp⟩ := Except.bind_eq_ok.mp hp
      cases hp
      obtain ⟨g', hg', h'⟩ := h.step hrange hstep
      exact ⟨g', .step hg', h'⟩
  | send ev =>
      cases hp
      obtain ⟨hanswer, h'⟩ := h.send ev
      rw [hanswer]
      exact ⟨_, .send, h'⟩
  | dispatch fuel ev =>
      obtain ⟨⟨result, m₁⟩, hd, hp⟩ := Except.bind_eq_ok.mp hp
      cases hp
      obtain ⟨g', hg', h'⟩ := h.dispatch hd
      exact ⟨g', .dispatch hg', h'⟩
  | run k now wakes =>
      obtain ⟨r, hr, hp⟩ := Except.bind_eq_ok.mp hp
      obtain ⟨g', hg', h'⟩ := h.run hpolls hrange.1 hrange.2 hr
      cases r with
      | returned result m₁ =>
          cases hp
          exact ⟨g', .run hg', h'⟩
      | looping s =>
          cases hp
          exact ⟨g', .run hg', h'⟩
  | takeOverflow =>
      cases hp
      obtain ⟨hanswer, h'⟩ := h.takeOverflow
      rw [hanswer]
      exact ⟨_, .takeOverflow, h'⟩
  | contextMut f =>
      cases hp
      exact ⟨_, .contextMut, h.contextMut f⟩

/-- The interpreter can give a script the answers of the machine. -/
theorem performAll (hpolls : PollsAlike G qn) : ∀ {calls : List (Call Ev Ctx)}
    {answers : List Answer} {m m' : ChartMachine c Ev Ctx qn} {g : Config Ev Ctx qn},
    Agrees G m g → (∀ call ∈ calls, call.InRange) →
    performAll c u calls m = .ok (answers, m') →
    ∃ g', Config.PerformsAll input u c.chartHash calls g answers g' ∧ Agrees G m' g'
  | [], _, _, _, g, h, _, hp => by
      cases hp
      exact ⟨g, .nil, h⟩
  | call :: calls, _, _, _, g, h, hrange, hp => by
      obtain ⟨hcall, hrange⟩ := List.forall_mem_cons.mp hrange
      unfold Hsmc.performAll at hp
      obtain ⟨⟨answer, m₁⟩, hm₁, hp⟩ := Except.bind_eq_ok.mp hp
      obtain ⟨⟨answers, m₂⟩, hm₂, hp⟩ := Except.bind_eq_ok.mp hp
      cases hp
      obtain ⟨g₁, hg₁, h₁⟩ := h.perform hpolls hcall hm₁
      obtain ⟨g', hg', h'⟩ := performAll hpolls h₁ hrange hm₂
      exact ⟨g', .cons hg₁ hg', h'⟩

end Agrees

end Hsmc
