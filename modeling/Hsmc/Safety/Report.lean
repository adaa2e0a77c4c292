import Hsmc.Link.Granted
import Hsmc.Link.Loop
import Hsmc.Safety.Overflow

/-
  What `run()` reports of refused emits.

  The loop takes the overflow flag at the top of a turn, and a turn finds the machine terminated
  before it looks at the flag. So a refused emit is reported unless it is made by the exits of
  the shutdown, in the loop. `run_reports_iff` says so for every call of `run()`.
-/

namespace Hsmc

open Machine

variable {Ev Ctx Val : Type} {qn tn : Nat} {c : Chart} {u : UserCode Ev Ctx Val} {k : RunKind}

/-- If the step terminates the machine, the queue has room for all that the exit actions emit. -/
def ShutdownFits (c : Chart) (u : UserCode Ev Ctx Val) (m : Machine Ev Ctx qn tn)
    (elapsed : Nat) : Prop :=
  ∀ ev cur, stepPops c m elapsed = [ev] → checkTerminate c u ev = true → m.current = some cur →
    m.queue.items.length - 1 + (exitEmits c u (c.pathToRoot cur) m.ctx).length ≤ qn

/-- A call of `run()` that had an emit refused returns `QueueFull`. -/
def Reported (c : Chart) (u : UserCode Ev Ctx Val) (k : RunKind) (now : Nat)
    (wakes : List (Wake Ev Ctx)) (m : Machine Ev Ctx qn tn) (result : Except HsmcError Unit) :
    Prop :=
  (∃ x ∈ (m, 0) :: runSteps c u k now wakes m, EmitFails (stepEmits c u x.1 x.2)) →
    result = .error .queueFull

/-- A step terminates the machine exactly when it pops the terminate event. -/
theorem terminated_of_step (S : c.Sound) {m m' : Machine Ev Ctx qn tn} {elapsed : Nat}
    {next : Option Nat} (hv : m.Valid c) (ht : m.terminated = false)
    (h : step c u m elapsed = .ok (next, m')) :
    m'.terminated = true ↔ ∃ ev, stepPops c m elapsed = [ev] ∧ checkTerminate c u ev = true := by
  cases (step_spec_of_ok S hv h).outcome with
  | halted ht' _ => rw [ht] at ht'; cases ht'
  | started _ hcur ht' _ _ => simp [ht', stepPops, hcur]
  | fired s t tt _ hcur hpop _ ht' _ _ =>
      simp [ht', stepPops, ht, Option.isSome_iff_ne_none.mp hcur, hpop]
  | idle _ hcur hpop hq he =>
      simp [he, stepPops, ht, Option.isSome_iff_ne_none.mp hcur, hpop, hq]
  | handled ev queue _ hcur hpop hq hterm _ ht' _ _ =>
      simp [ht', stepPops, ht, Option.isSome_iff_ne_none.mp hcur, hpop, hq, hterm]
  | terminated ev queue _ hcur hpop hq hterm ht' _ _ _ =>
      simp [ht', stepPops, ht, Option.isSome_iff_ne_none.mp hcur, hpop, hq, hterm]

/-- On a clear flag, the shutdown has an emit refused exactly when its emits do not fit. -/
theorem emitFails_iff_of_terminated (S : c.Sound) {m m' : Machine Ev Ctx qn tn} {elapsed : Nat}
    {next : Option Nat} (hv : m.Valid c) (ht : m.terminated = false) (hclear : m.overflow = false)
    (h : step c u m elapsed = .ok (next, m')) (ht' : m'.terminated = true) :
    EmitFails (stepEmits c u m elapsed) ↔ ¬ ShutdownFits c u m elapsed := by
  cases (step_spec_of_ok S hv h).outcome with
  | terminated ev queue _ hcur hpop hq hterm _ _ _ _ =>
      obtain ⟨cur, hcur⟩ := Option.isSome_iff_exists.mp hcur
      have hpops : stepPops c m elapsed = [ev] := by simp [stepPops, ht, hcur, hpop, hq]
      rw [exits_emitFails_iff S ht hcur (hv.current_lt cur hcur) hpop hq hterm hclear h]
      unfold ShutdownFits
      rw [hpops, hcur, Bounded.items_of_popFront hq]
      simp [hterm]
  | halted ht'' _ => rw [ht] at ht''; cases ht''
  | started _ _ ht'' _ _ => rw [ht'] at ht''; cases ht''
  | fired _ _ _ _ _ _ _ ht'' _ _ => rw [ht'] at ht''; cases ht''
  | idle _ _ _ _ he => rw [he, terminated_decrementTimers, ht] at ht'; cases ht'
  | handled _ _ _ _ _ _ _ _ ht'' _ _ => rw [ht'] at ht''; cases ht''

/-! ## The loop -/

/-- From a machine that runs with the flag clear, the loop reports every refused emit exactly
    when no step of it shuts down with more emits than fit. -/
theorem loop_reports_iff (S : c.Sound) : ∀ {ws : List (Wake Ev Ctx)} {s : RunState Ev Ctx qn tn}
    {result : Except HsmcError Unit} {m' : Machine Ev Ctx qn tn}, s.machine.Valid c →
    s.machine.terminated = false → s.machine.overflow = false →
    runLoop c u k ws (.looping s) = .ok (.returned result m') →
    (((∃ x ∈ loopSteps c u k ws s, EmitFails (stepEmits c u x.1 x.2)) →
        result = .error .queueFull) ↔
      ∀ x ∈ loopSteps c u k ws s, ShutdownFits c u x.1 x.2)
  | [], _, _, _, _, _, _, h => by cases h
  | w :: ws, s, result, m', hv, ht, ho, h => by
      cases hturn : turnStep c k w s with
      | none =>
          have hnil : loopSteps c u k (w :: ws) s = [] := by
            rw [loopSteps]
            simp only [hturn]
          simp [hnil]
      | some p =>
          obtain ⟨m, elapsed⟩ := p
          obtain ⟨hprep, -⟩ := turnStep_prepared hturn
          have hvm := hprep.same.valid hv
          have htm := hprep.same.terminated.trans ht
          obtain ⟨next, m₁, hstep, hsteps, h⟩ := runLoop_of_step hturn h
          have hv₁ := (step_spec_of_ok S hvm hstep).valid
          have hflag := overflow_of_step S hvm hprep.overflow hstep
          have hfits : m₁.terminated = false → ShutdownFits c u m elapsed := by
            intro hrun ev cur hpops hterm _
            have := (terminated_of_step S hvm htm hstep).mpr ⟨ev, hpops, hterm⟩
            rw [hrun] at this
            cases this
          rw [hsteps]
          simp only [List.mem_cons, exists_eq_or_imp, forall_eq_or_imp]
          cases ht₁ : m₁.terminated with
          | true =>
              -- the shutdown: the loop ends with `Ok`, whatever the flag says
              obtain ⟨hnil, hr⟩ := loop_halted (Or.inl ht₁) h
              rw [ht₁] at hr
              rw [hnil, emitFails_iff_of_terminated S hvm htm hprep.overflow hstep ht₁]
              simp [hr]
          | false =>
              have hfits := hfits ht₁
              cases ho₁ : m₁.overflow with
              | true =>
                  obtain ⟨hnil, hr⟩ := loop_halted (Or.inr ho₁) h
                  rw [ht₁, ho₁] at hr
                  rw [hnil]
                  simp [hr, hfits]
              | false =>
                  have hno : ¬ EmitFails (stepEmits c u m elapsed) := by
                    rw [← hflag, ho₁]
                    decide
                  have ih := loop_reports_iff S hv₁ ht₁ ho₁ h
                  simp only [hno, hfits, false_or, true_and]
                  exact ih

/-! ## The call -/

/-- A step that has an emit refused leaves the flag raised. -/
theorem overflow_of_emitFails (S : c.Sound) {m m' : Machine Ev Ctx qn tn} {elapsed : Nat}
    {next : Option Nat} (hv : m.Valid c) (h : step c u m elapsed = .ok (next, m'))
    (hfails : EmitFails (stepEmits c u m elapsed)) : m'.overflow = true := by
  cases ht : m.terminated with
  | true =>
      rw [(stepEmits_of_terminated ht).1] at hfails
      obtain ⟨_, he, -⟩ := hfails
      cases he
  | false =>
      obtain ⟨rest, acc, ref, hs⟩ := step_serves S hv ht h
      rw [hs.emits, emitFails_answered] at hfails
      exact hs.offered.shut_of_ref hfails

/-- A `run()` that does not come to its loop reports the emits refused before it. -/
theorem runStart_returned {m m' : Machine Ev Ctx qn tn} {now : Nat}
    {result : Except HsmcError Unit}
    (h : runStart c u now m = .ok (.returned result m'))
    (hfails : EmitFails (stepEmits c u m 0)) : result = .error .queueFull := by
  rcases runStart_cases h with ⟨ht, -⟩ | ⟨next, m₁, -, hstep, ⟨-, he⟩ | ⟨-, he⟩⟩
  · rw [(stepEmits_of_terminated ht).1] at hfails
    obtain ⟨_, he, -⟩ := hfails
    cases he
  · cases he
    rfl
  · cases he

/-- One that does had none refused, and begins with the flag clear. -/
theorem runStart_clear (S : c.Sound) {m : Machine Ev Ctx qn tn} {now : Nat}
    {s : RunState Ev Ctx qn tn} (hv : m.Valid c) (h : runStart c u now m = .ok (.looping s)) :
    s.machine.Valid c ∧ s.machine.overflow = false ∧ ¬ EmitFails (stepEmits c u m 0) := by
  obtain ⟨-, ho, hstep, -⟩ := runStart_looping h
  refine ⟨(step_spec_of_ok S hv hstep).valid, ho, fun hfails => ?_⟩
  rw [overflow_of_emitFails S hv hstep hfails] at ho
  cases ho

/-- A `run()` that returns has reported every refused emit exactly when no step of its loop
    shut down with more emits than fit. -/
theorem run_reports_iff {input : StatechartInput} (hc : statechartImpl input = .ok c)
    {m m' : ChartMachine c Ev Ctx qn} {now : Nat} {wakes : List (Wake Ev Ctx)}
    {result : Except HsmcError Unit} (hm : Reachable c u m)
    (h : run c u k now wakes m = .ok (.returned result m')) :
    Reported c u k now wakes m result ↔
      ∀ x ∈ runSteps c u k now wakes m, ShutdownFits c u x.1 x.2 := by
  obtain ⟨S⟩ := sound hc
  have hv := hm.valid S
  unfold Reported
  simp only [List.mem_cons, exists_eq_or_imp]
  unfold run at h
  obtain ⟨r, hstart, h⟩ := Except.bind_eq_ok.mp h
  cases r with
  | returned result₁ m₁ =>
      have hnil : runSteps c u k now wakes m = [] := by
        unfold runSteps
        rw [hstart]
      rw [hnil]
      rw [runLoop_returned] at h
      cases h
      have hfirst := runStart_returned hstart
      simpa using hfirst
  | looping s =>
      have hsteps : runSteps c u k now wakes m = loopSteps c u k wakes s := by
        unfold runSteps
        rw [hstart]
      obtain ⟨hvs, ho, hno⟩ := runStart_clear S hv hstart
      rw [hsteps]
      simp only [hno, false_or]
      cases ht : s.machine.terminated with
      | true =>
          obtain ⟨hnil, -⟩ := loop_halted (Or.inl ht) h
          simp [hnil]
      | false => exact loop_reports_iff S hvs ht ho h

/-! ## The relay -/

/-- `Stop` arrives at 1. -/
def stopWakes : List (Wake Ident Unit) :=
  [{ durings := id, race := .event "Stop", now := 1 }, { durings := id, race := .timer, now := 2 }]

/-- A fresh relay with room for one event. -/
def smallRelay : ChartMachine relayChart Ident Unit 1 := .new ()

theorem run_reports_iff_relay : Reported relayChart (relayCode 0 1) (tokio true) 0 stopWakes
    smallRelay (.ok ()) ↔ ∀ x ∈ runSteps relayChart (relayCode 0 1) (tokio true) 0 stopWakes
      smallRelay, ShutdownFits relayChart (relayCode 0 1) x.1 x.2 := by
  obtain ⟨m', hm'⟩ : ∃ m', run relayChart (relayCode 0 1) (tokio true) 0 stopWakes smallRelay =
      .ok (.returned (.ok ()) m') := eq_returned_of (by decide +kernel)
  exact run_reports_iff relay_accepted (.new ()) hm'

/-- Parting emits twice into a queue for one: the second emit is refused, and `run()` returns
    `Ok`. -/
theorem failed_emit_swallowed : statechartImpl relay = .ok relayChart ∧
    Reachable relayChart (relayCode 0 2) smallRelay ∧
    (∃ m', run relayChart (relayCode 0 2) (tokio true) 0 stopWakes smallRelay =
      .ok (.returned (.ok ()) m')) ∧
    (∃ x ∈ runSteps relayChart (relayCode 0 2) (tokio true) 0 stopWakes smallRelay,
      EmitFails (stepEmits relayChart (relayCode 0 2) x.1 x.2)) ∧
    ¬ Reported relayChart (relayCode 0 2) (tokio true) 0 stopWakes smallRelay (.ok ()) := by
  have hfails : ∃ x ∈ runSteps relayChart (relayCode 0 2) (tokio true) 0 stopWakes smallRelay,
      EmitFails (stepEmits relayChart (relayCode 0 2) x.1 x.2) := by decide +kernel
  refine ⟨relay_accepted, .new (), eq_returned_of (by decide +kernel), hfails, ?_⟩
  intro hreported
  obtain ⟨x, hx, hx'⟩ := hfails
  have := hreported ⟨x, List.mem_cons_of_mem _ hx, hx'⟩
  cases this

end Hsmc
