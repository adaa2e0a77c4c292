import Hsmc.Link.Drain
import Hsmc.Link.Step

/-
  From one step to whole runs.

  A `dispatch` is a push, steps of no duration and reads of the overflow flag, so every run is
  one of the elementary calls (`RunsWith`). `RunsWith P` also asks that every step of the run
  meets `P`, which speaks of the machine before the step. The two induction rules are
  `RunsWith.core_invariant`, for what the abstract machine shows, and `Reachable.runsWith`.
-/

namespace Hsmc

open Machine

variable {Ev Ctx Val : Type} {qn tn : Nat} {c : Chart} {u : UserCode Ev Ctx Val}

/-- Only the context, the queue and the overflow flag differ. -/
structure SameCore (m m' : Machine Ev Ctx qn tn) : Prop where
  current : m'.current = m.current
  timers : m'.timers = m.timers
  terminated : m'.terminated = m.terminated
  journal : m'.journal = m.journal

theorem SameCore.core_eq {m m' : Machine Ev Ctx qn tn} (h : SameCore m m') :
    m'.core c = m.core c := by
  unfold Machine.core
  rw [h.current, h.timers, h.journal]

theorem SameCore.valid {m m' : Machine Ev Ctx qn tn} (h : SameCore m m') (hv : m.Valid c) :
    m'.Valid c :=
  ⟨by rw [h.current]; exact hv.current_lt, by rw [h.terminated, h.current]; exact hv.halted⟩

theorem sameCore_send (ev : Ev) (m : Machine Ev Ctx qn tn) : SameCore m (m.send ev).2 := by
  unfold Machine.send
  split
  · exact ⟨rfl, rfl, rfl, rfl⟩
  · split <;> exact ⟨rfl, rfl, rfl, rfl⟩

theorem sameCore_ctx (f : Ctx → Ctx) (m : Machine Ev Ctx qn tn) :
    SameCore m { m with ctx := f m.ctx } :=
  ⟨rfl, rfl, rfl, rfl⟩

theorem sameCore_takeOverflow (m : Machine Ev Ctx qn tn) : SameCore m m.takeOverflow.2 :=
  ⟨rfl, rfl, rfl, rfl⟩

/-! ## The three answers of `send` -/

section

variable {ev : Ev} {m : Machine Ev Ctx qn tn}

theorem send_of_terminated (ht : m.terminated = true) :
    m.send ev = (.error .alreadyTerminated, m) := by
  unfold Machine.send
  rw [if_pos ht]

theorem send_of_full (ht : m.terminated = false) (hpush : m.queue.push ev = none) :
    m.send ev = (.error .queueFull, m) := by
  unfold Machine.send
  rw [if_neg (by simp [ht]), hpush]

theorem send_of_push {queue : Bounded Ev qn} (ht : m.terminated = false)
    (hpush : m.queue.push ev = some queue) : m.send ev = (.ok (), { m with queue }) := by
  unfold Machine.send
  rw [if_neg (by simp [ht]), hpush]

end

/-! ## Runs of elementary calls -/

variable (c u) in
/-- The machines that a run of elementary calls reaches, if every step of it meets `P`. -/
inductive RunsWith (P : ChartMachine c Ev Ctx qn → Nat → Prop) :
    ChartMachine c Ev Ctx qn → Prop where
  | new (ctx : Ctx) : RunsWith P (Machine.new ctx)
  | step {m m' : ChartMachine c Ev Ctx qn} {elapsed : Nat} {next : Option Nat} :
      RunsWith P m → P m elapsed → step c u m elapsed = .ok (next, m') → RunsWith P m'
  | send {m : ChartMachine c Ev Ctx qn} (ev : Ev) : RunsWith P m → RunsWith P (m.send ev).2
  | takeOverflow {m : ChartMachine c Ev Ctx qn} : RunsWith P m → RunsWith P m.takeOverflow.2
  | contextMut {m : ChartMachine c Ev Ctx qn} (f : Ctx → Ctx) :
      RunsWith P m → RunsWith P { m with ctx := f m.ctx }

/-! ## A dispatch as elementary calls -/

theorem Drains.runsWith {m m' : ChartMachine c Ev Ctx qn} {ms : List (ChartMachine c Ev Ctx qn)}
    {result : Except HsmcError Unit} (h : Drains c u m ms result m')
    (hm : RunsWith c u (fun _ _ => True) m) : RunsWith c u (fun _ _ => True) m' := by
  induction h with
  | empty _ => exact hm
  | overflow _ h₁ _ => exact (hm.step trivial h₁).takeOverflow
  | terminated _ h₁ _ _ => exact (hm.step trivial h₁).takeOverflow
  | turn _ h₁ _ _ _ ih => exact ih (hm.step trivial h₁).takeOverflow

theorem dispatch_runsWith {fuel : Nat} {ev : Ev} {m m' : ChartMachine c Ev Ctx qn}
    {result : Except HsmcError Unit} (hm : RunsWith c u (fun _ _ => True) m)
    (h : dispatch c u fuel ev m = .ok (result, m')) : RunsWith c u (fun _ _ => True) m' := by
  rcases dispatch_drains h with ⟨-, -, -, rfl⟩ | ⟨-, -, -, -, rfl⟩ | ⟨queue, ht, hpush, hd⟩
  · exact hm
  · exact hm
  · have hm₁ := hm.send ev
    rw [send_of_push ht hpush] at hm₁
    exact hd.runsWith hm₁

/-- Every reachable machine is reached by elementary calls. -/
theorem Reachable.runsWith {m : ChartMachine c Ev Ctx qn} (h : Reachable c u m) :
    RunsWith c u (fun _ _ => True) m := by
  induction h with
  | new ctx => exact .new ctx
  | step _ h ih => exact ih.step trivial h
  | send ev _ ih => exact ih.send ev
  | dispatch _ h ih => exact dispatch_runsWith ih h
  | takeOverflow _ ih => exact ih.takeOverflow
  | contextMut f _ ih => exact ih.contextMut f

/-- The machines that a `dispatch` steps are reachable by public calls. -/
theorem reachable_of_mem_drainSteps : ∀ (fuel : Nat) {m x : ChartMachine c Ev Ctx qn},
    Reachable c u m → x ∈ drainSteps c u fuel m → Reachable c u x
  | 0, _, _, _, hx => by cases hx
  | fuel + 1, m, x, hm, hx => by
      unfold drainSteps at hx
      split at hx
      · cases hx
      · rcases List.mem_cons.mp hx with rfl | hx
        · exact hm
        · cases h₁ : step c u m 0 with
          | error e =>
              rw [h₁] at hx
              cases hx
          | ok p =>
              obtain ⟨next, m₁⟩ := p
              simp only [h₁] at hx
              split at hx
              · cases hx
              · exact reachable_of_mem_drainSteps fuel (hm.step h₁).takeOverflow hx

theorem reachable_of_mem_dispatchSteps {fuel : Nat} {ev : Ev} {m x : ChartMachine c Ev Ctx qn}
    (hm : Reachable c u m) (hx : x ∈ dispatchSteps c u fuel ev m) : Reachable c u x := by
  unfold dispatchSteps at hx
  split at hx
  · cases hx
  · rename_i ht
    cases hpush : m.queue.push ev with
    | none =>
        rw [hpush] at hx
        cases hx
    | some queue =>
        have hm₁ := hm.send ev
        rw [send_of_push (by simpa using ht) hpush] at hm₁
        simp only [hpush] at hx
        split at hx
        · rcases List.mem_cons.mp hx with rfl | hx
          · exact hm₁
          · cases h₁ : step c u { m with queue } 0 with
            | error e =>
                rw [h₁] at hx
                cases hx
            | ok p =>
                obtain ⟨next, m₁⟩ := p
                simp only [h₁] at hx
                split at hx
                · cases hx
                · exact reachable_of_mem_drainSteps fuel (hm₁.step h₁).takeOverflow hx
        · exact reachable_of_mem_drainSteps fuel hm₁ hx

/-! ## Induction over runs -/

/-- What the fresh machine has, calls that leave the core alone keep, and steps keep. -/
theorem RunsWith.invariant (S : c.Sound) {P : ChartMachine c Ev Ctx qn → Nat → Prop}
    {I : ChartMachine c Ev Ctx qn → Prop} (hnew : ∀ ctx, I (Machine.new ctx))
    (hsame : ∀ m m', SameCore m m' → I m → I m')
    (hstep : ∀ m m' elapsed, m.Valid c → P m elapsed → StepSpec c u m elapsed m' → I m → I m')
    {m : ChartMachine c Ev Ctx qn} (h : RunsWith c u P m) : m.Valid c ∧ I m := by
  induction h with
  | new ctx => exact ⟨valid_new ctx, hnew ctx⟩
  | step _ hP h ih =>
      have hs := step_spec_of_ok S ih.1 h
      exact ⟨hs.valid, hstep _ _ _ ih.1 hP hs ih.2⟩
  | send ev _ ih =>
      exact ⟨(sameCore_send ev _).valid ih.1, hsame _ _ (sameCore_send ev _) ih.2⟩
  | takeOverflow _ ih =>
      exact ⟨(sameCore_takeOverflow _).valid ih.1, hsame _ _ (sameCore_takeOverflow _) ih.2⟩
  | contextMut f _ ih =>
      exact ⟨(sameCore_ctx f _).valid ih.1, hsame _ _ (sameCore_ctx f _) ih.2⟩

theorem Reachable.valid (S : c.Sound) {m : ChartMachine c Ev Ctx qn} (h : Reachable c u m) :
    m.Valid c :=
  (h.runsWith.invariant S (I := fun _ => True) (fun _ => trivial) (fun _ _ _ _ => trivial)
    (fun _ _ _ _ _ _ _ => trivial)).1

/-- The abstract machine before it is started. -/
def Core.initial : Core tn := ⟨[], TimerTable.new, []⟩

/-- An invariant of the abstract machine holds at every call boundary. -/
theorem Reachable.core_invariant (S : c.Sound) {I : Core c.maxTimers → Prop}
    (hinit : I Core.initial)
    (hnote : ∀ (st : List Nat) (tt : TimerTable c.maxTimers) (j w : List TraceEvent),
      (∀ e ∈ w, Core.Plain c e) → I ⟨st, tt, j⟩ → I ⟨st, tt, j ++ w⟩)
    (hstep : ∀ x a b, Core.Step c u x a b → I a → I b) {m : ChartMachine c Ev Ctx qn}
    (h : Reachable c u m) : I (m.core c) := by
  refine (h.runsWith.invariant S (I := fun m => I (m.core c)) (fun _ => hinit) ?_ ?_).2
  · intro m m' hsame hI
    rw [hsame.core_eq]; exact hI
  · intro m m' elapsed _ _ hs hI
    exact hs.run.invariant hnote (fun x _ a b => hstep x a b) hI

/-! ## The loop of `run()` -/

/-- What a turn of the loop does before its step changes neither the core nor reachability. -/
structure Prepares (c : Chart) (u : UserCode Ev Ctx Val) (m m' : ChartMachine c Ev Ctx qn) :
    Prop where
  same : SameCore m m'
  reachable : Reachable c u m → Reachable c u m'

theorem Prepares.trans {m m' m'' : ChartMachine c Ev Ctx qn} (h : Prepares c u m m')
    (h' : Prepares c u m' m'') : Prepares c u m m'' where
  same := ⟨h'.same.current.trans h.same.current, h'.same.timers.trans h.same.timers,
    h'.same.terminated.trans h.same.terminated, h'.same.journal.trans h.same.journal⟩
  reachable hm := h'.reachable (h.reachable hm)

theorem prepares_takeOverflow (m : ChartMachine c Ev Ctx qn) : Prepares c u m m.takeOverflow.2 :=
  ⟨sameCore_takeOverflow m, .takeOverflow⟩

theorem prepares_pollDurings (f : Ctx → Ctx) (m : ChartMachine c Ev Ctx qn) :
    Prepares c u m (pollDurings c f m) := by
  unfold pollDurings
  split
  · exact ⟨⟨rfl, rfl, rfl, rfl⟩, id⟩
  · exact ⟨sameCore_ctx f m, .contextMut f⟩

/-- A received event is pushed as `send` pushes it. -/
theorem prepares_push (ev : Ev) {m : ChartMachine c Ev Ctx qn} (ht : m.terminated = false) :
    Prepares c u m { m with queue := (m.queue.push ev).getD m.queue } := by
  have he : { m with queue := (m.queue.push ev).getD m.queue } = (m.send ev).2 := by
    cases hpush : m.queue.push ev with
    | none =>
        rw [send_of_full ht hpush]
        rfl
    | some queue =>
        rw [send_of_push ht hpush]
        rfl
  rw [he]
  exact ⟨sameCore_send ev m, .send ev⟩

theorem runStep_looping {k : RunKind} {now : Nat} {s s' : RunState Ev Ctx qn tn}
    (h : runStep c u k now s = .ok (.looping s')) :
    step c u s.machine (k.elapsed (now - s.lastInstant)) = .ok (s'.next, s'.machine) ∧
      s'.lastInstant = now := by
  unfold runStep at h
  obtain ⟨⟨next, machine⟩, hstep, h⟩ := Except.bind_eq_ok.mp h
  cases h
  exact ⟨hstep, rfl⟩

theorem takeOverflow_of_clear {m : Machine Ev Ctx qn tn} (ho : m.overflow = false) :
    m.takeOverflow = (false, m) := by
  unfold takeOverflow
  rw [← ho]

/-- The three ways a `run()` can begin. -/
theorem runStart_cases {now : Nat} {m : Machine Ev Ctx qn tn} {r : Running Ev Ctx qn tn}
    (h : runStart c u now m = .ok r) :
    (m.terminated = true ∧ r = .returned (.error .alreadyTerminated) m) ∨
    ∃ next m₁, m.terminated = false ∧ step c u m 0 = .ok (next, m₁) ∧
      ((m₁.overflow = true ∧ r = .returned (.error .queueFull) m₁.takeOverflow.2) ∨
        (m₁.overflow = false ∧
          r = .looping { machine := m₁, next, lastInstant := now })) := by
  unfold runStart at h
  split at h
  · rename_i ht
    cases h
    exact Or.inl ⟨ht, rfl⟩
  · rename_i ht
    obtain ⟨⟨next, m₁⟩, hstep, h⟩ := Except.bind_eq_ok.mp h
    refine Or.inr ⟨next, m₁, by simpa using ht, hstep, ?_⟩
    cases ho : m₁.overflow with
    | true =>
        simp only [takeOverflow, ho, ↓reduceIte] at h
        cases h
        exact Or.inl ⟨rfl, rfl⟩
    | false =>
        simp only [takeOverflow_of_clear ho, Bool.false_eq_true, ↓reduceIte] at h
        cases h
        exact Or.inr ⟨rfl, rfl⟩

theorem runStart_looping {now : Nat} {m : Machine Ev Ctx qn tn} {s : RunState Ev Ctx qn tn}
    (h : runStart c u now m = .ok (.looping s)) :
    m.terminated = false ∧ s.machine.overflow = false ∧ step c u m 0 = .ok (s.next, s.machine) ∧
      s.lastInstant = now := by
  rcases runStart_cases h with ⟨-, he⟩ | ⟨next, m₁, ht, hstep, ⟨-, he⟩ | ⟨ho, he⟩⟩
  · cases he
  · cases he
  · cases he
    exact ⟨ht, ho, hstep, rfl⟩

/-- A turn of the loop that stays in it makes one step. -/
theorem runTurn_looping {k : RunKind} {w : Wake Ev Ctx} {s s' : RunState Ev Ctx qn c.maxTimers}
    (h : runTurn c u k w s = .ok (.looping s')) :
    s.machine.terminated = false ∧ ∃ m₁, Prepares c u s.machine m₁ ∧
      step c u m₁ (k.elapsed (w.now - s.lastInstant)) = .ok (s'.next, s'.machine) ∧
      s'.lastInstant = w.now := by
  unfold runTurn at h
  split at h
  · cases h
  · rename_i ht
    have ht : s.machine.terminated = false := by simpa using ht
    refine ⟨ht, ?_⟩
    have hp := prepares_takeOverflow (u := u) s.machine
    simp only at h
    split at h
    · cases h
    · split at h
      · obtain ⟨hstep, hl⟩ := runStep_looping h
        exact ⟨_, hp, hstep, hl⟩
      · split at h
        · cases h
        · have hp' := hp.trans (prepares_pollDurings w.durings _)
          have ht' := hp'.same.terminated.trans ht
          split at h
          · rename_i ev _
            obtain ⟨hstep, hl⟩ := runStep_looping h
            exact ⟨_, hp'.trans (prepares_push ev ht'), hstep, hl⟩
          · split at h
            · cases h
            · obtain ⟨hstep, hl⟩ := runStep_looping h
              exact ⟨_, hp', hstep, hl⟩
          · obtain ⟨hstep, hl⟩ := runStep_looping h
            exact ⟨_, hp', hstep, hl⟩

/-- A `run()` only ever holds reachable machines. -/
theorem Looping.reachable {k : RunKind} {s : RunState Ev Ctx qn c.maxTimers}
    (h : Looping c u k s) : Reachable c u s.machine := by
  induction h with
  | start hm hs =>
      exact .step hm (runStart_looping hs).2.2.1
  | turn _ ht ih =>
      obtain ⟨-, m₁, hp, hstep, -⟩ := runTurn_looping ht
      exact .step (hp.reachable ih) hstep

end Hsmc
