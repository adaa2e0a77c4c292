import Hsmc.Abstract.Core

/-
  What actions, entering and leaving do to the machine, as far as the abstract machine sees it.

  Actions touch the context and the queue and journal emits (`runActions_quiet`). Entering a
  state makes it current, arms its timers and journals one `enterWord`; leaving it cancels its
  timers and journals one `exitWord` (`enterStateNoDescent_spec`, `exitState_spec`).
-/

open Computability

namespace Hsmc

open Machine

variable {Ev Ctx Val : Type} {qn tn : Nat} {c : Chart} {u : UserCode Ev Ctx Val}

/-! ## Journaling -/

section

variable (e : TraceEvent) (es : List TraceEvent) (m : Machine Ev Ctx qn tn)

@[simp] theorem current_observe : (m.observe e).current = m.current := rfl

@[simp] theorem timers_observe : (m.observe e).timers = m.timers := rfl

@[simp] theorem queue_observe : (m.observe e).queue = m.queue := rfl

@[simp] theorem terminated_observe : (m.observe e).terminated = m.terminated := rfl

@[simp] theorem overflow_observe : (m.observe e).overflow = m.overflow := rfl

@[simp] theorem journal_observe : (m.observe e).journal = m.journal ++ [e] := rfl

theorem observeAll_eq : m.observeAll es = { m with journal := m.journal ++ es } := by
  unfold observeAll
  induction es generalizing m with
  | nil => simp
  | cons e es ih => rw [List.foldl_cons, ih]; simp [observe]

end

/-! ## Actions -/

/-- Code that leaves the configuration and the timers alone and journals a word of `L`. -/
structure Quiet (L : Language TraceEvent) (m m' : Machine Ev Ctx qn tn) : Prop where
  current : m'.current = m.current
  timers : m'.timers = m.timers
  terminated : m'.terminated = m.terminated
  journal : Appends L m.journal m'.journal

namespace Quiet

variable {L L' : Language TraceEvent} {m m' m'' : Machine Ev Ctx qn tn}

theorem trans (h : Quiet L m m') (h' : Quiet L' m' m'') : Quiet (L * L') m m'' :=
  ⟨h'.current.trans h.current, h'.timers.trans h.timers, h'.terminated.trans h.terminated,
    h.journal.trans h'.journal⟩

theorem star_refl (m : Machine Ev Ctx qn tn) : Quiet L∗ m m :=
  ⟨rfl, rfl, rfl, Appends.star_refl _⟩

theorem star_cons (h : Quiet L m m') (h' : Quiet L∗ m' m'') : Quiet L∗ m m'' :=
  ⟨h'.current.trans h.current, h'.timers.trans h.timers, h'.terminated.trans h.terminated,
    h.journal.star_cons h'.journal⟩

theorem observe {e : TraceEvent} (m : Machine Ev Ctx qn tn) (he : [e] ∈ L) :
    Quiet L m (m.observe e) :=
  ⟨rfl, rfl, rfl, Appends.of_mem he _⟩

end Quiet

section

variable {m : Machine Ev Ctx qn tn} {ev : Ev}

theorem emit_of_terminated (ht : m.terminated = true) :
    emit c u ev m = (.error .alreadyTerminated, m) := by
  unfold emit
  rw [if_pos ht]

theorem emit_of_push {queue : Bounded Ev qn} (ht : m.terminated = false)
    (ho : m.overflow = false) (hpush : m.queue.push ev = some queue) : emit c u ev m =
      (.ok (), { m with queue }.observe (.emitQueued (eventToId c u ev))) := by
  unfold emit proxyPush
  simp only [ht, ho, hpush, Bool.false_eq_true, ↓reduceIte]

/-- A refused emit leaves the flag raised. -/
theorem emit_of_refused (ht : m.terminated = false)
    (h : m.overflow = true ∨ m.queue.push ev = none) : emit c u ev m = (.error .queueFull,
      { m with overflow := true }.observe (.emitFailed (eventToId c u ev))) := by
  unfold emit proxyPush
  rw [if_neg (by simp [ht])]
  cases ho : m.overflow with
  | true =>
      have hsame : { m with overflow := true } = m := by rw [← ho]
      simp only [↓reduceIte, hsame]
  | false =>
      have hpush := h.resolve_left (by simp [ho])
      simp only [hpush, Bool.false_eq_true, ↓reduceIte]

theorem emit_cases (ev : Ev) (m : Machine Ev Ctx qn tn) :
    (m.overflow = false ∧ ∃ queue, m.queue.push ev = some queue) ∨
      (m.overflow = true ∨ m.queue.push ev = none) := by
  cases m.overflow with
  | true => exact Or.inr (Or.inl rfl)
  | false =>
      cases m.queue.push ev with
      | none => exact Or.inr (Or.inr rfl)
      | some queue => exact Or.inl ⟨rfl, queue, rfl⟩

end

theorem emit_quiet (ev : Ev) (m : Machine Ev Ctx qn tn) : Quiet emits m (emit c u ev m).2 := by
  have hq : ∀ v, [TraceEvent.emitQueued v] ∈ emits := fun v =>
    Language.mem_kstar_of_mem (Language.mem_iSup.mpr ⟨v, Or.inl (mem_evt _)⟩)
  have hf : ∀ v, [TraceEvent.emitFailed v] ∈ emits := fun v =>
    Language.mem_kstar_of_mem (Language.mem_iSup.mpr ⟨v, Or.inr (mem_evt _)⟩)
  cases ht : m.terminated with
  | true =>
      rw [emit_of_terminated ht]
      exact Quiet.star_refl m
  | false =>
      rcases emit_cases ev m with ⟨ho, queue, hpush⟩ | h
      · rw [emit_of_push ht ho hpush]
        exact ⟨rfl, rfl, rfl, Appends.of_mem (hq _) _⟩
      · rw [emit_of_refused ht h]
        exact ⟨rfl, rfl, rfl, Appends.of_mem (hf _) _⟩

theorem runBody_quiet (b : Body Ev Ctx) (m : Machine Ev Ctx qn tn) :
    Quiet emits m (runBody c u b m) := by
  induction b generalizing m with
  | done ctx => exact ⟨rfl, rfl, rfl, Appends.star_refl _⟩
  | emit ev next ih =>
      have h := (emit_quiet (c := c) (u := u) ev m).trans (ih (emit c u ev m).1 (emit c u ev m).2)
      have he : (emits * emits : Language TraceEvent) = emits := kstar_mul_kstar _
      rwa [he] at h

theorem runAction_quiet (aid : Nat) (event : Option Ev) (m : Machine Ev Ctx qn tn) :
    Quiet emits m (runAction c u aid event m) := by
  unfold runAction
  split
  · exact Quiet.star_refl m
  · split
    · exact runBody_quiet _ m
    · split
      · exact Quiet.star_refl m
      · split
        · exact Quiet.star_refl m
        · exact runBody_quiet _ m

/-- On a machine that runs, every action of the list is run. -/
theorem runActions_quiet (sid : Nat) (kind : ActionKind) (event : Option Ev) :
    ∀ (aids : List Nat) (m : Machine Ev Ctx qn tn), m.terminated = false →
      ∃ m', runActions c u sid kind event aids m = (false, m') ∧ Quiet (actions sid kind) m m'
  | [], m, _ => ⟨m, rfl, Quiet.star_refl m⟩
  | aid :: aids, m, ht => by
      have h₁ : Quiet (⨆ a, evt (.actionInvoked sid a kind)) m
          (m.observe (.actionInvoked sid aid kind)) :=
        Quiet.observe m (Language.mem_iSup.mpr ⟨aid, mem_evt _⟩)
      have h₂ := h₁.trans (runAction_quiet (c := c) (u := u) aid event _)
      have ht₂ := h₂.terminated.trans ht
      obtain ⟨m', hm', h₃⟩ := runActions_quiet sid kind event aids _ ht₂
      refine ⟨m', ?_, h₂.star_cons h₃⟩
      unfold runActions
      simp only [ht₂, Bool.false_eq_true, ↓reduceIte]
      exact hm'

/-! ## Entering and leaving one state -/

theorem startTimers_eq (sid : Nat) : ∀ (tids : List Nat) (m : Machine Ev Ctx qn tn),
    tids.foldl (fun m tid => startTimer c u sid tid m) m =
      { m with
        timers := tids.foldl (fun tt t => tt.start sid t (durationFor c u t)) m.timers
        journal := m.journal ++ tids.map (armedEvent c u sid) }
  | [], m => by simp
  | tid :: tids, m => by
      rw [List.foldl_cons, startTimers_eq sid tids]
      simp [startTimer, Machine.observe, armedEvent]

structure Entered (c : Chart) (u : UserCode Ev Ctx Val) (sid : Nat)
    (m m' : Machine Ev Ctx qn tn) : Prop where
  current : m'.current = some sid
  timers : m'.timers = armOwned c u sid m.timers
  terminated : m'.terminated = m.terminated
  journal : ∃ acts ∈ actions sid .entry, m'.journal = m.journal ++ enterWord c u sid acts

theorem enterStateNoDescent_spec (sid : Nat) {m : Machine Ev Ctx qn tn}
    (ht : m.terminated = false) : Entered c u sid m (enterStateNoDescent c u sid m) := by
  obtain ⟨m', hm', hq⟩ := runActions_quiet (c := c) (u := u) sid .entry none (c.entriesOf sid)
    (m.observe (.enterBegan sid)) ht
  obtain ⟨acts, hacts, hj⟩ := hq.journal
  unfold enterStateNoDescent
  simp only [hm', Bool.false_eq_true, ↓reduceIte, startTimers_eq, observeAll_eq]
  refine ⟨rfl, ?_, hq.terminated, acts, hacts, ?_⟩
  · rw [timers_observe, hq.timers]; rfl
  · simp [hj, enterWord]

structure Exited (c : Chart) (sid : Nat) (m m' : Machine Ev Ctx qn tn) : Prop where
  current : m'.current = m.current
  timers : m'.timers = cancelOwned c sid m.timers
  terminated : m'.terminated = m.terminated
  journal : ∃ acts ∈ actions sid .exit, m'.journal = m.journal ++ exitWord c sid acts

theorem cancelTimers_eq (sid : Nat) (m : Machine Ev Ctx qn tn) :
    cancelTimers c sid m = { m with timers := cancelOwned c sid m.timers } := by
  unfold cancelTimers cancelOwned
  split <;> rfl

theorem exitState_spec (sid : Nat) {m : Machine Ev Ctx qn tn} (ht : m.terminated = false) :
    Exited c sid m (exitState c u sid m) := by
  obtain ⟨m', hm', hq⟩ := runActions_quiet (c := c) (u := u) sid .exit none (c.exitsOf sid)
    (cancelTimers c sid (((m.observe (.exitBegan sid)).observeAll
      ((List.range (c.duringsCount sid)).map (.duringCancelled sid))).observeAll
      ((c.ownedTimers sid).map (.timerCancelled sid))))
    (by simpa [cancelTimers_eq, observeAll_eq] using ht)
  obtain ⟨acts, hacts, hj⟩ := hq.journal
  have hc := hq.current
  have htim := hq.timers
  have hterm := hq.terminated
  simp only [cancelTimers_eq, observeAll_eq] at hc htim hterm hj
  unfold exitState
  simp only [hm', Bool.false_eq_true, ↓reduceIte]
  refine ⟨hc, htim, hterm, acts, hacts, ?_⟩
  simp [hj, exitWord]

end Hsmc
