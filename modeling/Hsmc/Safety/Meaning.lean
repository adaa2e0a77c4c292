import Hsmc.Link.MeansStep
import Hsmc.Link.Timely
import Hsmc.Link.Wording

/-
  The generated machine does what its chart means.

  `Config` is the reference interpreter of the parse tree, and `Shows` says that a machine and a
  configuration show the same. Where no two timers of one state expire together a step of the
  chart means one thing only, and that is what a step of the machine does (`steps_as_written`).
-/

namespace Hsmc

open Machine

variable {Ev Ctx Val : Type} {qn : Nat} {input : StatechartInput} {c : Chart} {ir : Ir}
  {n : TraceNames} {u : UserCode Ev Ctx Val}

/-! ## One meaning -/

namespace Config

variable {g g₁ g₂ : Config Ev Ctx qn}

theorem Descends.unique (h₁ : Descends input u g g₁) (h₂ : Descends input u g g₂) : g₁ = g₂ := by
  induction h₁ with
  | stop hno =>
      cases h₂ with
      | stop _ => rfl
      | up hx _ | down hx _ _ => rw [hno] at hx; cases hx
  | up hx hnil =>
      cases h₂ with
      | stop hno => rw [hno] at hx; cases hx
      | up hx' _ => rw [hx] at hx'; cases hx'; rfl
      | down hx' hne _ => rw [hx] at hx'; cases hx'; exact absurd hnil hne
  | down hx hne _ ih =>
      cases h₂ with
      | stop hno => rw [hno] at hx; cases hx
      | up hx' hnil => rw [hx] at hx'; cases hx'; exact absurd hnil hne
      | down hx' _ hd => rw [hx] at hx'; cases hx'; exact ih hd

theorem Transits.unique {x : Ident} {reason : String} (h₁ : Transits input u x reason g g₁)
    (h₂ : Transits input u x reason g g₂) : g₁ = g₂ := by
  cases h₁ with
  | up hnil =>
      cases h₂ with
      | up _ => rfl
      | down hne _ => exact absurd hnil hne
  | down hne hd =>
      cases h₂ with
      | up hnil => exact absurd hnil hne
      | down _ hd' => rw [hd.unique hd']

theorem Handles.unique {d : StateDecl} {event : Option Ev} {reason : String} {hs : List Handler}
    (h₁ : Handles input u d event reason hs g g₁) (h₂ : Handles input u d event reason hs g g₂) :
    g₁ = g₂ := by
  induction h₁ with
  | nil => cases h₂; rfl
  | call hno _ ih =>
      cases h₂ with
      | call _ h => exact ih h
      | go hyes _ _ => exact absurd hyes hno
  | go hyes htr _ ih =>
      cases h₂ with
      | call hno _ => exact absurd hyes hno
      | go _ htr' h =>
          cases htr.unique htr'
          exact ih h

/-- At most one timer of each active state has expired. -/
def NoTies (g : Config Ev Ctx qn) : Prop :=
  ∀ d ∈ g.active, ∀ t t', g.left (d.name, t) = some 0 → g.left (d.name, t') = some 0 → t = t'

theorem Due.unique (hties : g.NoTies) {d d' : StateDecl} {t t' : Timer} (h : g.Due d t)
    (h' : g.Due d' t') : d = d' ∧ t = t' := by
  obtain ⟨inner, outer, hact, hzero, hno⟩ := h
  obtain ⟨inner', outer', hact', hzero', hno'⟩ := h'
  have hmem : d ∈ g.active := by
    rw [hact]
    exact List.mem_append_right _ List.mem_cons_self
  have hsplit := hact.symm.trans hact'
  rcases List.append_eq_append_iff.mp hsplit with ⟨l, rfl, hl⟩ | ⟨l, rfl, hl⟩
  · cases l with
    | nil =>
        cases hl
        exact ⟨rfl, hties d hmem t t' hzero hzero'⟩
    | cons a l =>
        cases hl
        exact absurd hzero (hno' d (by simp) t)
  · cases l with
    | nil =>
        cases hl
        exact ⟨rfl, hties d hmem t t' hzero hzero'⟩
    | cons a l =>
        cases hl
        exact absurd hzero' (hno d' (by simp) t')

theorem Due.not_noneDue {d : StateDecl} {t : Timer} (h : g.Due d t) : ¬ g.NoneDue := by
  obtain ⟨-, -, -, hzero, -⟩ := h
  exact fun hnone => hnone _ hzero

theorem Due.active_ne_nil {d : StateDecl} {t : Timer} (h : g.Due d t) : g.active ≠ [] := by
  obtain ⟨inner, outer, hact, -⟩ := h
  rw [hact]
  simp

theorem active_ne_nil_of_handler {v : Ident} {d : StateDecl} (h : g.handler v = some d) :
    g.active ≠ [] := by
  intro hnil
  unfold handler at h
  rw [hnil] at h
  cases h

open Classical in
/-- Where a step leads, by the conditions that choose it, one after the other. -/
def Leads (input : StatechartInput) (u : UserCode Ev Ctx Val) (hash elapsed : Nat)
    (g : Config Ev Ctx qn) (next : Option Nat) (g' : Config Ev Ctx qn) : Prop :=
  if g.terminated = true then next = none ∧ g' = g
  else if g.active = [] then
    next = g'.next ∧ Descends input u ((g.note (.started hash)).enter input u input.root) g'
  else if ¬ (g.tick elapsed).NoneDue then
    next = g'.next ∧ ∃ d t, (g.tick elapsed).Due d t ∧
      Handles input u d none s!"timer:{d.name}/{input.timerName t}" (d.onTimer t)
        ((g.tick elapsed).fire input u d t) g'
  else match g.queue.popFront with
    | none => next = (g.tick elapsed).next ∧ g' = g.tick elapsed
    | some (ev, queue) =>
        let received := (g.tick elapsed).receive input u ev queue
        let event := input.eventName (u.variant ev)
        if input.body.terminate = some (u.variant ev) then
          next = none ∧ g' = shutDown input u (received.note (.terminateRequested event))
        else match g.handler (u.variant ev) with
          | none => next = (g.tick elapsed).next ∧ g' = received.note (.eventDropped event)
          | some d => next = g'.next ∧
              Handles input u d (some ev) s!"event:{u.variant ev}" (d.onEvent (u.variant ev))
                (received.note (.eventDelivered event d.name)) g'

/-- Each kind of step meets the conditions that choose it. -/
theorem Step.leads {hash elapsed : Nat} {next : Option Nat}
    (h : Step input u hash elapsed g next g₁) : Leads input u hash elapsed g next g₁ := by
  unfold Leads
  cases h with
  | halted ht =>
      rw [if_pos ht]
      exact ⟨rfl, rfl⟩
  | start ht hnil hd =>
      rw [ht, if_neg Bool.false_ne_true, if_pos hnil]
      exact ⟨rfl, hd⟩
  | timer ht hdue hh =>
      have hne : g.active ≠ [] := hdue.active_ne_nil
      rw [ht, if_neg Bool.false_ne_true, if_neg hne, if_pos hdue.not_noneDue]
      exact ⟨rfl, _, _, hdue, hh⟩
  | idle ht hne hnone hq =>
      rw [ht, if_neg Bool.false_ne_true, if_neg hne, if_neg (not_not_intro hnone), hq]
      exact ⟨rfl, rfl⟩
  | drop ht hne hnone hq hno hh =>
      rw [ht, if_neg Bool.false_ne_true, if_neg hne, if_neg (not_not_intro hnone), hq]
      dsimp only
      rw [if_neg hno, hh]
      exact ⟨rfl, rfl⟩
  | event ht hnone hq hno hsome hh =>
      rw [ht, if_neg Bool.false_ne_true, if_neg (active_ne_nil_of_handler hsome),
        if_neg (not_not_intro hnone), hq]
      dsimp only
      rw [if_neg hno, hsome]
      exact ⟨rfl, hh⟩
  | terminate ht hne hnone hq hyes =>
      rw [ht, if_neg Bool.false_ne_true, if_neg hne, if_neg (not_not_intro hnone), hq]
      dsimp only
      rw [if_pos hyes]
      exact ⟨rfl, rfl⟩

theorem Leads.unique {hash elapsed : Nat} (hties : (g.tick elapsed).NoTies)
    {next next' : Option Nat} (h₁ : Leads input u hash elapsed g next g₁)
    (h₂ : Leads input u hash elapsed g next' g₂) : next = next' ∧ g₁ = g₂ := by
  -- the time to the next expiry is read off the configuration that the step leads to
  have hread : next = g₁.next → next' = g₂.next → g₁ = g₂ → next = next' ∧ g₁ = g₂ := by
    rintro rfl rfl rfl
    exact ⟨rfl, rfl⟩
  unfold Leads at h₁ h₂
  split at h₁
  · rw [if_pos ‹_›] at h₂
    exact ⟨h₁.1.trans h₂.1.symm, h₁.2.trans h₂.2.symm⟩
  rw [if_neg ‹_›] at h₂
  split at h₁
  · rw [if_pos ‹_›] at h₂
    exact hread h₁.1 h₂.1 (h₁.2.unique h₂.2)
  rw [if_neg ‹_›] at h₂
  split at h₁
  · rw [if_pos ‹_›] at h₂
    obtain ⟨hnext, d, t, hdue, hh⟩ := h₁
    obtain ⟨hnext', d', t', hdue', hh'⟩ := h₂
    obtain ⟨rfl, rfl⟩ := hdue.unique hties hdue'
    exact hread hnext hnext' (hh.unique hh')
  rw [if_neg ‹_›] at h₂
  cases hq : g.queue.popFront with
  | none =>
      rw [hq] at h₁ h₂
      exact ⟨h₁.1.trans h₂.1.symm, h₁.2.trans h₂.2.symm⟩
  | some p =>
      rw [hq] at h₁ h₂
      simp only at h₁ h₂
      split at h₁
      · rw [if_pos ‹_›] at h₂
        exact ⟨h₁.1.trans h₂.1.symm, h₁.2.trans h₂.2.symm⟩
      rw [if_neg ‹_›] at h₂
      cases hd : g.handler (u.variant p.1) with
      | none =>
          rw [hd] at h₁ h₂
          exact ⟨h₁.1.trans h₂.1.symm, h₁.2.trans h₂.2.symm⟩
      | some d =>
          rw [hd] at h₁ h₂
          exact hread h₁.1 h₂.1 (h₁.2.unique h₂.2)

/-- Without ties a step means one thing. -/
theorem Step.unique {hash elapsed : Nat} (hties : (g.tick elapsed).NoTies) {next next' : Option Nat}
    (h₁ : Step input u hash elapsed g next g₁) (h₂ : Step input u hash elapsed g next' g₂) :
    next = next' ∧ g₁ = g₂ :=
  h₁.leads.unique hties h₂.leads

end Config

/-! ## The same to see -/

/-- The machine and the configuration show the same. -/
structure Shows (input : StatechartInput) (c : Chart) (ir : Ir) (m : ChartMachine c Ev Ctx qn)
    (g : Config Ev Ctx qn) : Prop where
  ctx : g.ctx = m.ctx
  active : g.active = (c.activePath m.current).map input.declAt
  queue : g.queue = m.queue
  left : ∀ {x t r}, g.left (x, t) = some r ↔ ∃ s ∈ c.activePath m.current,
    (input.declAt s).name = x ∧ t ∈ (input.declAt s).timers ∧
      ⟨s, input.allTimers.idxOf t, r⟩ ∈ m.timers.entries.items
  live : ∀ e ∈ m.timers.entries.items, ∃ t ∈ (input.declAt e.state).timers,
    e.trigger = input.allTimers.idxOf t ∧
      g.left ((input.declAt e.state).name, t) = some e.remainingNs
  terminated : g.terminated = m.terminated
  overflow : g.overflow = m.overflow
  log : g.log = m.journal.map (traceNames ir).note

namespace Shows

variable {m : ChartMachine c Ev Ctx qn} {g g' : Config Ev Ctx qn}

theorem unique (h : Shows input c ir m g) (h' : Shows input c ir m g') : g = g' := by
  have hleft : g.left = g'.left := funext fun ⟨x, t⟩ => Option.ext fun r => by
    rw [h.left, h'.left]
  obtain ⟨ctx, active, queue, left, terminated, overflow, log⟩ := g
  obtain ⟨ctx', active', queue', left', terminated', overflow', log'⟩ := g'
  have h₁ := h.ctx.trans h'.ctx.symm
  have h₂ := h.active.trans h'.active.symm
  have h₃ := h.queue.trans h'.queue.symm
  have h₄ := h.terminated.trans h'.terminated.symm
  have h₅ := h.overflow.trans h'.overflow.symm
  have h₆ := h.log.trans h'.log.symm
  simp only at h₁ h₂ h₃ h₄ h₅ h₆ hleft
  rw [h₁, h₂, h₃, h₄, h₅, h₆, hleft]

/-- The lines that the machine logged. -/
theorem lines (ha : Accepted input c ir) (h : Shows input c ir m g) :
    (traceNames ir).log m.journal = g.log.map (Note.record input.name) := by
  rw [h.log, List.map_map, ← ha.laid.name]
  rfl

end Shows

section

variable {name : Ident} {items : List Item}

theorem Agrees.shows (ha : Accepted input c ir) (hp : parseStatechart name items = .ok input)
    (hreg : input.Regular ir) (hu : ∀ t ∈ input.allTimers, u.duration t.1 < 2 ^ 64)
    {m : ChartMachine c Ev Ctx qn} {g : Config Ev Ctx qn}
    (h : Agrees (ha.glossary hp hreg hu) m g) : Shows input c ir m g where
  ctx := h.means.ctx
  active := h.means.active
  queue := h.means.queue
  left := h.means.clocks.left_iff
  live e he := by
    have hpath : ∀ x ∈ c.activePath m.current, x < c.nStates := by
      intro x hx
      cases hcur : m.current with
      | none =>
          rw [hcur] at hx
          cases hx
      | some cur =>
          have hlt := h.valid.current_lt cur hcur
          rw [hcur, show c.activePath (some cur) = ha.sound.tree.up cur from
            ha.sound.pathToRoot_eq hlt] at hx
          exact ha.sound.up_lt hlt hx
    obtain ⟨-, t, ht, htid, hleft⟩ := h.means.clocks.entry hpath he
    exact ⟨t, ht, htid, hleft⟩
  terminated := h.means.terminated
  overflow := h.means.overflow
  log := h.means.log

/-- Where no two timers of one state have expired together, the meaning of a step is what the
    machine does, and nothing else. -/
theorem steps_as_written (hp : parseStatechart name items = .ok input) (ha : Accepted input c ir)
    (hreg : input.Regular ir) (hu : ∀ t ∈ input.allTimers, u.duration t.1 < 2 ^ 64)
    {m : ChartMachine c Ev Ctx qn} (h : Timely c u m) :
    ∃ g, Shows input c ir m g ∧ ∀ elapsed < 2 ^ 64, (g.tick elapsed).NoTies →
      ∀ (next : Option Nat) (g' : Config Ev Ctx qn),
        Config.Step input u c.chartHash elapsed g next g' ↔
          ∃ m', step c u m elapsed = .ok (next, m') ∧ Shows input c ir m' g' := by
  obtain ⟨g, hag⟩ := Agrees.of_runsWith (G := ha.glossary hp hreg hu) h.runsWith
  refine ⟨g, hag.shows ha hp hreg hu, fun elapsed hlt hties next g' => ?_⟩
  constructor
  · intro hg'
    obtain ⟨next', m', hstep, -⟩ := step_spec (u := u) ha.sound hag.valid elapsed
    obtain ⟨g₁, hg₁, hag'⟩ := hag.step hlt hstep
    obtain ⟨rfl, rfl⟩ := hg'.unique hties hg₁
    exact ⟨m', hstep, hag'.shows ha hp hreg hu⟩
  · rintro ⟨m', hstep, hshows⟩
    obtain ⟨g₁, hg₁, hag'⟩ := hag.step hlt hstep
    rwa [hshows.unique (hag'.shows ha hp hreg hu)]

end

/-! ## The lamp -/

theorem lamp_regular : lamp.Regular lampIr where
  names := by decide +kernel
  timers := ⟨by decide +kernel, by decide +kernel⟩
  actions := by decide +kernel
  durings := by decide +kernel
  room := by decide +kernel

theorem lamp_durations : ∀ t ∈ lamp.allTimers, countCode.duration t.1 < 2 ^ 64 :=
  fun _ _ => show 50 < 2 ^ 64 by decide

theorem lampOn_timely : Timely lampChart countCode lampOn :=
  .dispatch (.new 0) (Except.eq_ok_get _ lampOn_isOk)

theorem lampTimeout_isOk : (step lampChart countCode lampOn 50).isOk = true := by decide +kernel

/-- The lamp after its 50 ns. -/
def lampTimeout : ChartMachine lampChart Ident Nat 4 := (Except.get _ lampTimeout_isOk).2

theorem lampTimeout_step : step lampChart countCode lampOn 50 = .ok (none, lampTimeout) := by
  have h := Except.eq_ok_get _ lampTimeout_isOk
  have hnext : (Except.get _ lampTimeout_isOk).1 = none := by decide +kernel
  rw [h, ← hnext]
  rfl

/-- Each state of the lamp has at most one timer. -/
theorem lamp_noTies {m : ChartMachine lampChart Ident Nat 4} {g : Config Ident Nat 4}
    (h : Shows lamp lampChart lampIr m g) (elapsed : Nat) : (g.tick elapsed).NoTies := by
  have hone : ∀ t ∈ lamp.allTimers, ∀ t' ∈ lamp.allTimers, t = t' := by decide +kernel
  have hall : ∀ {x : Ident} {t : Timer} {e : Nat}, (g.tick elapsed).left (x, t) = some e →
      t ∈ lamp.allTimers := by
    intro x t e hleft
    obtain ⟨r, hr, -⟩ := Option.map_eq_some_iff.mp hleft
    obtain ⟨s, hs, -, ht, -⟩ := h.left.mp hr
    have hlayout : ∀ s, ∀ t ∈ (lamp.declAt s).timers, t ∈ lamp.allTimers := by
      intro s t ht
      unfold StatechartInput.declAt at ht
      cases hp : lamp.layout[s]? with
      | none =>
          rw [hp] at ht
          exact absurd ht (by decide +kernel +revert)
      | some p =>
          rw [hp] at ht
          exact mem_allTimers_of_decl (List.mem_of_getElem? hp) ht
    exact hlayout s t ht
  exact fun d _ t t' ht ht' => hone t (hall ht) t' (hall ht')

theorem steps_as_written_lamp : ∃ g g' : Config Ident Nat 4,
    Shows lamp lampChart lampIr lampOn g ∧
      Config.Step lamp countCode lampChart.chartHash 50 g none g' ∧
      Shows lamp lampChart lampIr lampTimeout g' := by
  obtain ⟨g, hg, h⟩ :=
    steps_as_written lamp_parsed lamp_resolved lamp_regular lamp_durations lampOn_timely
  have htimely := lampOn_timely.step (show 50 < 2 ^ 64 by decide) lampTimeout_step
  obtain ⟨g', hag⟩ := Agrees.of_runsWith
    (G := lamp_resolved.glossary lamp_parsed lamp_regular lamp_durations) htimely.runsWith
  have hg' := hag.shows lamp_resolved lamp_parsed lamp_regular lamp_durations
  exact ⟨g, g', hg, (h 50 (by decide) (lamp_noTies hg 50) none g').mpr
    ⟨lampTimeout, lampTimeout_step, hg'⟩, hg'⟩

end Hsmc
