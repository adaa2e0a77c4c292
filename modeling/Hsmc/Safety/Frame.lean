import Hsmc.Link.TimerOps
import Hsmc.Safety.Clock
import Hsmc.Safety.Names

/-
  What a step does to the timers it has no business with.

  * `Core.Run.frame`: an entry survives, unchanged, every run that neither leaves its owner nor
    fires it.
  * `Accepted.repeating_stays`: the handlers of an `every` timer have no transition, so nothing
    is left or entered after such a timer fires.
  * `step_frame`: over a whole step the other entries lose the time that passed, a fired `every`
    timer is live again at its full duration, and a fired one-shot that is live after the step
    belongs to a state entered during it and has its full duration.
-/

namespace Hsmc

open Machine

variable {Ev Ctx Val : Type} {qn tn : Nat} {input : StatechartInput} {c : Chart} {ir : Ir}
  {u : UserCode Ev Ctx Val}

/-! ## Entries that stay -/

theorem mem_starts_of_ne {s : Nat} {e : TimerEntry} (hne : e.state ≠ s) :
    ∀ (l : List Nat) {tt : TimerTable tn}, e ∈ tt.entries.items →
      e ∈ (l.foldl (fun tt t => tt.start s t (durationFor c u t)) tt).entries.items
  | [], _, he => he
  | _ :: l, _, he => mem_starts_of_ne hne l
      (TimerTable.mem_start_of_ne he fun hkey => hne (congrArg Prod.fst hkey))

/-- An act leaves an entry as it is, unless time passes, its owner is left or it fires. -/
theorem Core.Step.frame {x : Act} {a b : Core tn} (h : Core.Step c u x a b) (hb : b.active.Nodup)
    (hok : a.TimersOk c) {e : TimerEntry} (he : e ∈ a.timers.entries.items)
    (htick : ∀ elapsed, x ≠ .tick elapsed) (hleave : x ≠ .leave e.state)
    (hfire : x ≠ .fire e.state e.trigger) : e ∈ b.timers.entries.items := by
  cases h with
  | @enter s st tt j acts _ _ _ =>
      -- the owner is active already, so it is not the state entered
      refine mem_starts_of_ne (fun hs => ?_) _ he
      exact (List.nodup_cons.mp hb).1 (hs ▸ (hok.owned _ (TimerTable.key_mem_keys he)).1)
  | @leave s st tt j acts _ =>
      simp only [cancelOwned]
      split
      · exact TimerTable.mem_cancelState.mpr ⟨he, fun hs => hleave (by rw [hs])⟩
      · exact he
  | tick => exact absurd rfl (htick _)
  | @fire s t st tt tt' j hpop =>
      have hkey : e.key ≠ (s, t) := by
        intro hkey
        cases hkey
        exact hfire rfl
      have he' := ((TimerTable.mem_popExpired hok.nodup hpop).2 e).mpr ⟨he, hkey⟩
      simp only [rearm]
      split
      · exact TimerTable.mem_start_of_ne he' hkey
      · exact he'

theorem Core.Run.frame (S : c.Sound) {acts : List Act} {a b : Core tn}
    (h : Core.Run c u acts a b) (hn : a.Nested S) (hok : a.TimersOk c) {e : TimerEntry}
    (he : e ∈ a.timers.entries.items) (htick : ∀ x ∈ acts, ∀ elapsed, x ≠ .tick elapsed)
    (hleave : .leave e.state ∉ acts) (hfire : .fire e.state e.trigger ∉ acts) :
    e ∈ b.timers.entries.items := by
  induction h with
  | refl => exact he
  | note _ _ ih => exact ih hn ⟨hok.nodup, hok.owned⟩ he htick hleave hfire
  | act hx _ ih =>
      rw [List.mem_cons, not_or] at hleave hfire
      obtain ⟨htick₀, htick⟩ := List.forall_mem_cons.mp htick
      have hn' := hx.nested hn
      exact ih hn' (hx.timersOk S hok)
        (hx.frame hn'.nodup hok he htick₀ (Ne.symm hleave.1) (Ne.symm hfire.1)) htick hleave.2
        hfire.2

/-- Notes change neither the active states nor the timers. -/
theorem Core.Run.nil_inv {a b : Core tn} (h : Core.Run c u [] a b) :
    b.active = a.active ∧ b.timers = a.timers := by
  generalize hl : ([] : List Act) = l at h
  induction h with
  | refl => exact ⟨rfl, rfl⟩
  | note _ _ ih => exact ih hl
  | act _ _ _ => cases hl

/-! ## The acts of a step -/

/-- What a step in a running machine journals is what it was about to do. -/
theorem StepSpec.words {m m' : Machine Ev Ctx qn tn} {elapsed : Nat} {w : List TraceEvent}
    (hs : StepSpec c u m elapsed m') (hj : m'.journal = m.journal ++ w) :
    w.filter Core.visible = (stepActs c u m elapsed).flatMap (Core.word c u) := by
  obtain ⟨w', hw, hv⟩ := hs.run.visible
  have hw : m'.journal = m.journal ++ w' := hw
  rw [hj, List.append_cancel_left_eq] at hw
  rw [hw, hv]

theorem mem_of_mem_words {w : List TraceEvent} {acts : List Act} {x : Act} {ev : TraceEvent}
    (hw : w.filter Core.visible = acts.flatMap (Core.word c u)) (hx : x ∈ acts)
    (hev : ev ∈ Core.word c u x) : ev ∈ w := by
  refine List.mem_of_mem_filter (p := Core.visible) ?_
  rw [hw]
  exact List.mem_flatMap.mpr ⟨x, hx, hev⟩

/-- A step of a machine with a current state lets time pass, then does its work. -/
theorem stepActs_of_current {m : Machine Ev Ctx qn tn} (hv : m.Valid c) {cur : Nat}
    (hcur : m.current = some cur) (elapsed : Nat) : stepActs c u m elapsed =
      .tick elapsed :: workActs c u cur (decrementTimers c elapsed m) := by
  unfold stepActs
  rw [if_neg, hcur]
  intro ht
  rw [hv.halted ht] at hcur
  cases hcur

/-! ## Timers that repeat -/

theorem Generated.durationRepeats_eq (g : Generated ir c) {t : Nat} (ht : t < 65536) :
    c.durationRepeats t = triggerRepeats ir.symbols.durationTriggers (.duration t) := by
  unfold Chart.durationRepeats Chart.arm triggerRepeats
  rw [g.durationRepeatArms, lookup_indexArms _ _ ht]

/-- No target stands in a handler group of an `every` timer. -/
theorem Accepted.repeating_stays (ha : Accepted input c ir) {s t : Nat} {grp : Group}
    (hgrp : c.handlerLookup s 1 t = some grp) (hr : c.durationRepeats t = true) :
    grp.2 = none := by
  have hl : Laid input ir := resolved_lays ha.resolved (by have := ha.nStates_le; omega)
  have g := generate_spec ha.generated
  obtain ⟨x, hx, -, hfrom⟩ := g.handlerLookup_some hl.tree hgrp
  rw [Option.eq_none_iff_forall_ne_some]
  intro dst hdst
  obtain ⟨y, hy, name, hk⟩ := groupFrom_target hfrom hdst
  obtain ⟨hy, hkey⟩ := List.mem_filter.mp hy
  obtain ⟨p, -, hst⟩ := hl.states.exists_of_mem_right hx
  obtain ⟨h, -, hres⟩ := hst.handlers.exists_of_mem_right (mem_sortHandlers.mp hy)
  have htrig : y.trigger = .duration t := by
    have := of_decide_eq_true hkey
    unfold triggerKindId at this
    cases hy : y.trigger <;> simp_all
  have hlt : t < 65536 := by
    obtain ⟨v, p, id, -, ht, -⟩ | ⟨e, key, rep, id, -, ht, i, -, -, -, -, rfl⟩ := hres.trigger.inv
    · rw [htrig] at ht
      cases ht
    · rw [htrig] at ht
      cases ht
      exact asU16_lt i
  have hkind := hres.kind
  rw [hk, htrig] at hkind
  cases hkind with
  | transition _ _ hno _ =>
      rw [← g.durationRepeats_eq hlt, hr] at hno
      cases hno

/-! ## The step -/

/-- A live timer that is neither fired nor left with its owner only loses the time that
    passed. -/
theorem StepSpec.spares (S : c.Sound) {m m' : Machine Ev Ctx qn tn} {elapsed : Nat}
    {w : List TraceEvent} (hv : m.Valid c) (hs : StepSpec c u m elapsed m')
    (hok : (m.core c).TimersOk c) (hj : m'.journal = m.journal ++ w) {e : TimerEntry}
    (he : e ∈ m.timers.entries.items) (hexit : .exited e.state ∉ w)
    (hfire : .timerFired e.state e.trigger ∉ w) :
    { e with remainingNs := e.remainingNs - asU64 elapsed } ∈ m'.timers.entries.items := by
  cases hcur : m.current with
  | none =>
      rw [hok.items_eq_nil hcur] at he
      cases he
  | some cur =>
      have hacts := stepActs_of_current (u := u) hv hcur elapsed
      have hwords := hs.words hj
      have hrun := hs.run
      rw [hacts] at hwords hrun
      obtain ⟨w₀, d, -, htick, hrun⟩ := hrun.cons_inv
      have hokd := htick.timersOk S (a := ⟨_, _, _⟩) ⟨hok.nodup, hok.owned⟩
      have hnd := htick.nested (S := S) (a := ⟨_, _, _⟩) (hv.nested S)
      have hmem : { e with remainingNs := e.remainingNs - asU64 elapsed } ∈
          d.timers.entries.items := by
        have htimers := S.hasTimers_of_owned (hok.owned _ (TimerTable.key_mem_keys he)).2
        cases htick with
        | tick =>
            simp only [htimers, ↓reduceIte]
            exact TimerTable.mem_decrement.mpr ⟨e, he, rfl⟩
      refine hrun.frame S hnd hokd hmem (workActs_ne_tick cur _) (fun hx => hexit ?_)
        (fun hx => hfire ?_)
      · exact mem_of_mem_words hwords (List.mem_cons_of_mem _ hx) List.mem_cons_self
      · exact mem_of_mem_words hwords (List.mem_cons_of_mem _ hx) List.mem_cons_self

/-- The run of a step that fires a timer: the table after the timer is popped, and the moves of
    its handlers from there. -/
theorem StepSpec.after_firing (S : c.Sound) {m m' : Machine Ev Ctx qn tn} {elapsed s t : Nat}
    {w : List TraceEvent} (hv : m.Valid c) (hs : StepSpec c u m elapsed m')
    (hok : (m.core c).TimersOk c) (hj : m'.journal = m.journal ++ w)
    (hfired : .timerFired s t ∈ w) : ∃ cur g, m.current = some cur ∧
      c.handlerLookup s 1 t = some g ∧
      stepActs c u m elapsed = .tick elapsed :: .fire s t :: c.handlerActs cur g.2 ∧
      ∃ d : Core tn, ∃ tt : TimerTable tn, d.TimersOk c ∧ d.active = c.activePath m.current ∧
        d.timers = rearm c u s t tt ∧ (∀ e ∈ tt.entries.items, e.key ≠ (s, t)) ∧
        tt.keys.length < tn ∧ Core.Run c u (c.handlerActs cur g.2) d (m'.core c) := by
  obtain ⟨pre, post, rfl⟩ := List.append_of_mem hfired
  obtain ⟨-, g, tt, hg, hpop, -⟩ := hs.fires_own S hok hj
  obtain ⟨-, hsome, -⟩ := hs.fired hj
  obtain ⟨cur, hcur⟩ := Option.isSome_iff_exists.mp hsome
  have hacts : stepActs c u m elapsed = .tick elapsed :: .fire s t :: c.handlerActs cur g.2 := by
    rw [stepActs_of_current hv hcur]
    unfold workActs
    rw [hpop]
    simp only [hg, Option.bind_some]
  refine ⟨cur, g, hcur, hg, hacts, ?_⟩
  have hrun := hs.run
  rw [hacts] at hrun
  obtain ⟨w₀, d₀, -, htick, hrun⟩ := hrun.cons_inv
  obtain ⟨w₁, d, -, hfire, hrun⟩ := hrun.cons_inv
  have hok₀ := htick.timersOk S (a := ⟨_, _, _⟩) ⟨hok.nodup, hok.owned⟩
  have hokd := hfire.timersOk S (a := ⟨_, _, _⟩) ⟨hok₀.nodup, hok₀.owned⟩
  have hactive : d₀.active = c.activePath m.current := by
    cases htick
    rfl
  generalize hd : (⟨d₀.active, d₀.timers, d₀.journal ++ w₁⟩ : Core tn) = a at hfire
  cases hfire with
  | @fire _ _ st tt₀ tt' j hpop' =>
      cases hd
      obtain ⟨-, hmem⟩ := TimerTable.mem_popExpired hok₀.nodup hpop'
      have hlen : tt'.keys.length < tn := by
        have h₁ := (TimerTable.perm_keys_popExpired hpop').length_eq
        have h₂ := d₀.timers.entries.length_le
        rw [← TimerTable.length_keys] at h₂
        rw [List.length_cons] at h₁
        omega
      exact ⟨_, tt', hokd, hactive, rfl, fun e he => ((hmem e).mp he).2, hlen, hrun⟩

/-- A fired one-shot is gone, unless its owner is entered again. -/
theorem StepSpec.one_shot_gone (S : c.Sound) {m m' : Machine Ev Ctx qn tn} {elapsed s t : Nat}
    {w : List TraceEvent} (hv : m.Valid c) (hs : StepSpec c u m elapsed m')
    (hok : (m.core c).TimersOk c) (hj : m'.journal = m.journal ++ w)
    (hfired : .timerFired s t ∈ w) (hr : c.durationRepeats t = false) {e : TimerEntry}
    (he : e ∈ m'.timers.entries.items) (hkey : e.key = (s, t)) :
    .entered s ∈ w ∧ e.remainingNs = asU64 (durationFor c u t) := by
  obtain ⟨cur, g, -, -, hacts, d, tt, hokd, -, htimers, hgone, -, hrun⟩ :=
    hs.after_firing S hv hok hj hfired
  have hmoves := c.isMove_handlerActs cur g.2
  have hwords := hs.words hj
  rw [hacts] at hwords
  obtain ⟨rfl, rfl⟩ : e.state = s ∧ e.trigger = t := by simpa [TimerEntry.key] using hkey
  rcases hrun.entries S (fun x hx => (hmoves x hx).ne_tick) hokd e he with
    ⟨⟨ns, harm⟩, hrem⟩ | ⟨-, hold⟩
  · obtain ⟨x, hx, harm⟩ := List.mem_flatMap.mp harm
    refine ⟨mem_of_mem_words hwords (List.mem_cons_of_mem _ (List.mem_cons_of_mem _ hx)) ?_, hrem⟩
    have hmove := hmoves x hx
    cases x with
    | enter s' =>
        obtain rfl : s' = e.state := by
          simp only [Core.word, armedEvent, List.mem_append, List.mem_map,
            TraceEvent.timerArmed.injEq, List.mem_singleton, reduceCtorEq, or_false] at harm
          obtain ⟨-, -, h, -⟩ := harm
          exact h
        exact List.mem_append_right _ List.mem_cons_self
    | leave s' => simp [Core.word] at harm
    | tick _ => exact hmove.elim
    | fire _ _ => exact hmove.elim
  · rw [htimers, rearm, if_neg (by simp [hr])] at hold
    exact absurd hkey (hgone e hold)

/-- After a timer of the `every` kind fires, its owner is still active and the timer runs
    again. -/
theorem StepSpec.every_again {S : c.Sound} (ha : Accepted input c ir)
    {m m' : Machine Ev Ctx qn tn} {elapsed s t : Nat} {w : List TraceEvent} (hv : m.Valid c)
    (hs : StepSpec c u m elapsed m') (hok : (m.core c).TimersOk c)
    (hj : m'.journal = m.journal ++ w) (hfired : .timerFired s t ∈ w)
    (hr : c.durationRepeats t = true) :
    s ∈ c.activePath m'.current ∧ ⟨s, t, asU64 (durationFor c u t)⟩ ∈ m'.timers.entries.items := by
  obtain ⟨cur, g, -, hg, -, d, tt, -, hactive, htimers, -, hlen, hrun⟩ :=
    hs.after_firing S hv hok hj hfired
  obtain ⟨pre, post, rfl⟩ := List.append_of_mem hfired
  obtain ⟨hown, -⟩ := hs.fires_own S hok hj
  rw [ha.repeating_stays hg hr] at hrun
  obtain ⟨hact, htim⟩ := hrun.nil_inv
  have hact : c.activePath m'.current = d.active := hact
  have htim : m'.timers = d.timers := htim
  rw [hact, hactive, htim, htimers, rearm, if_pos hr]
  exact ⟨hown, TimerTable.mem_start_self (.inr hlen)⟩

/-- A step disturbs no other timer. The timers that are live before it, whose owner is not left
    and which do not fire, lose the time that passed. The one that fires is live again at its
    full duration if it is an `every` timer, whose owner stays active; if it is a one-shot that is
    live after the step, then its owner was entered during it and it has its full duration. -/
theorem step_frame (hc : statechartImpl input = .ok c) {m m' : ChartMachine c Ev Ctx qn}
    (h : Reachable c u m) {elapsed : Nat} (hel : elapsed < 2 ^ 64)
    (hd : ∀ t, durationFor c u t < 2 ^ 64) {next : Option Nat}
    (hstep : step c u m elapsed = .ok (next, m')) : ∃ w, m'.journal = m.journal ++ w ∧
      (∀ e ∈ m.timers.entries.items, .exited e.state ∉ w → .timerFired e.state e.trigger ∉ w →
        { e with remainingNs := e.remainingNs - elapsed } ∈ m'.timers.entries.items) ∧
      (∀ s t, .timerFired s t ∈ w → c.durationRepeats t = false →
        ∀ e ∈ m'.timers.entries.items, e.key = (s, t) →
          .entered s ∈ w ∧ e.remainingNs = durationFor c u t) ∧
      (∀ s t, .timerFired s t ∈ w → c.durationRepeats t = true →
        s ∈ c.activePath m'.current ∧
          ⟨s, t, durationFor c u t⟩ ∈ m'.timers.entries.items) := by
  obtain ⟨ir, ha⟩ := accepted_of_statechartImpl hc
  have S := ha.sound
  have hv := h.valid S
  have hok := h.timers_on_path S
  have hs := step_spec_of_ok S hv hstep
  have hdur : ∀ t, asU64 (durationFor c u t) = durationFor c u t :=
    fun t => Nat.mod_eq_of_lt (hd t)
  obtain ⟨w, hj, -⟩ := hs.run.visible
  have hj : m'.journal = m.journal ++ w := hj
  refine ⟨w, hj, fun e he hexit hfire => ?_, fun s t hfired hr e he hkey => ?_,
    fun s t hfired hr => ?_⟩
  · have hmem := hs.spares S hv hok hj he hexit hfire
    rwa [asU64, Nat.mod_eq_of_lt hel] at hmem
  · have hgone := hs.one_shot_gone S hv hok hj hfired hr he hkey
    rwa [hdur] at hgone
  · have hagain := hs.every_again (S := S) ha hv hok hj hfired hr
    rwa [hdur] at hagain

theorem lampWait_isOk : (step lampChart countCode lampOn 10).isOk = true := by decide +kernel

/-- Ten nanoseconds later. -/
def lampWaited : ChartMachine lampChart Ident Nat 4 := (Except.get _ lampWait_isOk).2

theorem step_frame_lamp : ⟨2, 0, 40⟩ ∈ lampWaited.timers.entries.items := by
  have hd : ∀ t, durationFor lampChart countCode t < 2 ^ 64 := by
    intro t
    unfold durationFor countCode
    cases lampChart.durationExprArms.lookup t <;> simp
  have hel : 10 < 2 ^ 64 := by decide
  obtain ⟨w, hj, hframe, -, -⟩ := step_frame lamp_accepted lampOn_reachable hel hd
    (Except.eq_ok_get _ lampWait_isOk)
  have hsame : lampWaited.journal = lampOn.journal := by decide +kernel
  obtain rfl : w = [] := List.append_right_eq_self.mp (hj.symm.trans hsame)
  exact hframe ⟨2, 0, 50⟩ (by decide +kernel) (by simp) (by simp)

/-- A state that leads back to itself when its timer runs out. -/
def blink : StatechartInput where
  name := "Blink"
  body := { contextTy := some "BlinkCtx", defaultChild := some "On", defaultCount := 1 }
  children := [
    .mk "On" {
      handlers := [
        ⟨.duration ["Duration", "::", "from_nanos", "(", "50", ")"]
          "Duration::from_nanos(50)" false, "On", 0⟩] } []]

def blinkChart : Chart := (statechartImpl blink).get (by decide +kernel)

theorem blink_accepted : statechartImpl blink = .ok blinkChart := Except.eq_ok_get _ _

theorem blinkStart_isOk : (step blinkChart countCode
    (.new 0 : ChartMachine blinkChart Ident Nat 4) 0).isOk = true := by
  decide +kernel

def blinkStarted : ChartMachine blinkChart Ident Nat 4 := (Except.get _ blinkStart_isOk).2

theorem blinkFire_isOk : (step blinkChart countCode blinkStarted 50).isOk = true := by
  decide +kernel

def blinkFired : ChartMachine blinkChart Ident Nat 4 := (Except.get _ blinkFire_isOk).2

/-- The one-shot fires, and after the step it is live. -/
theorem one_shot_starts_again : statechartImpl blink = .ok blinkChart ∧
    Reachable blinkChart countCode blinkStarted ∧
    (∃ next, step blinkChart countCode blinkStarted 50 = .ok (next, blinkFired)) ∧
    blinkFired.journal = blinkStarted.journal ++
      (.timerFired 1 0 :: blinkFired.journal.drop (blinkStarted.journal.length + 1)) ∧
    blinkChart.durationRepeats 0 = false ∧ (1, 0) ∈ blinkFired.timers.keys :=
  ⟨blink_accepted, .step (.new 0) (Except.eq_ok_get _ blinkStart_isOk),
    ⟨_, Except.eq_ok_get _ blinkFire_isOk⟩, by decide +kernel, by decide +kernel,
    by decide +kernel⟩

end Hsmc
