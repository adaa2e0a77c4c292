import Hsmc.Link.Asserts
import Hsmc.Link.Reach

/-
  No table access of the generated code is out of bounds.

  The hypothesis is `Chart.Checked`, about the emitted tables alone: nothing is assumed about
  the chart they were built from, so the tables need not belong to any tree and the defaults
  may go round in a circle (the loop that follows them then runs out of fuel, which is no
  undefined behaviour). What a call keeps is `Machine.Valid`: the current state is a state id.

  * `bounds_of_asserts`: no call on a reachable machine of a checked chart faults out of bounds.
  * `asserts_hold`: every accepted chart is checked, and the validator accepts its tables.
-/

namespace Hsmc

open Machine

variable {Ev Ctx Val : Type} {qn tn : Nat} {c : Chart} {u : UserCode Ev Ctx Val}

/-! ## Accesses -/

/-- Only the fuel of a loop may run out. -/
def InBounds {α : Type} (P : α → Prop) (x : Except Fault α) : Prop :=
  x.Meets (· = .outOfFuel) P

theorem getUnchecked_inBounds {α : Type} {table : List α} {P : α → Prop} {i : Nat}
    (hi : i < table.length) (hall : ∀ x ∈ table, P x) : InBounds P (getUnchecked table i) := by
  unfold getUnchecked
  rw [List.getElem?_eq_getElem hi]
  exact hall _ (List.getElem_mem hi)

theorem sliceUnchecked_inBounds {α : Type} {data : List α} {P : α → Prop} {s e : Nat} (hle : s ≤ e)
    (he : e ≤ data.length) (hall : ∀ x ∈ data, P x) :
    InBounds (fun seg => ∀ x ∈ seg, P x) (sliceUnchecked data s e) := by
  unfold sliceUnchecked
  rw [if_pos ⟨hle, he⟩]
  exact fun x hx => hall x (List.mem_of_mem_drop (List.mem_of_mem_take hx))

/-- The index of row `i` and column `j` of a table with rows of length `k`. -/
theorem row_lt {i j n k : Nat} (hi : i < n) (hj : j < k) : i * k + j < n * k :=
  calc i * k + j < i * k + k := Nat.add_lt_add_left hj _
    _ = (i + 1) * k := (Nat.succ_mul i k).symm
    _ ≤ n * k := Nat.mul_le_mul_right k hi

/-! ## What the parts of a step keep -/

/-- Running, and in a state of the table or in none. -/
structure Machine.Live (c : Chart) (m : Machine Ev Ctx qn tn) : Prop where
  running : m.terminated = false
  current_lt : ∀ s, m.current = some s → s < c.nStates

theorem Machine.Live.valid {m : Machine Ev Ctx qn tn} (h : m.Live c) : m.Valid c :=
  ⟨h.current_lt, fun ht => by rw [h.running] at ht; cases ht⟩

/-- What changes neither the flag nor the state. -/
theorem Machine.Live.of_eq {m m' : Machine Ev Ctx qn tn} (h : m.Live c)
    (ht : m'.terminated = m.terminated) (hcur : m'.current = m.current) : m'.Live c :=
  ⟨ht.trans h.running, by rw [hcur]; exact h.current_lt⟩

theorem Machine.Live.observe {m : Machine Ev Ctx qn tn} (h : m.Live c) (e : TraceEvent) :
    (m.observe e).Live c :=
  h.of_eq rfl rfl

theorem Machine.Live.of_current {m m' : Machine Ev Ctx qn tn} {s : Nat} (h : m.Live c)
    (ht : m'.terminated = m.terminated) (hcur : m'.current = some s) (hs : s < c.nStates) :
    m'.Live c := by
  refine ⟨ht.trans h.running, ?_⟩
  rintro s' hs'
  rw [hcur] at hs'
  cases hs'
  exact hs

theorem exitStates_live : ∀ (l : List Nat) {m : Machine Ev Ctx qn tn}, m.Live c →
    (l.foldl (fun m sid => exitState c u sid m) m).Live c
  | [], _, hm => hm
  | sid :: l, m, hm => by
      have hx := exitState_spec (c := c) (u := u) sid hm.running
      exact exitStates_live l (hm.of_eq hx.terminated hx.current)

theorem enterStates_live : ∀ (l : List Nat) {m : Machine Ev Ctx qn tn}, m.Live c →
    (∀ x ∈ l, x < c.nStates) → (enterStates c u l m).2.Live c
  | [], _, hm, _ => hm
  | sid :: l, m, hm, hl => by
      have he := enterStateNoDescent_spec (c := c) (u := u) sid hm.running
      have hm' := hm.of_current he.terminated he.current (hl sid List.mem_cons_self)
      unfold enterStates
      simp only [hm'.running, Bool.false_eq_true, if_false]
      exact enterStates_live l hm' fun x hx => hl x (List.mem_cons_of_mem _ hx)

section

variable (hc : c.Checked)
include hc

theorem applyPath_live {src target : Nat} {m : Machine Ev Ctx qn tn} (hm : m.Live c)
    (hs : src < c.nStates) (ht : target < c.nStates) :
    InBounds (fun r => r.2.Live c) (applyPath c u src target m) := by
  have htab := hc.tables
  unfold applyPath
  refine (getUnchecked_inBounds (by rw [hc.pathRange_length]; exact row_lt hs ht)
    htab.path_range).bind ?_
  rintro ⟨s, mid, e⟩ ⟨hsm, hme, he⟩
  refine (sliceUnchecked_inBounds hsm (hme.trans he) htab.path_id).bind fun exitPath _ => ?_
  refine (sliceUnchecked_inBounds hme he htab.path_id).bind fun enterPath henter => ?_
  have hm' := enterStates_live (u := u) enterPath (exitStates_live (u := u) exitPath hm) henter
  simp only
  split
  · exact hm'
  · split
    · exact hm'.of_current rfl rfl ht
    · exact hm'

theorem followDefaults_live : ∀ (fuel : Nat) {m : Machine Ev Ctx qn tn}, m.Live c →
    InBounds (fun m => m.Live c) (followDefaults c u fuel m)
  | 0, _, _ => rfl
  | fuel + 1, m, hm => by
      unfold followDefaults
      split
      · exact hm
      · rename_i cur hcur
        have hlt := hm.current_lt cur hcur
        have hdef := hc.tables.default_id
        refine (getUnchecked_inBounds (by rw [hc.defaultChild_length]; exact hlt) hdef).bind ?_
        rintro (_ | target) htarget
        · exact hm
        · simp only
          refine (applyPath_live hc (hm.observe _) hlt (htarget target rfl)).bind ?_
          rintro ⟨entered, m'⟩ hm'
          have hnote := hm'.observe (.transitionComplete m.current target)
          split
          · exact hnote
          · split
            · exact hnote
            · exact followDefaults_live fuel hnote

theorem transition_live {target : Nat} {m : Machine Ev Ctx qn tn} (hm : m.Live c)
    (ht : target < c.nStates) : InBounds (fun m => m.Live c) (transition c u target m) := by
  have hs : m.current.getD target < c.nStates := by
    cases hcur : m.current with
    | none => exact ht
    | some cur => exact hm.current_lt cur hcur
  unfold transition
  refine (applyPath_live hc hm hs ht).bind ?_
  rintro ⟨entered, m'⟩ hm'
  simp only
  split
  · exact hm'
  · split
    · exact followDefaults_live hc _ hm'
    · exact hm'

theorem enterPath_live {root : Nat} {m : Machine Ev Ctx qn tn} (hm : m.Live c)
    (hr : root < c.nStates) : InBounds (fun m => m.Live c) (enterPath c u root m) := by
  have he := enterStateNoDescent_spec (c := c) (u := u) root hm.running
  have hm' := hm.of_current he.terminated he.current hr
  unfold enterPath
  simp only
  split
  · exact hm'
  · exact followDefaults_live hc _ hm'

theorem runHandlers_live {sourceState : Nat} {actions : List Nat} {target : Option Nat}
    {event : Option Ev} {reason : TransitionReason} {m : Machine Ev Ctx qn tn} (hm : m.Live c)
    (ht : ∀ t, target = some t → t < c.nStates) :
    InBounds (fun m => m.Live c) (runHandlers c u sourceState actions target event reason m) := by
  obtain ⟨m', hrun, hq⟩ :=
    runActions_quiet (c := c) (u := u) sourceState .handler event actions m hm.running
  have hm' := hm.of_eq hq.terminated hq.current
  unfold runHandlers
  rw [hrun]
  cases target with
  | none => exact hm'
  | some target =>
      refine (transition_live hc (hm'.observe _) (ht target rfl)).bind ?_
      exact fun m'' hm'' => hm''.observe _

theorem fireTimer_live {state trig : Nat} {m : Machine Ev Ctx qn tn} (hm : m.Live c) :
    InBounds (fun m => m.Live c) (fireTimer c u state trig m) := by
  have hm' : (if c.durationRepeats trig then startTimer c u state trig
      (m.observe (.timerFired state trig)) else m.observe (.timerFired state trig)).Live c := by
    split <;> exact hm.of_eq rfl rfl
  unfold fireTimer dispatchTrigger
  simp only
  split
  · rename_i actions target hlook
    exact runHandlers_live hc hm' fun t ht => hc.timer_target hlook ht
  · exact hm'

theorem eventToId_lt {ev : Ev} (h : eventToId c u ev ≠ u16Max) : eventToId c u ev < c.nEvents := by
  unfold eventToId Chart.arm at h ⊢
  cases hv : c.eventVariantArms.lookup (u.variant ev) with
  | none => exact absurd (by rw [hv]; rfl) h
  | some v => exact hc.eventId_lt hv

theorem handleEvent_live {ev : Ev} {m : Machine Ev Ctx qn tn} (hm : m.Live c) :
    InBounds (fun m => m.Live c) (handleEvent c u ev m) := by
  unfold handleEvent
  simp only
  split
  · exact hm.of_eq rfl rfl
  · rename_i hid
    split
    · exact hm.of_eq rfl rfl
    · rename_i cur hcur
      have hrow := row_lt (hm.current_lt cur hcur) (eventToId_lt hc hid)
      refine (getUnchecked_inBounds (by rw [hc.dispatch_length]; exact hrow)
        hc.dispatch_target).bind ?_
      rintro ⟨handlerState, actions, target⟩ htarget
      simp only
      split
      · exact hm.of_eq rfl rfl
      · exact runHandlers_live hc (hm.of_eq rfl rfl) htarget

theorem doTerminate_valid {m : Machine Ev Ctx qn tn} (hm : m.Live c) :
    InBounds (fun m => m.Valid c) (doTerminate c u m) := by
  have htab := hc.tables
  have hend : ∀ m' : Machine Ev Ctx qn tn, m'.current = none → m'.Valid c := by
    intro m' h
    exact ⟨by simp [h], fun _ => h⟩
  unfold doTerminate
  split
  · rename_i cur hcur
    refine (getUnchecked_inBounds (by rw [hc.terminateRange_length]; exact hm.current_lt cur hcur)
      htab.terminate_range).bind ?_
    rintro ⟨s, e⟩ ⟨hle, he⟩
    exact (sliceUnchecked_inBounds hle he htab.terminate_id).bind fun path _ => hend _ rfl
  · exact hend _ rfl

theorem step_valid {m : Machine Ev Ctx qn tn} (hv : m.Valid c) (elapsed : Nat) :
    InBounds (fun r => r.2.Valid c) (step c u m elapsed) := by
  unfold step
  split
  · exact hv
  · rename_i ht
    have hm : m.Live c := ⟨by simpa using ht, hv.current_lt⟩
    split
    · refine (enterPath_live hc (hm.observe _) hc.nStates_pos).bind ?_
      exact fun m' hm' => hm'.valid
    · have hm₁ : (decrementTimers c elapsed m).Live c := by
        unfold decrementTimers
        split
        · exact hm.of_eq rfl rfl
        · exact hm
      simp only
      split
      · rename_i state trig timers _
        have hpopped :
            ({ decrementTimers c elapsed m with timers } : Machine Ev Ctx qn tn).Live c :=
          hm₁.of_eq rfl rfl
        exact (fireTimer_live hc hpopped).bind fun m' hm' => hm'.valid
      · split
        · exact hm₁.valid
        · rename_i ev queue _
          have hpopped :
              ({ decrementTimers c elapsed m with queue } : Machine Ev Ctx qn tn).Live c :=
            hm₁.of_eq rfl rfl
          have hrec := hpopped.observe (.eventReceived (eventToId c u ev))
          split
          · exact (doTerminate_valid hc (hrec.observe _)).bind fun m' hv' => hv'
          · exact (handleEvent_live hc hrec).bind fun m' hm' => hm'.valid

/-! ## Calls -/

theorem drain_valid : ∀ (fuel : Nat) {m : Machine Ev Ctx qn tn}, m.Valid c →
    InBounds (fun r => r.2.Valid c) (drain c u fuel m)
  | 0, _, _ => rfl
  | fuel + 1, m, hv => by
      unfold drain
      split
      · exact hv
      · refine (step_valid hc hv 0).bind ?_
        rintro ⟨next, m'⟩ hv'
        have hv'' : m'.takeOverflow.2.Valid c := ⟨hv'.current_lt, hv'.halted⟩
        simp only
        split
        · exact hv''
        · split
          · exact hv''
          · exact drain_valid fuel hv''

theorem dispatch_valid (fuel : Nat) (ev : Ev) {m : Machine Ev Ctx qn tn} (hv : m.Valid c) :
    InBounds (fun r => r.2.Valid c) (dispatch c u fuel ev m) := by
  unfold dispatch
  split
  · exact hv
  · split
    · exact hv
    · rename_i queue _
      have hpush : ({ m with queue } : Machine Ev Ctx qn tn).Valid c := ⟨hv.current_lt, hv.halted⟩
      simp only
      split
      · refine (step_valid hc hpush 0).bind ?_
        rintro ⟨next, m'⟩ hv'
        have hv'' : m'.takeOverflow.2.Valid c := ⟨hv'.current_lt, hv'.halted⟩
        simp only
        split
        · exact hv''
        · split
          · exact hv''
          · exact drain_valid hc fuel hv''
      · exact drain_valid hc fuel hpush

/-- The machine in a `run()`, or the one it returned with. -/
def Running.Holds (P : Machine Ev Ctx qn tn → Prop) : Running Ev Ctx qn tn → Prop
  | .looping s => P s.machine
  | .returned _ m => P m

theorem runStep_valid (k : RunKind) (now : Nat) {s : RunState Ev Ctx qn tn}
    (hv : s.machine.Valid c) : InBounds (·.Holds (·.Valid c)) (runStep c u k now s) :=
  (step_valid hc hv _).bind fun _ hv' => hv'

theorem runStart_valid (now : Nat) {m : Machine Ev Ctx qn tn} (hv : m.Valid c) :
    InBounds (·.Holds (·.Valid c)) (runStart c u now m) := by
  unfold runStart
  split
  · exact hv
  · refine (step_valid hc hv 0).bind ?_
    rintro ⟨next, m'⟩ hv'
    have hv'' : m'.takeOverflow.2.Valid c := ⟨hv'.current_lt, hv'.halted⟩
    simp only
    split
    · exact hv''
    · exact hv''

theorem runTurn_valid (k : RunKind) (w : Wake Ev Ctx) {s : RunState Ev Ctx qn tn}
    (hv : s.machine.Valid c) : InBounds (·.Holds (·.Valid c)) (runTurn c u k w s) := by
  have hv₁ : s.machine.takeOverflow.2.Valid c := ⟨hv.current_lt, hv.halted⟩
  have hv₂ : (pollDurings c w.durings s.machine.takeOverflow.2).Valid c := by
    unfold pollDurings
    split
    · exact hv₁
    · exact ⟨hv.current_lt, hv.halted⟩
  unfold runTurn
  simp only
  split
  · exact hv
  · split
    · exact hv₁
    · split
      · exact runStep_valid hc k w.now hv₁
      · split
        · exact hv₁
        · split
          · exact runStep_valid hc k w.now ⟨hv₂.current_lt, hv₂.halted⟩
          · split
            · exact hv₂
            · exact runStep_valid hc k w.now hv₂
          · exact runStep_valid hc k w.now hv₂

theorem runLoop_valid (k : RunKind) : ∀ (ws : List (Wake Ev Ctx)) {r : Running Ev Ctx qn tn},
    r.Holds (·.Valid c) → InBounds (·.Holds (·.Valid c)) (runLoop c u k ws r)
  | [], .looping _, h => h
  | [], .returned _ _, h => h
  | _ :: _, .returned _ _, h => h
  | w :: ws, .looping _, h => (runTurn_valid hc k w h).bind fun _ h' => runLoop_valid k ws h'

theorem run_valid (k : RunKind) (now : Nat) (ws : List (Wake Ev Ctx)) {m : Machine Ev Ctx qn tn}
    (hv : m.Valid c) : InBounds (·.Holds (·.Valid c)) (run c u k now ws m) :=
  (runStart_valid hc now hv).bind fun _ h => runLoop_valid hc k ws h

/-- The current state of a reachable machine is a state id, whatever the tables were built from. -/
theorem Reachable.valid_of_checked {m : ChartMachine c Ev Ctx qn} (h : Reachable c u m) :
    m.Valid c := by
  induction h with
  | new ctx => exact valid_new ctx
  | step _ h ih => exact (step_valid hc ih _).of_ok h
  | send ev _ ih => exact (sameCore_send ev _).valid ih
  | dispatch _ h ih => exact (dispatch_valid hc _ _ ih).of_ok h
  | takeOverflow _ ih => exact (sameCore_takeOverflow _).valid ih
  | contextMut f _ ih => exact (sameCore_ctx f _).valid ih

end

/-! ## The assertions are enough -/

/-- Tables that pass the assertions, have their declared lengths and name only states and
    events of the chart make every access of every call sound: no call on a machine that calls
    can reach leaves a table. -/
theorem bounds_of_asserts (hc : c.Checked) {m : ChartMachine c Ev Ctx qn} (hm : Reachable c u m) :
    (∀ elapsed, step c u m elapsed ≠ .error .outOfBounds) ∧
      (∀ fuel ev, dispatch c u fuel ev m ≠ .error .outOfBounds) ∧
      ∀ k now wakes, run c u k now wakes m ≠ .error .outOfBounds := by
  have hv := hm.valid_of_checked hc
  have hfuel : Fault.outOfBounds ≠ .outOfFuel := nofun
  exact ⟨fun elapsed => (step_valid hc hv elapsed).ne_error hfuel,
    fun fuel ev => (dispatch_valid hc fuel ev hv).ne_error hfuel,
    fun k now wakes => (run_valid hc k now wakes hv).ne_error hfuel⟩

theorem bounds_of_asserts_lamp :
    (∀ elapsed, step lampChart countCode lampOn elapsed ≠ .error .outOfBounds) ∧
      (∀ fuel ev, dispatch lampChart countCode fuel ev lampOn ≠ .error .outOfBounds) ∧
      ∀ k now wakes, run lampChart countCode k now wakes lampOn ≠ .error .outOfBounds :=
  bounds_of_asserts (checked_of_statechartImpl lamp_accepted) lampOn_reachable

/-- Whatever chart the macro accepts, the tables it emits pass the const block and the
    validator, and everything else that the accesses rely on holds of them. -/
theorem asserts_hold {input : StatechartInput} (h : statechartImpl input = .ok c) :
    constAsserts c = .ok () ∧
      checkPathTablesSound c.pathRange c.pathData c.terminateRange c.terminateData c.defaultChild
        c.nStates = true ∧ c.Checked := by
  have hc := checked_of_statechartImpl h
  exact ⟨hc.asserts, checkPathTablesSound_iff.mpr hc.tables, hc⟩

theorem asserts_hold_lamp :
    constAsserts lampChart = .ok () ∧
      checkPathTablesSound lampChart.pathRange lampChart.pathData lampChart.terminateRange
        lampChart.terminateData lampChart.defaultChild lampChart.nStates = true ∧
      lampChart.Checked :=
  asserts_hold lamp_accepted

end Hsmc
