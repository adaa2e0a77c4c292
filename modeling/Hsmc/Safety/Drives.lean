import Hsmc.Link.Roomier
import Hsmc.Link.Serve
import Hsmc.Safety.Durings
import Hsmc.Safety.Queue
import Hsmc.Safety.Report

/-
  The three drives, compared.

  All three serve a FIFO queue and differ in what waits in it. `dispatch` pushes the first event
  before the machine is started, `run()` takes it afterwards; `send` puts every event before
  what the actions will emit. So the order in which the machine gets its events is the same
  only where nothing is emitted in between, and then the drives leave the same machine
  (`drives_agree`); `relay_drives_differ` has the two orders that emits bring about.
-/

namespace Hsmc

open Machine

variable {Ev Ctx Val : Type} {qn tn : Nat} {c : Chart} {u : UserCode Ev Ctx Val}

/-- A chart without durings polls none. -/
theorem activeDurings_eq_nil {input : StatechartInput} {ir : Ir} (ha : Accepted input c ir)
    (h : ∀ x ∈ ir.states, x.durings = []) : c.activeDurings = [] := by
  have hchain : ∀ (fuel : Nat) (s : Option Nat), duringChain ir.states fuel s = [] := by
    intro fuel
    induction fuel with
    | zero => exact fun s => by cases s <;> rfl
    | succ fuel ih =>
        intro s
        cases s with
        | none => rfl
        | some s =>
            unfold duringChain
            rw [ih, List.append_nil]
            cases hx : ir.states[s]? with
            | none => rfl
            | some x => exact h x (List.mem_of_getElem? hx)
  rw [(generate_spec ha.generated).activeDurings]
  unfold activeDuringsPerInnermostState
  rw [List.filterMap_eq_nil_iff]
  intro x _
  simp only [hchain, List.isEmpty_nil, ↓reduceIte]
  split_ifs <;> rfl

/-- Serving events of which one terminates the machine does so. -/
theorem Served.terminated (S : c.Sound) {evs : List Ev} {m m' : Machine Ev Ctx qn tn}
    (h : Served c u evs m m') : m.Valid c →
    (∃ ev ∈ m.queue.items ++ evs, checkTerminate c u ev = true) → m'.terminated = true := by
  induction h with
  | done ht => exact fun _ _ => ht
  | idle _ hq =>
      rintro - ⟨ev, hev, -⟩
      rw [hq] at hev
      cases hev
  | @turn evs m m₁ m' next ht hq hstep _ hs ih =>
      rintro hv ⟨ev, hev, hterm⟩
      have hiff := terminated_of_step S hv ht hstep
      cases ht₁ : m₁.terminated with
      | true =>
          rw [hs.eq_of_terminated ht₁]
          exact ht₁
      | false =>
          refine ih (started_of_step S hv hstep).1 ⟨ev, ?_, hterm⟩
          obtain ⟨rest, acc, ref, hserves⟩ := step_serves S hv ht hstep
          have hpops : ev ∉ stepPops c m 0 := by
            intro hmem
            have hone : stepPops c m 0 = [ev] := by
              have hlen := length_stepPops_le (c := c) m 0
              obtain ⟨x, hx⟩ := List.length_eq_one_iff.mp
                (Nat.le_antisymm hlen (List.length_pos_of_mem hmem))
              rw [hx] at hmem ⊢
              rw [List.mem_singleton.mp hmem]
            rw [hiff.mpr ⟨ev, hone, hterm⟩] at ht₁
            cases ht₁
          have hev : ev ∈ rest ++ evs := by
            rw [hserves.pops, List.append_assoc] at hev
            exact (List.mem_append.mp hev).resolve_left hpops
          rw [hserves.queue, ht₁, if_neg (by decide), List.append_assoc]
          rcases List.mem_append.mp hev with hrest | hevs
          · exact List.mem_append_left _ hrest
          · exact List.mem_append_right _ (List.mem_append_right _ hevs)
  | @take ev evs m m' queue ht hq hpush _ ih =>
      rintro hv ⟨ev, hev, hterm⟩
      have hsame : SameCore m { m with queue } := ⟨rfl, rfl, rfl, rfl⟩
      refine ih (hsame.valid hv) ⟨ev, ?_, hterm⟩
      rw [Bounded.items_of_push hpush]
      simpa using hev

/-! ## The start-up -/

/-- The first step emits nothing. -/
def StartsSilent (c : Chart) (u : UserCode Ev Ctx Val) (m : Machine Ev Ctx qn tn) : Prop :=
  ∀ next m₁, step c u m 0 = .ok (next, m₁) → Silent m₁.journal

section

variable {m m₁ : Machine Ev Ctx qn tn} {next : Option Nat} (ht : m.terminated = false)
  (hcur : m.current = none) (ho : m.overflow = false) (hq : m.queue.items = [])
  (hstep : step c u m 0 = .ok (next, m₁)) (hs : Silent m₁.journal)
include ht hcur ho hq hstep hs

/-- A silent start-up leaves an event alone that waits already. -/
theorem start_of_silent (queue : Bounded Ev qn) : m₁.terminated = false ∧ m₁.overflow = false ∧
    m₁.queue.items = [] ∧
    ∃ next', step c u { m with queue } 0 = .ok (next', { m₁ with queue }) := by
  have hrel := start_roomier (c := c) (u := u) (m := { m with queue }) (p := m.queue) ht ho 0 hcur
    (by rw [hq]; exact Nat.zero_le _)
  have hsame : ({ ({ m with queue } : Machine Ev Ctx qn tn) with queue := m.queue }) = m := rfl
  rw [hsame, hstep] at hrel
  obtain ⟨⟨next', a⟩, ha, hr⟩ := hrel.of_ok_right
  cases hr with
  | along hr =>
      obtain ⟨p, rfl⟩ : ∃ p, m₁ = { a with queue := p } := ⟨_, hr.same⟩
      obtain ⟨hqueue, hp⟩ := hr.kept hs
      refine ⟨hr.running, hr.clear, hp.trans hq, next', ?_⟩
      have hqueue : a.queue = queue := Bounded.eq_of_items hqueue
      rw [ha, ← hqueue]
  | astray hr => exact absurd hs hr.loud'

/-- It does not matter then whether the first event waits before the start-up or comes after it. -/
theorem served_iff_of_silent {ev : Ev} {evs : List Ev} {m' : Machine Ev Ctx qn tn} :
    Served c u (ev :: evs) m m' ↔ Served c u (ev :: evs) m₁ m' := by
  have hstart := start_of_silent ht hcur ho hq hstep hs
  obtain ⟨ht₁, ho₁, hq₁, -⟩ := hstart m.queue
  have hqueue : m₁.queue = m.queue := Bounded.eq_of_items (hq₁.trans hq.symm)
  constructor
  · intro h
    obtain ⟨queue, hpush, h⟩ := h.take_inv ht hq
    obtain ⟨-, -, -, next', hstep'⟩ := hstart queue
    obtain ⟨next'', m₂, hstep'', -, h⟩ := h.turn_inv ht (Bounded.ne_nil_of_push hpush)
    rw [hstep'] at hstep''
    cases hstep''
    exact .take ht₁ hq₁ (by rw [hqueue]; exact hpush) h
  · intro h
    obtain ⟨queue, hpush, h⟩ := h.take_inv ht₁ hq₁
    rw [hqueue] at hpush
    obtain ⟨-, -, -, next', hstep'⟩ := hstart queue
    exact .take ht hq hpush (.turn ht (Bounded.ne_nil_of_push hpush) hstep' ho₁ h)

end

/-! ## All events first -/

/-- While the machine that was sent `evs` has not terminated, nothing has been emitted. -/
def StepsSilent (c : Chart) (u : UserCode Ev Ctx Val) (evs : List Ev) (m : Machine Ev Ctx qn tn) :
    Prop :=
  ∀ m₀ n m', sendAll evs m = some m₀ → stepUntil c u n m₀ = .ok m' → m'.terminated = false →
    Silent m'.journal

theorem sendAll_eq : ∀ {evs : List Ev} {m m₀ : Machine Ev Ctx qn tn}, m.terminated = false →
    sendAll evs m = some m₀ →
    m₀ = { m with queue := m₀.queue } ∧ m₀.queue.items = m.queue.items ++ evs
  | [], m, m₀, _, h => by
      cases h
      exact ⟨rfl, (List.append_nil _).symm⟩
  | ev :: evs, m, m₀, ht, h => by
      unfold sendAll at h
      cases hpush : m.queue.push ev with
      | none =>
          rw [send_of_full ht hpush] at h
          cases h
      | some queue =>
          rw [send_of_push ht hpush] at h
          obtain ⟨hsame, hitems⟩ := sendAll_eq (m := { m with queue }) ht h
          refine ⟨hsame, ?_⟩
          rw [hitems, Bounded.items_of_push hpush, List.append_assoc]
          rfl

theorem stepUntil_succ {n : Nat} {m m₁ : Machine Ev Ctx qn tn} {next : Option Nat}
    (h : step c u m 0 = .ok (next, m₁)) : stepUntil c u (n + 1) m =
      if m₁.terminated then .ok m₁ else stepUntil c u n m₁ := by
  rw [stepUntil, h, Except.ok_bind_eq]
  rfl

/-- Once the machine has terminated, more turns change nothing. -/
theorem stepUntil_of_terminated (n : Nat) : ∀ (k : Nat) {m m' : Machine Ev Ctx qn tn},
    stepUntil c u k m = .ok m' → m'.terminated = true → stepUntil c u (k + n) m = .ok m'
  | 0, m, m', h, ht => by
      cases h
      cases n with
      | zero => rfl
      | succ n => rw [Nat.zero_add, stepUntil_succ (step_of_terminated ht), if_pos ht]
  | k + 1, m, m', h, ht => by
      obtain ⟨⟨next, m₁⟩, hstep, -⟩ := Except.bind_eq_ok.mp h
      rw [stepUntil_succ hstep] at h
      rw [Nat.add_right_comm, stepUntil_succ hstep]
      split at h
      · rename_i ht₁
        rw [if_pos ht₁]
        exact h
      · rename_i ht₁
        rw [if_neg ht₁]
        exact stepUntil_of_terminated n k h ht

/-- The front of a longer queue is the next event that a roomier machine serves. -/
theorem Served.of_front {m r m' : Machine Ev Ctx qn tn} {ev : Ev} {queue : Bounded Ev qn}
    {evs : List Ev} (ht : r.terminated = false) (hq : m.queue.popFront = some (ev, queue))
    (hitems : m.queue.items = r.queue.items ++ evs)
    (h : ∀ p p' evs', p.popFront = some (ev, p') → queue.items = p'.items ++ evs' →
      Served c u evs' { r with queue := p } m') : Served c u evs r m' := by
  rw [Bounded.items_of_popFront hq] at hitems
  cases hp : r.queue.popFront with
  | some q =>
      obtain ⟨ev', p'⟩ := q
      rw [Bounded.items_of_popFront hp, List.cons_append] at hitems
      obtain ⟨rfl, hrest⟩ := List.cons.inj hitems
      exact h r.queue p' evs hp hrest
  | none =>
      have hnil := Bounded.popFront_eq_none_iff.mp hp
      rw [hnil, List.nil_append] at hitems
      have hlt : r.queue.items.length < qn := by
        have hle := m.queue.length_le
        rw [Bounded.items_of_popFront hq, List.length_cons] at hle
        rw [hnil, List.length_nil]
        omega
      obtain ⟨p, hpush, hp⟩ := Bounded.push_of_lt ev hlt
      rw [hnil, List.nil_append] at hp
      obtain ⟨p', hpop, hp'⟩ := Bounded.popFront_of_items hp
      rw [← hitems]
      exact .take ht hnil hpush (h p p' queue.items hpop (by rw [hp', List.nil_append]))

/-- Two machines that serve the same event, the second with less behind it: the shutdown brings
    them together, and another step that emits nothing leaves their queues with the difference
    they had. -/
theorem front_step (S : c.Sound) {m m₁ : Machine Ev Ctx qn tn} {next : Option Nat} {ev : Ev}
    {queue p p' : Bounded Ev qn} {cur : Nat} (hv : m.Valid c) (ht : m.terminated = false)
    (hcur : m.current = some cur) (ho : m.overflow = false)
    (hpop : popTimer c (decrementTimers c 0 m) = none)
    (hq : m.queue.popFront = some (ev, queue)) (hp : p.popFront = some (ev, p'))
    (hroom : p'.items.length ≤ queue.items.length) (hstep : step c u m 0 = .ok (next, m₁)) :
    (m₁.terminated = true ∧
      (m₁.overflow = false → step c u { m with queue := p } 0 = .ok (next, m₁))) ∨
    (m₁.terminated = false ∧ (Silent m₁.journal → m₁.overflow = false ∧
      m₁.queue.items = queue.items ∧ ∃ next' p₁, p₁.items = p'.items ∧
        step c u { m with queue := p } 0 = .ok (next', { m₁ with queue := p₁ }))) := by
  cases hterm : checkTerminate c u ev with
  | true =>
      have hpops : stepPops c m 0 = [ev] := by simp [stepPops, ht, hcur, hpop, hq]
      refine Or.inl ⟨(terminated_of_step S hv ht hstep).mpr ⟨ev, hpops, hterm⟩, fun ho₁ => ?_⟩
      exact terminate_roomier ht ho hcur hpop hq hp hroom S (hv.current_lt cur hcur) hterm hstep ho₁
  | false =>
      have hrel := handle_roomier (u := u) ht ho hcur hpop hq hp hroom hterm
      rw [hstep] at hrel
      obtain ⟨⟨next', r₁⟩, hstep', hr₁⟩ := hrel.of_ok
      have hr₁ : Roomier queue.items p'.items m₁ r₁ := hr₁
      refine Or.inr ⟨((roomier_simulation c u _ _).running hr₁).1, fun hs => ?_⟩
      cases hr₁ with
      | astray hr₁ => exact absurd hs hr₁.loud
      | along hr₁ =>
          obtain ⟨hqueue, hp₁⟩ := hr₁.kept hs
          refine ⟨hr₁.clear, hqueue, next', r₁.queue, hp₁, ?_⟩
          rw [hstep', ← hr₁.same]

/-- Steps that emit nothing before they terminate the machine serve what waits in the queue. -/
theorem served_of_stepUntil (S : c.Sound) (hno : c.hasTimers = false) : ∀ (n : Nat) {evs : List Ev}
    {m r m' : Machine Ev Ctx qn tn}, m.Valid c → m.terminated = false → m.current.isSome →
    m.overflow = false → r = { m with queue := r.queue } →
    m.queue.items = r.queue.items ++ evs →
    (∀ n m', stepUntil c u n m = .ok m' → m'.terminated = false → Silent m'.journal) →
    stepUntil c u n m = .ok m' → m'.terminated = true → m'.overflow = false →
    Served c u evs r m'
  | 0, _, m, _, _, _, ht, _, _, _, _, _, h, ht', _ => by
      cases h
      rw [ht] at ht'
      cases ht'
  | n + 1, evs, m, r, m', hv, ht, hcur, ho, hr, hitems, hsilent, h, ht', ho' => by
      obtain ⟨next, m₁, hstep, hs⟩ := step_spec (u := u) S hv 0
      rw [stepUntil_succ hstep] at h
      obtain ⟨cur, hcur'⟩ := Option.isSome_iff_exists.mp hcur
      have hpop := popTimer_of_no_timers hno (decrementTimers c 0 m)
      cases hq : m.queue.popFront with
      | none =>
          rw [step_of_idle ht hcur' hpop hq, decrementTimers_of_no_timers hno] at hstep
          cases hstep
          rw [if_neg (by simp [ht])] at h
          exact served_of_stepUntil S hno n hv ht hcur ho hr hitems hsilent h ht' ho'
      | some q =>
          obtain ⟨ev, queue⟩ := q
          have htr : r.terminated = false := by
            rw [hr]
            exact ht
          refine Served.of_front htr hq hitems fun p p' evs' hp hrest => ?_
          have hroom : p'.items.length ≤ queue.items.length := by
            rw [hrest, List.length_append]
            exact Nat.le_add_right _ _
          have hne : p.items ≠ [] := by
            rw [Bounded.items_of_popFront hp]
            simp
          have hrp : ({ r with queue := p } : Machine Ev Ctx qn tn) = { m with queue := p } := by
            rw [hr]
          rw [hrp]
          rcases front_step S hv ht hcur' ho hpop hq hp hroom hstep with ⟨ht₁, hmeet⟩ | ⟨ht₁, hkeep⟩
          · rw [if_pos ht₁] at h
            cases h
            exact .turn ht hne (hmeet ho') ho' (.done ht')
          · rw [if_neg (by simp [ht₁])] at h
            have hnext : ∀ n, stepUntil c u (n + 1) m = stepUntil c u n m₁ := fun n => by
              rw [stepUntil_succ hstep, if_neg (by simp [ht₁])]
            obtain ⟨ho₁, hqueue, next', p₁, hp₁, hstep'⟩ := hkeep (hsilent 1 m₁ (hnext 0) ht₁)
            obtain ⟨hv₁, hcur₁⟩ := started_of_step S hv hstep
            refine .turn ht hne hstep' ho₁ (served_of_stepUntil S hno n hv₁ ht₁ (hcur₁ ht₁) ho₁ rfl
              (by rw [hqueue, hrest, hp₁]) ?_ h ht' ho')
            intro n m' h
            exact hsilent (n + 1) m' ((hnext n).trans h)

/-- A start-up that emits nothing with events waiting emits nothing without them. -/
theorem start_of_sent {m m₁ : Machine Ev Ctx qn tn} {next : Option Nat} {queue : Bounded Ev qn}
    (ht : m.terminated = false) (hcur : m.current = none) (ho : m.overflow = false)
    (hq : m.queue.items = []) (hstep : step c u { m with queue } 0 = .ok (next, m₁))
    (hs : Silent m₁.journal) : StartsSilent c u m := by
  have hrel := start_roomier (c := c) (u := u) (m := { m with queue }) (p := m.queue) ht ho 0 hcur
    (by rw [hq]; exact Nat.zero_le _)
  have hsame : ({ ({ m with queue } : Machine Ev Ctx qn tn) with queue := m.queue }) = m := rfl
  rw [hsame, hstep] at hrel
  obtain ⟨⟨next', r⟩, hr, hroomier⟩ := hrel.of_ok
  cases hroomier with
  | astray h => exact absurd hs h.loud
  | along h =>
      have h : Along queue.items m.queue.items m₁ r := h
      intro next₁ m₂ hm₂
      rw [hr] at hm₂
      cases hm₂
      rw [h.same]
      exact hs

theorem BySteps.served (S : c.Sound) (hno : c.hasTimers = false) {m m' : Machine Ev Ctx qn tn}
    {ev : Ev} {evs : List Ev} (hv : m.Valid c) (ht : m.terminated = false) (hcur : m.current = none)
    (ho : m.overflow = false) (hq : m.queue.items = []) (hsilent : StepsSilent c u (ev :: evs) m)
    (h : BySteps c u (ev :: evs) m m') : StartsSilent c u m ∧ Served c u (ev :: evs) m m' := by
  obtain ⟨m₀, n, hsend, hsteps, ht', ho'⟩ := h
  obtain ⟨hm₀, hitems⟩ := sendAll_eq ht hsend
  rw [hq, List.nil_append] at hitems
  cases n with
  | zero =>
      cases hsteps
      rw [hm₀, ht] at ht'
      cases ht'
  | succ n =>
      have hsame : SameCore m m₀ := by
        rw [hm₀]
        exact ⟨rfl, rfl, rfl, rfl⟩
      obtain ⟨next, m₁, hstep, -⟩ := step_spec (u := u) S (hsame.valid hv) 0
      obtain ⟨hv₁, hcur₁⟩ := started_of_step S (hsame.valid hv) hstep
      have ht₁ : m₁.terminated = false := by
        have hpops : stepPops c m₀ 0 = [] := by simp [stepPops, hsame.current, hcur]
        have hiff := terminated_of_step S (hsame.valid hv) (hsame.terminated.trans ht) hstep
        simpa [hpops] using hiff
      rw [stepUntil_succ hstep, if_neg (by simp [ht₁])] at hsteps
      have hnext : ∀ n, stepUntil c u (n + 1) m₀ = stepUntil c u n m₁ := fun n => by
        rw [stepUntil_succ hstep, if_neg (by simp [ht₁])]
      have hs₁ := hsilent m₀ 1 m₁ hsend (hnext 0) ht₁
      rw [hm₀] at hstep
      have hstart := start_of_sent ht hcur ho hq hstep hs₁
      refine ⟨hstart, ?_⟩
      -- the machine that was started without the events
      obtain ⟨next', r, hr, -⟩ := step_spec (u := u) S hv 0
      have hsilent_r := start_of_silent ht hcur ho hq hr (hstart next' r hr)
      obtain ⟨-, ho₁, -, _, hm₁⟩ := hsilent_r m₀.queue
      rw [hstep] at hm₁
      cases hm₁
      have hlt : m.queue.items.length < qn := by
        have hle := m₀.queue.length_le
        rw [hitems, List.length_cons] at hle
        rw [hq, List.length_nil]
        omega
      obtain ⟨p, hpush, hp⟩ := Bounded.push_of_lt ev hlt
      rw [hq, List.nil_append] at hp
      obtain ⟨-, -, -, next'', hstep'⟩ := hsilent_r p
      refine .take ht hq hpush (.turn ht (by simp [hp]) hstep' ho₁ ?_)
      refine served_of_stepUntil S hno n hv₁ ht₁ (hcur₁ ht₁) ho₁ rfl (by rw [hitems, hp]; rfl) ?_
        hsteps ht' ho'
      exact fun n m' h => hsilent m₀ (n + 1) m' hsend ((hnext n).trans h)

/-! ## The three drives -/

/-- On a chart without timers and durings, for events that end with the terminate event: if the
    start-up emits nothing, `dispatch` and `run()` leave the same machine; if nothing is emitted
    before the machine terminates, the steps after the sends leave it too. -/
theorem drives_agree {input : StatechartInput} (hc : statechartImpl input = .ok c)
    (hno : c.hasTimers = false) (hraces : c.activeDurings = []) {k : RunKind}
    (hk : k.channel = true) (evs : List Ev) {stop : Ev} (hstop : checkTerminate c u stop = true)
    (ctx : Ctx) :
    (∀ m m' : ChartMachine c Ev Ctx qn, ByDispatch c u (evs ++ [stop]) (.new ctx) m →
      ByDispatch c u (evs ++ [stop]) (.new ctx) m' → m' = m) ∧
    (StartsSilent c u (.new ctx : ChartMachine c Ev Ctx qn) → ∀ m : ChartMachine c Ev Ctx qn,
      ByDispatch c u (evs ++ [stop]) (.new ctx) m ↔ ByRun c u k (evs ++ [stop]) (.new ctx) m) ∧
    (StepsSilent c u (evs ++ [stop]) (.new ctx : ChartMachine c Ev Ctx qn) →
      ∀ m : ChartMachine c Ev Ctx qn, BySteps c u (evs ++ [stop]) (.new ctx) m →
        ByDispatch c u (evs ++ [stop]) (.new ctx) m ∧
          ByRun c u k (evs ++ [stop]) (.new ctx) m) := by
  obtain ⟨ir, ha⟩ := accepted_of_statechartImpl hc
  have S := ha.sound
  have hserved : ∀ m : ChartMachine c Ev Ctx qn, ByDispatch c u (evs ++ [stop]) (.new ctx) m ↔
      Served c u (evs ++ [stop]) (.new ctx) m := fun m => byDispatch_iff_served rfl rfl
  have hagree : StartsSilent c u (.new ctx : ChartMachine c Ev Ctx qn) →
      ∀ m : ChartMachine c Ev Ctx qn, Served c u (evs ++ [stop]) (.new ctx) m ↔
        ByRun c u k (evs ++ [stop]) (.new ctx) m := by
    intro hstart m
    have hv : (.new ctx : ChartMachine c Ev Ctx qn).Valid c := valid_new ctx
    obtain ⟨next, m₁, hstep, -⟩ := step_spec (u := u) S hv 0
    have hs₁ := hstart next m₁ hstep
    obtain ⟨-, ho₁, -⟩ := start_of_silent rfl rfl rfl rfl hstep hs₁ Bounded.empty
    obtain ⟨ev, rest, he⟩ : ∃ ev rest, evs ++ [stop] = ev :: rest :=
      List.exists_cons_of_ne_nil (by simp)
    constructor
    · intro h
      have hterm := h.terminated S hv ⟨stop, by simp, hstop⟩
      rw [he] at h ⊢
      exact byRun_of_served hraces hno hk rfl hstep ho₁
        ((served_iff_of_silent rfl rfl rfl rfl hstep hs₁).mp h) hterm
    · intro h
      obtain ⟨next', m₂, hstep', -, h⟩ := h.served S hraces hno hk hv
      rw [hstep] at hstep'
      cases hstep'
      rw [he] at h ⊢
      exact (served_iff_of_silent rfl rfl rfl rfl hstep hs₁).mpr h
  refine ⟨fun m m' h h' => ?_, fun hstart m => ?_, fun hsilent m h => ?_⟩
  · exact ((hserved m).mp h).unique ((hserved m').mp h')
  · exact (hserved m).trans (hagree hstart m)
  · obtain ⟨ev, rest, he⟩ : ∃ ev rest, evs ++ [stop] = ev :: rest :=
      List.exists_cons_of_ne_nil (by simp)
    rw [he] at hsilent h
    obtain ⟨hstart, hm⟩ := h.served S hno (valid_new ctx) rfl rfl rfl rfl hsilent
    rw [← he] at hm
    exact ⟨(hserved m).mpr hm, (hagree hstart m).mp hm⟩

/-! ## The journals of the drives, computed -/

def dispatchJournal (c : Chart) (u : UserCode Ev Ctx Val) (fuel : Nat) (evs : List Ev)
    (m : Machine Ev Ctx qn tn) : Option (List TraceEvent) :=
  match dispatchAll c u fuel evs m with
  | .ok (false, m') => some m'.journal
  | _ => none

def stepsJournal (c : Chart) (u : UserCode Ev Ctx Val) (n : Nat) (evs : List Ev)
    (m : Machine Ev Ctx qn tn) : Option (List TraceEvent) :=
  match (sendAll evs m).map (stepUntil c u n) with
  | some (.ok m') => if m'.terminated && !m'.overflow then some m'.journal else none
  | _ => none

/-- For a course of the loop in which the channel gives all of its events. -/
def runJournal (c : Chart) (u : UserCode Ev Ctx Val) (k : RunKind) (wakes : List (Wake Ev Ctx))
    (m : Machine Ev Ctx qn tn) : Option (List TraceEvent) :=
  match run c u k 0 wakes m with
  | .ok (.returned (.ok ()) m') => if m'.overflow then none else some m'.journal
  | _ => none

section

variable (c u) (evs : List Ev) (m : Machine Ev Ctx qn tn)

theorem byDispatch_of_journal (fuel : Nat) (h : (dispatchJournal c u fuel evs m).isSome = true) :
    ∃ m', ByDispatch c u evs m m' ∧ some m'.journal = dispatchJournal c u fuel evs m := by
  unfold dispatchJournal at h ⊢
  split at h
  · rename_i m' hm'
    exact ⟨m', ⟨fuel, hm'⟩, rfl⟩
  · cases h

theorem bySteps_of_journal (n : Nat) (h : (stepsJournal c u n evs m).isSome = true) :
    ∃ m', BySteps c u evs m m' ∧ some m'.journal = stepsJournal c u n evs m := by
  unfold stepsJournal at h ⊢
  split at h
  · rename_i m' hm'
    obtain ⟨m₀, hsend, hsteps⟩ := Option.map_eq_some_iff.mp hm'
    split at h
    · rename_i hend
      obtain ⟨ht, ho⟩ : m'.terminated = true ∧ m'.overflow = false := by simpa using hend
      exact ⟨m', ⟨m₀, n, hsend, hsteps, ht, ho⟩, (if_pos hend).symm⟩
    · cases h
  · cases h

theorem byRun_of_journal (k : RunKind) (wakes : List (Wake Ev Ctx))
    (hpushes : runPushes c u k 0 wakes m = evs.map fun ev => (ev, true))
    (h : (runJournal c u k wakes m).isSome = true) :
    ∃ m', ByRun c u k evs m m' ∧ some m'.journal = runJournal c u k wakes m := by
  have hevs : (runPushes c u k 0 wakes m).map (·.1) = evs := by
    rw [hpushes, List.map_map]
    exact List.map_id evs
  have htaken : ∀ p ∈ runPushes c u k 0 wakes m, p.2 = true := by simp [hpushes]
  unfold runJournal at h ⊢
  split at h
  · rename_i m' hm'
    split at h
    · cases h
    · rename_i ho
      exact ⟨m', ⟨0, wakes, hm', by simpa using ho, by rw [hevs], htaken, fun _ => hevs⟩,
        (if_neg ho).symm⟩
  · cases h

end

/-! ## The relay, driven -/

/-- A relay with room for four events. -/
def relayNew : ChartMachine relayChart Ident Unit 4 := .new ()

def wake (race : Race Ident) : Wake Ident Unit := ⟨id, race, 0⟩

def relaySent : ChartMachine relayChart Ident Unit 4 :=
  (sendAll ["Ping", "Stop"] relayNew).get (by decide +kernel)

theorem relayEnd_isOk : (stepUntil relayChart (relayCode 0 0) 3 relaySent).isOk = true := by
  decide +kernel

/-- The relay after its last step. -/
def relayEnd : ChartMachine relayChart Ident Unit 4 := Except.get _ relayEnd_isOk

theorem relay_stepsSilent : StepsSilent relayChart (relayCode 0 0) ["Ping", "Stop"] relayNew := by
  intro m₀ n m' hsend h ht
  have hsent : sendAll ["Ping", "Stop"] relayNew = some relaySent := (Option.some_get _).symm
  rw [hsent] at hsend
  cases hsend
  have hearly : ∀ n < 3, (match stepUntil relayChart (relayCode 0 0) n relaySent with
      | .ok m' => decide (Silent m'.journal)
      | .error _ => true) = true := by decide +kernel
  rcases Nat.lt_or_ge n 3 with hlt | hge
  · have := hearly n hlt
    rw [h] at this
    simpa using this
  · obtain ⟨n, rfl⟩ := Nat.exists_eq_add_of_le hge
    have hend : relayEnd.terminated = true := by decide +kernel
    have hstopped : stepUntil relayChart (relayCode 0 0) 3 relaySent = .ok relayEnd :=
      Except.eq_ok_get _ relayEnd_isOk
    rw [stepUntil_of_terminated n 3 hstopped hend] at h
    rw [← Except.ok.inj h, hend] at ht
    cases ht

theorem drives_agree_relay : ∃ m : ChartMachine relayChart Ident Unit 4,
    BySteps relayChart (relayCode 0 0) ["Ping", "Stop"] (.new ()) m ∧
      ByDispatch relayChart (relayCode 0 0) ["Ping", "Stop"] (.new ()) m ∧
      ByRun relayChart (relayCode 0 0) (tokio true) ["Ping", "Stop"] (.new ()) m := by
  have hterm : checkTerminate relayChart (relayCode 0 0) "Stop" = true := by decide +kernel
  obtain ⟨m, hm, -⟩ := bySteps_of_journal relayChart (relayCode 0 0) ["Ping", "Stop"] relayNew 3
    (by decide +kernel)
  exact ⟨m, hm, (drives_agree relay_accepted (by decide +kernel) (by decide +kernel) rfl ["Ping"]
    hterm ()).2.2 relay_stepsSilent m hm⟩

def pingStopWakes : List (Wake Ident Unit) :=
  [wake (.event "Ping"), wake .timer, wake (.event "Stop"), wake .timer]

def lateStopWakes : List (Wake Ident Unit) := [wake .timer, wake (.event "Stop"), wake .timer]

/-- Of a relay that emits when it leaves, the steps after the sends serve `Stop` before the emitted
    `Ping`. Of one that emits when it starts, `dispatch` serves `Stop` before it and `run()` after
    it. -/
theorem relay_drives_differ : statechartImpl relay = .ok relayChart ∧
    relayChart.hasTimers = false ∧ relayChart.activeDurings = [] ∧
    (∀ greets parts, checkTerminate relayChart (relayCode greets parts) "Stop" = true) ∧
    (∃ a b r : ChartMachine relayChart Ident Unit 4,
      ByDispatch relayChart (relayCode 0 1) ["Ping", "Stop"] (.new ()) a ∧
      BySteps relayChart (relayCode 0 1) ["Ping", "Stop"] (.new ()) b ∧
      ByRun relayChart (relayCode 0 1) (tokio true) ["Ping", "Stop"] (.new ()) r ∧
      r.journal = a.journal ∧ b.journal ≠ a.journal) ∧
    ∃ a b r : ChartMachine relayChart Ident Unit 4,
      ByDispatch relayChart (relayCode 1 0) ["Stop"] (.new ()) a ∧
      BySteps relayChart (relayCode 1 0) ["Stop"] (.new ()) b ∧
      ByRun relayChart (relayCode 1 0) (tokio true) ["Stop"] (.new ()) r ∧
      b.journal = a.journal ∧ r.journal ≠ a.journal := by
  refine ⟨relay_accepted, by decide +kernel, by decide +kernel, ?_, ?_, ?_⟩
  · intro greets parts
    have hstop : relayChart.terminateEvent = some "Stop" := by decide +kernel
    simp [checkTerminate, hstop, relayCode]
  · obtain ⟨a, ha, hja⟩ := byDispatch_of_journal relayChart (relayCode 0 1) ["Ping", "Stop"]
      relayNew 8 (by decide +kernel)
    obtain ⟨b, hb, hjb⟩ := bySteps_of_journal relayChart (relayCode 0 1) ["Ping", "Stop"]
      relayNew 3 (by decide +kernel)
    obtain ⟨r, hr, hjr⟩ := byRun_of_journal relayChart (relayCode 0 1) ["Ping", "Stop"]
      relayNew (tokio true) pingStopWakes (by decide +kernel) (by decide +kernel)
    refine ⟨a, b, r, ha, hb, hr, Option.some.inj ?_, fun he => ?_⟩
    · rw [hjr, hja]
      decide +kernel
    · have he := congrArg some he
      rw [hjb, hja] at he
      revert he
      decide +kernel
  · obtain ⟨a, ha, hja⟩ := byDispatch_of_journal relayChart (relayCode 1 0) ["Stop"] relayNew 8
      (by decide +kernel)
    obtain ⟨b, hb, hjb⟩ := bySteps_of_journal relayChart (relayCode 1 0) ["Stop"] relayNew 2
      (by decide +kernel)
    obtain ⟨r, hr, hjr⟩ := byRun_of_journal relayChart (relayCode 1 0) ["Stop"] relayNew
      (tokio true) lateStopWakes (by decide +kernel) (by decide +kernel)
    refine ⟨a, b, r, ha, hb, hr, Option.some.inj ?_, fun he => ?_⟩
    · rw [hjb, hja]
      decide +kernel
    · have he := congrArg some he
      rw [hjr, hja] at he
      revert he
      decide +kernel

end Hsmc
