import Hsmc.Link.Emits
import Hsmc.Safety.Timers

/-
  What a `dispatch` leaves undone.

  The draining loop only looks at the queue, so nothing is queued when it returns. The step
  that took the last event found no timer expired, since expired timers go first; but it may
  itself arm timers of no duration, and these stay in the table (`dispatch_leaves_expired`).

  * `leftArmed`: the timers that a step will arm and not cancel again.
  * `Core.Run.leaves`: the expired timers after some moves are those among them that have no
    duration.
  * `dispatch_quiescent_iff`: so the machine is quiescent unless the last step leaves such a
    timer.
-/

open Computability

namespace Hsmc

open Machine

variable {Ev Ctx Val : Type} {qn tn : Nat} {c : Chart} {u : UserCode Ev Ctx Val}

/-! ## The timers that moves leave armed -/

/-- A state that is entered arms its timers, as far as the table has room. `live` is what is
    live before the acts, and `new` what was armed so far. -/
def armsLeft (c : Chart) : List Act → List (Nat × Nat) → List (Nat × Nat) → List (Nat × Nat)
  | [], _, new => new
  | .enter s :: acts, live, new =>
      let own := ((c.ownedTimers s).take (c.maxTimers - live.length)).map fun t => (s, t)
      armsLeft c acts (live ++ own) (new ++ own)
  | .leave s :: acts, live, new =>
      armsLeft c acts (live.filter fun k => k.1 != s) (new.filter fun k => k.1 != s)
  | _ :: acts, live, new => armsLeft c acts live new

/-- The timers that a step without time will arm and not cancel again. -/
def leftArmed (c : Chart) (u : UserCode Ev Ctx Val) (m : ChartMachine c Ev Ctx qn) :
    List (Nat × Nat) :=
  armsLeft c (stepActs c u m 0) m.timers.keys []

theorem keys_starts_take {s : Nat} : ∀ (l : List Nat) {tt : TimerTable tn}, l.Nodup →
    (∀ t ∈ l, (s, t) ∉ tt.keys) →
    (l.foldl (fun tt t => tt.start s t (durationFor c u t)) tt).keys =
      tt.keys ++ (l.take (tn - tt.keys.length)).map fun t => (s, t)
  | [], tt, _, _ => by simp
  | t :: l, tt, hnd, hnew => by
      obtain ⟨ht, hnd⟩ := List.nodup_cons.mp hnd
      have hnew' := fun t' ht' => hnew t' (List.mem_cons_of_mem t ht')
      rw [List.foldl_cons]
      rcases TimerTable.start_cases tt s t (durationFor c u t) with
        ⟨hmem, -⟩ | ⟨hno, hlt, -⟩ | ⟨-, hge, he⟩
      · exact absurd hmem (hnew t List.mem_cons_self)
      · have hkeys := TimerTable.keys_start_of_lt hno hlt (durationFor c u t)
        obtain ⟨r, hr⟩ : ∃ r, tn - tt.keys.length = r + 1 := ⟨tn - tt.keys.length - 1, by omega⟩
        have hr' : tn - (tt.keys ++ [(s, t)]).length = r := by
          rw [List.length_append, List.length_singleton]
          omega
        rw [keys_starts_take l hnd ?_, hkeys, hr', hr]
        · simp
        · intro t' ht'
          rw [hkeys, List.mem_append, List.mem_singleton]
          rintro (h | h)
          · exact hnew' t' ht' h
          · cases h
            exact ht ht'
      · have h0 : tn - tt.keys.length = 0 := by omega
        rw [he, keys_starts_take l hnd hnew', h0]
        simp

/-- The table after some moves: what is live, and the timers among it that the moves armed. The
    expired ones are those of no duration. -/
structure Core.Leaves (c : Chart) (u : UserCode Ev Ctx Val) (live new : List (Nat × Nat))
    (a : Core tn) : Prop where
  keys : a.timers.keys = live
  subset : ∀ k ∈ new, k ∈ live
  expired : ∀ e ∈ a.timers.entries.items,
    e.remainingNs = 0 ↔ e.key ∈ new ∧ asU64 (durationFor c u e.trigger) = 0

theorem Core.Leaves.enter (S : c.Sound) {live new : List (Nat × Nat)} {s : Nat} {st : List Nat}
    {tt : TimerTable c.maxTimers} {j j' : List TraceEvent} (hs : s ∉ st)
    (hok : (Core.mk st tt j).TimersOk c) (h : (Core.mk st tt j).Leaves c u live new) :
    let own := ((c.ownedTimers s).take (c.maxTimers - live.length)).map fun t => (s, t)
    (Core.mk (s :: st) (armOwned c u s tt) j').Leaves c u (live ++ own) (new ++ own) := by
  intro own
  have hnew : ∀ t ∈ c.ownedTimers s, (s, t) ∉ tt.keys := fun t _ hmem => hs (hok.owned _ hmem).1
  have hkeys : (armOwned c u s tt).keys = live ++ own := by
    rw [← h.keys]
    show _ = tt.keys ++ ((c.ownedTimers s).take (c.maxTimers - live.length)).map _
    rw [← h.keys]
    exact keys_starts_take _ (S.ownedTimers_nodup s) hnew
  refine ⟨hkeys, ?_, fun e he => ?_⟩
  · intro k hk
    rcases List.mem_append.mp hk with hk | hk
    · exact List.mem_append_left _ (h.subset k hk)
    · exact List.mem_append_right _ hk
  · rcases mem_items_starts hok.nodup he with ⟨hes, ht, hr⟩ | ⟨he', -⟩
    · have hmem : e.key ∈ live ++ own := hkeys ▸ TimerTable.key_mem_keys he
      have hown : e.key ∈ new ++ own := by
        refine List.mem_append_right _ ((List.mem_append.mp hmem).resolve_left fun hlive => ?_)
        rw [← h.keys] at hlive
        exact hs (hes ▸ (hok.owned _ hlive).1)
      rw [hr]
      exact ⟨fun h0 => ⟨hown, h0⟩, And.right⟩
    · have hno : e.key ∉ own := by
        intro hmem
        obtain ⟨t, -, hk⟩ := List.mem_map.mp hmem
        have hes : s = e.state := congrArg Prod.fst hk
        exact hs (hes ▸ (hok.owned _ (TimerTable.key_mem_keys he')).1)
      rw [h.expired e he', List.mem_append, or_iff_left hno]

theorem Core.Leaves.leave (S : c.Sound) {live new : List (Nat × Nat)} {s : Nat} {st : List Nat}
    {tt : TimerTable tn} {j j' : List TraceEvent} (hok : (Core.mk (s :: st) tt j).TimersOk c)
    (h : (Core.mk (s :: st) tt j).Leaves c u live new) :
    (Core.mk st (cancelOwned c s tt) j').Leaves c u (live.filter fun k => k.1 != s)
      (new.filter fun k => k.1 != s) := by
  have hcancel : cancelOwned c s tt = tt.cancelState s := by
    unfold cancelOwned
    split
    · rfl
    · rename_i hno
      have hnil : tt.entries.items = [] := by
        rw [List.eq_nil_iff_forall_not_mem]
        exact fun e he => hno (S.hasTimers_of_owned (hok.owned _ (TimerTable.key_mem_keys he)).2)
      obtain ⟨⟨items, hle⟩⟩ := tt
      cases hnil
      rfl
  rw [hcancel]
  refine ⟨by rw [TimerTable.keys_cancelState, ← h.keys], fun k hk => ?_, fun e he => ?_⟩
  · rw [List.mem_filter] at hk ⊢
    exact ⟨h.subset k hk.1, hk.2⟩
  · obtain ⟨he, hne⟩ := List.mem_filter.mp he
    rw [h.expired e he, List.mem_filter]
    exact ⟨fun hz => ⟨⟨hz.1, hne⟩, hz.2⟩, fun hz => ⟨hz.1.1, hz.2⟩⟩

/-- What moves without time leave in the table. -/
theorem Core.Run.leaves (S : c.Sound) {acts : List Act} {a b : Core c.maxTimers}
    (h : Core.Run c u acts a b) (hacts : ∀ x ∈ acts, x.IsMove ∨ x = .tick 0)
    (hn : a.Nested S) (hok : a.TimersOk c) {live new : List (Nat × Nat)}
    (ha : a.Leaves c u live new) : ∃ live', b.Leaves c u live' (armsLeft c acts live new) := by
  induction h generalizing live new with
  | refl => exact ⟨live, ha⟩
  | note _ _ ih => exact ih hacts hn ⟨hok.nodup, hok.owned⟩ ⟨ha.keys, ha.subset, ha.expired⟩
  | @act x acts a b d hx _ ih =>
      have hacts' := fun y hy => hacts y (List.mem_cons_of_mem x hy)
      have hn' := hx.nested hn
      have hok' := hx.timersOk S hok
      cases hx with
      | enter _ _ _ =>
          exact ih hacts' hn' hok' (ha.enter S (List.nodup_cons.mp hn'.nodup).1 hok)
      | leave _ => exact ih hacts' hn' hok' (ha.leave S hok)
      | @tick elapsed st tt j =>
          have h0 : elapsed = 0 := by
            rcases hacts _ List.mem_cons_self with hmove | he
            · exact hmove.elim
            · cases he
              rfl
          subst h0
          have hsame : (if c.hasTimers then tt.decrement 0 else tt) = tt := by
            rw [TimerTable.decrement_zero, ite_self]
          simp only [hsame] at ih hn' hok' ⊢
          exact ih hacts' hn' hok' ha
      | fire _ =>
          rcases hacts _ List.mem_cons_self with hmove | he
          · exact hmove.elim
          · cases he

/-! ## A step that handles an event -/

/-- No timer is expired when a step finds none to pop. -/
theorem expired_eq_nil_of_popTimer (S : c.Sound) {m : Machine Ev Ctx qn tn}
    (hok : (m.core c).TimersOk c) (hpop : popTimer c (decrementTimers c 0 m) = none) :
    m.timers.expired = [] := by
  cases ht : c.hasTimers with
  | true =>
      unfold popTimer decrementTimers at hpop
      rw [ht, if_pos rfl, if_pos rfl, TimerTable.decrement_zero] at hpop
      exact TimerTable.popExpired_eq_none_iff.mp hpop
  | false =>
      rw [List.eq_nil_iff_forall_not_mem]
      intro e he
      have hkey := TimerTable.key_mem_keys (TimerTable.mem_expired.mp he).1
      have := S.hasTimers_of_owned (hok.owned _ hkey).2
      rw [ht] at this
      cases this

/-- After a step that handles an event, the expired timers are those of no duration that it left
    armed. -/
theorem expired_of_handled (S : c.Sound) {m m' : ChartMachine c Ev Ctx qn} {ev : Ev}
    {queue : Bounded Ev qn} (hv : m.Valid c) (hok : (m.core c).TimersOk c)
    (hs : StepSpec c u m 0 m') (ht : m.terminated = false) (hcur : m.current.isSome)
    (hpop : popTimer c (decrementTimers c 0 m) = none)
    (hq : m.queue.popFront = some (ev, queue)) :
    m'.timers.expired = [] ↔ ∀ k ∈ leftArmed c u m, asU64 (durationFor c u k.2) ≠ 0 := by
  obtain ⟨cur, hcur⟩ := Option.isSome_iff_exists.mp hcur
  have hacts : ∀ x ∈ stepActs c u m 0, x.IsMove ∨ x = .tick 0 := by
    simp only [stepActs, workActs, ht, hcur, hpop, queue_decrementTimers, hq, Bool.false_eq_true,
      ↓reduceIte]
    exact List.forall_mem_cons.mpr ⟨Or.inr rfl, fun x hx => Or.inl (isMove_eventActs c u _ _ x hx)⟩
  have hstart : (m.core c).Leaves c u m.timers.keys [] := by
    refine ⟨rfl, by simp, fun e he => ⟨fun h0 => ?_, fun h => (nomatch h.1)⟩⟩
    have hmem : e ∈ m.timers.expired := TimerTable.mem_expired.mpr ⟨he, h0⟩
    rw [expired_eq_nil_of_popTimer S hok hpop] at hmem
    cases hmem
  obtain ⟨live, hl⟩ := hs.run.leaves S hacts (hv.nested S) hok hstart
  constructor
  · intro hnil k hk h0
    obtain ⟨e, he, rfl⟩ := List.mem_map.mp (hl.keys ▸ hl.subset k hk)
    have hmem : e ∈ m'.timers.expired :=
      TimerTable.mem_expired.mpr ⟨he, (hl.expired e he).mpr ⟨hk, h0⟩⟩
    rw [hnil] at hmem
    cases hmem
  · intro hall
    rw [List.eq_nil_iff_forall_not_mem]
    intro e he
    obtain ⟨he, h0⟩ := TimerTable.mem_expired.mp he
    obtain ⟨hk, h0⟩ := (hl.expired e he).mp h0
    exact hall _ hk h0

/-! ## The last step of a dispatch -/

/-- A loop that ran to the end of the queue took the last event in its last step. -/
theorem Drains.last {m m' : Machine Ev Ctx qn tn} {ms : List (Machine Ev Ctx qn tn)}
    {result : Except HsmcError Unit} (h : Drains c u m ms result m') (hr : result = .ok ())
    (hq : m.queue.items ≠ []) (ht : m'.terminated = false) :
    m'.queue.items = [] ∧ ∃ x next m₁, ms.getLast? = some x ∧ x.queue.items ≠ [] ∧
      step c u x 0 = .ok (next, m₁) ∧ m' = m₁.takeOverflow.2 := by
  induction h with
  | empty hnil => exact absurd hnil hq
  | overflow _ _ _ => cases hr
  | @terminated m m₁ next _ _ _ ht₁ =>
      have ht : m₁.terminated = false := ht
      rw [ht₁] at ht
      cases ht
  | @turn m m₁ m' next ms result hne h₁ _ _ hd ih =>
      by_cases hq₁ : m₁.takeOverflow.2.queue.items = []
      · cases hd with
        | empty _ => exact ⟨hq₁, m, next, m₁, rfl, hne, h₁, rfl⟩
        | overflow hne' _ _ => exact absurd hq₁ hne'
        | terminated hne' _ _ _ => exact absurd hq₁ hne'
        | turn hne' _ _ _ _ => exact absurd hq₁ hne'
      · obtain ⟨hnil, x, next', m₂, hlast, hx⟩ := ih hr hq₁ ht
        refine ⟨hnil, x, next', m₂, ?_, hx⟩
        rw [List.getLast?_cons, hlast]
        rfl

theorem dispatch_last {fuel : Nat} {ev : Ev} {m m' : Machine Ev Ctx qn tn}
    (hd : dispatch c u fuel ev m = .ok (.ok (), m')) (ht : m'.terminated = false) :
    m'.queue.items = [] ∧ ∃ x next m₁, (dispatchSteps c u fuel ev m).getLast? = some x ∧
      x.queue.items ≠ [] ∧ step c u x 0 = .ok (next, m₁) ∧ m' = m₁.takeOverflow.2 := by
  rcases dispatch_drains hd with ⟨-, -, hr, -⟩ | ⟨-, -, -, hr, -⟩ | ⟨queue, -, hpush, hdrains⟩
  · cases hr
  · cases hr
  · exact hdrains.last rfl (Bounded.ne_nil_of_push hpush) ht

/-- The last event of the queue is only ever taken by a step that handles it or terminates. -/
theorem handled_of_last (S : c.Sound) {m m' : Machine Ev Ctx qn tn} {next : Option Nat}
    (hv : m.Valid c) (hq : m.queue.items ≠ []) (h : step c u m 0 = .ok (next, m'))
    (ht' : m'.terminated = false) (hq' : m'.queue.items = []) :
    m.terminated = false ∧ m.current.isSome ∧ m'.current.isSome ∧
      popTimer c (decrementTimers c 0 m) = none ∧
      ∃ ev queue, m.queue.popFront = some (ev, queue) := by
  have ht : m.terminated = false := by
    cases ht : m.terminated with
    | false => rfl
    | true =>
        rw [step_of_terminated ht] at h
        cases h
        rw [ht] at ht'
        cases ht'
  obtain ⟨rest, acc, ref, hserves⟩ := step_serves S hv ht h
  have hkept : stepPops c m 0 = [] → False := by
    intro hnil
    have hrest := hserves.pops
    rw [hnil, List.nil_append] at hrest
    have hempty := hserves.queue
    rw [ht', if_neg (by decide), hq', ← hrest] at hempty
    exact hq (List.append_eq_nil_iff.mp hempty.symm).1
  cases (step_spec_of_ok S hv h).outcome with
  | halted ht'' _ =>
      rw [ht] at ht''
      cases ht''
  | started _ hcur _ _ _ => exact (hkept (by simp [stepPops, hcur])).elim
  | fired s t tt _ hcur hpop _ _ _ _ =>
      exact (hkept (by simp [stepPops, ht, Option.isSome_iff_ne_none.mp hcur, hpop])).elim
  | idle _ _ _ hnone _ => exact absurd (Bounded.popFront_eq_none_iff.mp hnone) hq
  | handled ev queue _ hcur hpop hfront _ _ _ hcur' _ =>
      exact ⟨ht, hcur, hcur', hpop, ev, queue, hfront⟩
  | terminated _ _ _ _ _ _ _ ht'' _ _ _ =>
      rw [ht'] at ht''
      cases ht''

/-! ## A machine with nothing to do -/

/-- A word that begins with a given letter appends something. -/
theorem not_appends_self {e : TraceEvent} {L : Language TraceEvent} {j : List TraceEvent} :
    ¬ Appends (evt e * L) j j := by
  rintro ⟨w, hw, hj⟩
  obtain ⟨w₁, h₁, w₂, -, rfl⟩ := Language.mem_mul.mp hw
  rw [eq_of_mem_evt h₁] at hj
  have := congrArg List.length hj
  simp at this

/-- A step without time changes nothing exactly when neither an event nor an expired timer
    waits. -/
theorem step_eq_self_iff (S : c.Sound) {m : Machine Ev Ctx qn tn} (hv : m.Valid c)
    (hok : (m.core c).TimersOk c) (ht : m.terminated = false) (hcur : m.current.isSome) :
    (∃ next, step c u m 0 = .ok (next, m)) ↔ m.queue.items = [] ∧ m.timers.expired = [] := by
  constructor
  · rintro ⟨next, h⟩
    cases (step_spec_of_ok S hv h).outcome with
    | halted ht' _ =>
        rw [ht] at ht'
        cases ht'
    | started _ hcur' _ _ _ =>
        rw [hcur'] at hcur
        cases hcur
    | fired _ _ _ _ _ _ _ _ _ hj =>
        obtain ⟨w, hw, hj⟩ := hj
        obtain ⟨s, hw⟩ := Language.mem_iSup.mp hw
        obtain ⟨t, hw⟩ := Language.mem_iSup.mp hw
        rw [mul_assoc] at hw
        exact (not_appends_self ⟨w, hw, hj⟩).elim
    | idle _ _ hpop hq _ =>
        exact ⟨Bounded.popFront_eq_none_iff.mp hq, expired_eq_nil_of_popTimer S hok hpop⟩
    | handled _ _ _ _ _ _ _ _ _ _ hj =>
        obtain ⟨w, hw, hj⟩ := hj
        obtain ⟨v, hw⟩ := Language.mem_iSup.mp hw
        exact (not_appends_self ⟨w, hw, hj⟩).elim
    | terminated _ _ _ _ _ _ _ ht' _ _ _ =>
        rw [ht] at ht'
        cases ht'
  · rintro ⟨hq, hexp⟩
    obtain ⟨cur, hcur⟩ := Option.isSome_iff_exists.mp hcur
    have hsame : decrementTimers c 0 m = m := by
      unfold decrementTimers
      rw [TimerTable.decrement_zero, ite_self]
    have hpop : popTimer c (decrementTimers c 0 m) = none := by
      rw [hsame]
      unfold popTimer
      split
      · exact TimerTable.popExpired_eq_none_iff.mpr hexp
      · rfl
    have hstep := step_of_idle (u := u) ht hcur hpop (Bounded.popFront_eq_none_iff.mpr hq)
    rw [hsame] at hstep
    exact ⟨_, hstep⟩

/-- A `dispatch` that returns `Ok` leaves an empty queue, and leaves the machine quiescent
    exactly when no timer that its last step left armed has no duration (modulo `2^64`). -/
theorem dispatch_quiescent_iff {input : StatechartInput} (hc : statechartImpl input = .ok c)
    {m : ChartMachine c Ev Ctx qn} (h : Reachable c u m) {fuel : Nat} {ev : Ev}
    {m' : ChartMachine c Ev Ctx qn} (hd : dispatch c u fuel ev m = .ok (.ok (), m'))
    (ht : m'.terminated = false) :
    m'.queue.items = [] ∧ ∃ x, (dispatchSteps c u fuel ev m).getLast? = some x ∧
      (m'.timers.expired = [] ↔ ∀ k ∈ leftArmed c u x, asU64 (durationFor c u k.2) ≠ 0) ∧
      ((∃ next, step c u m' 0 = .ok (next, m')) ↔
        ∀ k ∈ leftArmed c u x, asU64 (durationFor c u k.2) ≠ 0) := by
  obtain ⟨S⟩ := sound hc
  have hm' := h.dispatch hd
  obtain ⟨hnil, x, next, m₁, hlast, hq, hstep, he⟩ := dispatch_last hd ht
  have hx := reachable_of_mem_dispatchSteps h (List.mem_of_getLast? hlast)
  have hsame := sameCore_takeOverflow m₁
  rw [← he] at hsame
  obtain ⟨htx, hcur, hcur', hpop, ev', queue, hfront⟩ := handled_of_last S (hx.valid S) hq hstep
    (hsame.terminated.symm.trans ht) (by rw [← hnil, he]; rfl)
  have hexp := expired_of_handled S (hx.valid S) (hx.timers_on_path S)
    (step_spec_of_ok S (hx.valid S) hstep) htx hcur hpop hfront
  rw [← hsame.timers] at hexp
  refine ⟨hnil, x, hlast, hexp, ?_⟩
  rw [step_eq_self_iff S (hm'.valid S) (hm'.timers_on_path S) ht
    (by rw [hsame.current]; exact hcur'), ← hexp]
  exact and_iff_right hnil

theorem lampOn_eq : dispatch lampChart countCode 4 "Toggle"
    (.new 0 : ChartMachine lampChart Ident Nat 4) = .ok (.ok (), lampOn) := by
  have hr : (Except.get _ lampOn_isOk).1 = .ok () := by decide +kernel
  rw [Except.eq_ok_get _ lampOn_isOk, ← hr]
  rfl

theorem dispatch_quiescent_iff_lamp : lampOn.queue.items = [] ∧
    ∃ x : ChartMachine lampChart Ident Nat 4,
      (dispatchSteps lampChart countCode 4 "Toggle" (.new 0)).getLast? = some x ∧
      (lampOn.timers.expired = [] ↔
        ∀ k ∈ leftArmed lampChart countCode x, asU64 (durationFor lampChart countCode k.2) ≠ 0) ∧
      ((∃ next, step lampChart countCode lampOn 0 = .ok (next, lampOn)) ↔
        ∀ k ∈ leftArmed lampChart countCode x, asU64 (durationFor lampChart countCode k.2) ≠ 0) :=
  dispatch_quiescent_iff lamp_accepted (.new 0) lampOn_eq (by decide +kernel)

/-- The lamp with a timer of no duration. -/
def flashCode : UserCode Ident Nat Unit := { countCode with duration := fun _ => 0 }

theorem flashOn_isOk : (dispatch lampChart flashCode 4 "Toggle"
    (.new 0 : ChartMachine lampChart Ident Nat 4)).isOk = true := by
  decide +kernel

def flashOn : ChartMachine lampChart Ident Nat 4 := (Except.get _ flashOn_isOk).2

/-- `On` has been entered, its timer has run out, and nothing fires it before the next step. -/
theorem dispatch_leaves_expired : statechartImpl lamp = .ok lampChart ∧
    Reachable lampChart flashCode (.new 0 : ChartMachine lampChart Ident Nat 4) ∧
    (∃ result, dispatch lampChart flashCode 4 "Toggle" (.new 0) = .ok (result, flashOn) ∧
      result = .ok ()) ∧
    flashOn.terminated = false ∧ flashOn.timers.expired ≠ [] ∧
    ¬ ∃ next, step lampChart flashCode flashOn 0 = .ok (next, flashOn) := by
  refine ⟨lamp_accepted, .new 0, ⟨_, Except.eq_ok_get _ flashOn_isOk, by decide +kernel⟩,
    by decide +kernel, by decide +kernel, ?_⟩
  rintro ⟨next, h⟩
  have hlen : ((step lampChart flashCode flashOn 0).toOption.map fun r => r.2.journal.length) ≠
      some flashOn.journal.length := by decide +kernel
  rw [h] at hlen
  exact hlen rfl

end Hsmc
