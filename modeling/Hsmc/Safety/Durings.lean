import Hsmc.Safety.Timers

/-
  Which durings `run()` polls, and when a timer-only `run()` gives up.

  The race arms are generated for the states that the macro takes to be the innermost ones. The
  root and the composites with a default are left out (`Skipped`), although an up-transition
  rests on such a composite, and a chart without a default on its root.

  * `raceArm_spec`: the durings polled are those of the path, or none on a skipped state.
  * `Looping.next_spec`: a `run()` that has nothing to wait for has no live timer.
  * `durings_run_iff`: the durings of the path are what runs, and are waited for, exactly when
    the innermost state is not skipped or its path declares none.
-/

open Computability

namespace Hsmc

open Machine

variable {Ev Ctx Val : Type} {qn tn : Nat} {input : StatechartInput} {ir : Ir} {c : Chart}
  {u : UserCode Ev Ctx Val}

/-! ## The durings of a path -/

/-- The durings declared on state `s`, in declaration order. -/
def declaredDurings (ir : Ir) (s : Nat) : List During :=
  ((ir.states[s]?).map (·.durings)).getD []

/-- The durings declared from `s` up to the root, those of `s` first. -/
def pathDurings (c : Chart) (ir : Ir) (s : Nat) : List During :=
  (c.pathToRoot s).flatMap (declaredDurings ir)

/-- No race arm is generated for the root, nor for a composite with a default. -/
def Skipped (ir : Ir) (s : Nat) : Prop :=
  ∃ x, ir.states[s]? = some x ∧ ((x.children ≠ [] ∧ x.defaultChild.isSome) ∨ x.parent = none)

theorem duringChain_eq (T : StateTree ir.states) : ∀ (fuel s : Nat), T.level s < fuel →
    duringChain ir.states fuel (some s) = (T.tree.up s).flatMap (declaredDurings ir)
  | 0, _, h => by omega
  | fuel + 1, s, h => by
      unfold duringChain
      cases hp : parentOf ir.states s with
      | none =>
          have hnil : ∀ n, duringChain ir.states n none = [] := by
            intro n
            cases n <;> rfl
          rw [T.tree.up_of_root hp, hnil]
          simp [declaredDurings]
      | some p =>
          have hlev := T.level_parent hp
          rw [T.tree.up_of_parent hp, List.flatMap_cons, ← duringChain_eq T fuel p (by omega)]
          rfl

/-- An arm that is generated for some states only is found at the index of its state. -/
theorem lookup_filterMap_arms {β : Type} (f : StateIr → Option β) :
    ∀ (l : List StateIr) (k i : Nat), (∀ j s, l[j]? = some s → s.id = k + j) →
    (l.filterMap fun s => (f s).map fun b => (s.id, b)).lookup (k + i) = (l[i]?).bind f
  | [], _, _, _ => by simp
  | s :: l, k, i, hid => by
      have hs : s.id = k := hid 0 s rfl
      have htail : ∀ i, (l.filterMap fun s => (f s).map fun b => (s.id, b)).lookup (k + 1 + i) =
          (l[i]?).bind f := fun i =>
        lookup_filterMap_arms f l (k + 1) i fun j s h => by
          rw [hid (j + 1) s h]; omega
      rw [List.filterMap_cons]
      cases i with
      | zero =>
          cases hf : f s with
          | some b => simp [hf, hs]
          | none =>
              simp only [Option.map_none, Nat.add_zero, List.getElem?_cons_zero, Option.bind_some,
                hf]
              rw [List.lookup_eq_none_iff]
              intro p hp
              obtain ⟨s', hs', hfs⟩ := List.mem_filterMap.mp hp
              obtain ⟨b, -, rfl⟩ := Option.map_eq_some_iff.mp hfs
              obtain ⟨j, hj⟩ := List.mem_iff_getElem?.mp hs'
              have hne : k ≠ s'.id := by
                rw [hid (j + 1) s' hj]; omega
              simpa using hne
      | succ i =>
          have hne : (k + (i + 1) == k) = false := by simp
          have hidx : k + (i + 1) = k + 1 + i := by omega
          rw [List.getElem?_cons_succ, ← htail i]
          cases f s with
          | some b =>
              simp only [Option.map_some, List.lookup_cons, hs, hne]
              rw [hidx]
          | none =>
              simp only [Option.map_none]
              rw [hidx]

/-- What is polled on a state, if a race arm is generated for it. -/
def raceArm (ir : Ir) (x : StateIr) : Option (List During) :=
  if !x.children.isEmpty && x.defaultChild.isSome then none
  else if x.parent.isNone then none
  else
    let chain := duringChain ir.states (ir.states.length + 1) (some x.id)
    if chain.isEmpty then none else some chain

theorem activeDurings_eq (ir : Ir) : activeDuringsPerInnermostState ir =
    ir.states.filterMap fun x => (raceArm ir x).map fun durings => (x.id, durings) := by
  unfold activeDuringsPerInnermostState raceArm
  congr 1
  funext x
  dsimp only
  split_ifs <;> rfl

theorem lookup_activeDurings (ha : Accepted input c ir) (s : Nat) :
    c.activeDurings.lookup s = (ir.states[s]?).bind (raceArm ir) := by
  have hid : ∀ j x, ir.states[j]? = some x → x.id = 0 + j := fun j x h => by
    rw [ha.wf.tree.id_eq j x h, Nat.zero_add]
  have := lookup_filterMap_arms (raceArm ir) ir.states 0 s hid
  rwa [← activeDurings_eq, Nat.zero_add, ← (generate_spec ha.generated).activeDurings] at this

/-- The race arm of `s` holds the durings of its path, unless `s` is skipped. -/
theorem raceArm_spec (ha : Accepted input c ir) {s : Nat} (hs : s < c.nStates) :
    (Skipped ir s → c.activeDurings.lookup s = none) ∧
    (¬ Skipped ir s → c.activeDurings.lookup s =
      if (pathDurings c ir s).isEmpty then none else some (pathDurings c ir s)) := by
  have hw := ha.wf
  let T := hw.tree.stateTree hw.nonempty
  have hlt : s < ir.states.length := by rwa [← (generate_spec ha.generated).nStates]
  obtain ⟨x, hx⟩ : ∃ x, ir.states[s]? = some x := ⟨_, List.getElem?_eq_getElem hlt⟩
  have hchain : duringChain ir.states (ir.states.length + 1) (some x.id) = pathDurings c ir s := by
    have hlev := T.level_lt hlt
    rw [hw.tree.id_eq s x hx, duringChain_eq T _ _ (by omega)]
    unfold pathDurings
    rw [ha.sound.pathToRoot_eq hs]
    rfl
  have hskip : Skipped ir s ↔
      (!x.children.isEmpty && x.defaultChild.isSome) = true ∨ x.parent.isNone = true := by
    unfold Skipped
    simp [hx]
  rw [lookup_activeDurings ha, hx, Option.bind_some, hskip]
  unfold raceArm
  rw [hchain]
  constructor
  · rintro (h | h)
    · rw [if_pos h]
    · rw [if_pos h]
      split <;> rfl
  · intro h
    rw [not_or] at h
    rw [if_neg h.1, if_neg h.2]

/-! ## When a timer-only `run()` gives up -/

theorem terminated_of_doTerminate {m m' : Machine Ev Ctx qn tn} (h : doTerminate c u m = .ok m') :
    m'.terminated = true := by
  unfold doTerminate at h
  simp only at h
  split at h
  · obtain ⟨range, -, h⟩ := Except.bind_eq_ok.mp h
    obtain ⟨path, -, h⟩ := Except.bind_eq_ok.mp h
    cases h
    rfl
  · cases h
    rfl

/-- A step that reports no next timer leaves none live, unless it ends the machine. -/
theorem step_next {m m' : Machine Ev Ctx qn tn} {elapsed : Nat}
    (h : step c u m elapsed = .ok (none, m')) :
    m'.terminated = true ∨ minRemaining c m' = none := by
  unfold step at h
  split at h
  · rename_i ht
    cases h
    exact Or.inl ht
  · split at h
    · obtain ⟨m₁, -, h⟩ := Except.bind_eq_ok.mp h
      simp only [Except.ok.injEq, Prod.mk.injEq] at h
      exact Or.inr (h.2 ▸ h.1)
    · simp only at h
      split at h
      · obtain ⟨m₁, -, h⟩ := Except.bind_eq_ok.mp h
        simp only [Except.ok.injEq, Prod.mk.injEq] at h
        obtain ⟨hn, rfl⟩ := h
        right
        unfold Hsmc.minRemaining
        split
        · exact hn
        · rfl
      · split at h
        · simp only [Except.ok.injEq, Prod.mk.injEq] at h
          exact Or.inr (h.2 ▸ h.1)
        · split at h
          · obtain ⟨m₁, hm₁, h⟩ := Except.bind_eq_ok.mp h
            cases h
            exact Or.inl (terminated_of_doTerminate hm₁)
          · obtain ⟨m₁, -, h⟩ := Except.bind_eq_ok.mp h
            simp only [Except.ok.injEq, Prod.mk.injEq] at h
            exact Or.inr (h.2 ▸ h.1)

/-- Nothing is live when no timer remains. -/
theorem items_of_minRemaining (S : c.Sound) {m : Machine Ev Ctx qn tn}
    (hok : (m.core c).TimersOk c) (h : minRemaining c m = none) : m.timers.entries.items = [] := by
  unfold Hsmc.minRemaining at h
  split at h
  · unfold TimerTable.minRemaining at h
    rw [List.min?_eq_none_iff, List.map_eq_nil_iff] at h
    exact h
  · rename_i hno
    rw [List.eq_nil_iff_forall_not_mem]
    intro e he
    exact hno (S.hasTimers_of_owned (hok.owned _ (TimerTable.key_mem_keys he)).2)

/-- A `run()` without a next timer has no live timer. -/
theorem Looping.next_spec (S : c.Sound) {k : RunKind} {s : RunState Ev Ctx qn c.maxTimers}
    (h : Looping c u k s) (ht : s.machine.terminated = false) (hnext : s.next = none) :
    s.machine.timers.entries.items = [] := by
  have hok := h.reachable.timers_on_path S
  cases h with
  | start hm hs =>
      obtain ⟨-, -, hstep, -⟩ := runStart_looping hs
      rw [hnext] at hstep
      have hmin := (step_next hstep).resolve_left (by rw [ht]; simp)
      exact items_of_minRemaining S hok hmin
  | turn _ hturn =>
      obtain ⟨-, m₁, -, hstep, -⟩ := runTurn_looping hturn
      rw [hnext] at hstep
      have hmin := (step_next hstep).resolve_left (by rw [ht]; simp)
      exact items_of_minRemaining S hok hmin

/-- A timer-only `run()` that returns without an error and without having terminated found no
    next timer and no race arm. -/
theorem runTurn_gives_up {k : RunKind} {w : Wake Ev Ctx} {s : RunState Ev Ctx qn tn}
    {m : Machine Ev Ctx qn tn} (hk : k.channel = false) (ht : s.machine.terminated = false)
    (h : runTurn c u k w s = .ok (.returned (.ok ()) m)) :
    s.next = none ∧ c.hasActiveDuring s.machine.current = false ∧ m = s.machine.takeOverflow.2 := by
  unfold runTurn at h
  rw [ht, hk] at h
  simp only [Bool.false_eq_true, ↓reduceIte, Bool.not_false, Bool.true_and, Bool.false_and] at h
  have hstep : ∀ {now} {s₁ : RunState Ev Ctx qn tn},
      runStep c u k now s₁ ≠ .ok (.returned (.ok ()) m) := by
    intro now s₁ h
    unfold runStep at h
    obtain ⟨p, -, h⟩ := Except.bind_eq_ok.mp h
    cases h
  split at h
  · cases h
  · split at h
    · exact absurd h hstep
    · split at h
      · rename_i hgive
        cases h
        have hgive : s.next = none ∧
            c.hasActiveDuring s.machine.takeOverflow.2.current = false := by
          simpa using hgive
        exact ⟨hgive.1, hgive.2, rfl⟩
      · split at h <;> exact absurd h hstep

/-! ## The durings that run -/

/-- What is polled on `s` is what the path of `s` declares, and a timer-only `run()` gives up on
    `s` only when that is nothing and no timer is live. -/
def DuringsRun (c : Chart) (u : UserCode Ev Ctx Val) (qn : Nat) (ir : Ir) (s : Nat) : Prop :=
  c.raceDurings (some s) = pathDurings c ir s ∧
    ∀ (k : RunKind) (r : RunState Ev Ctx qn c.maxTimers) (w : Wake Ev Ctx)
      (m : ChartMachine c Ev Ctx qn), k.channel = false → Looping c u k r →
      r.machine.terminated = false → r.machine.current = some s →
      runTurn c u k w r = .ok (.returned (.ok ()) m) →
      pathDurings c ir s = [] ∧ m.timers.entries.items = []

/-- The durings of the active path run, and are waited for, exactly on the innermost states that
    get a race arm and on those whose path declares none. -/
theorem durings_run_iff (hc : statechartImpl input = .ok c) :
    ∃ ir, Accepted input c ir ∧ ∀ (m : ChartMachine c Ev Ctx qn) (s : Nat), Reachable c u m →
      m.current = some s → (DuringsRun c u qn ir s ↔ ¬ Skipped ir s ∨ pathDurings c ir s = []) := by
  obtain ⟨ir, ha⟩ := accepted_of_statechartImpl hc
  have S := ha.sound
  refine ⟨ir, ha, ?_⟩
  intro m s hm hcur
  have hs := (hm.valid S).current_lt s hcur
  obtain ⟨hskipped, harm⟩ := raceArm_spec ha hs
  have hrace : c.raceDurings (some s) = (c.activeDurings.lookup s).getD [] := rfl
  have hactive : c.hasActiveDuring (some s) = (c.activeDurings.lookup s).isSome := rfl
  constructor
  · rintro ⟨hpolled, -⟩
    by_cases hsk : Skipped ir s
    · right
      rw [← hpolled, hrace, hskipped hsk]
      rfl
    · exact Or.inl hsk
  · intro h
    have hlook : (c.activeDurings.lookup s).getD [] = pathDurings c ir s ∧
        ((c.activeDurings.lookup s).isSome = false → pathDurings c ir s = []) := by
      rcases Classical.em (Skipped ir s) with hsk | hsk
      · have hnil := h.resolve_left fun h => h hsk
        rw [hskipped hsk, hnil]
        exact ⟨rfl, fun _ => rfl⟩
      · rw [harm hsk]
        split
        · rename_i hnil
          rw [List.isEmpty_iff.mp hnil]
          exact ⟨rfl, fun _ => rfl⟩
        · exact ⟨rfl, fun h => by cases h⟩
    refine ⟨hrace.trans hlook.1, ?_⟩
    intro k r w m' hk hr ht hrcur hturn
    obtain ⟨hnext, hgive, rfl⟩ := runTurn_gives_up hk ht hturn
    rw [hrcur, hactive] at hgive
    exact ⟨hlook.2 hgive, hr.next_spec S ht hnext⟩

/-- A composite with a during and a default, left for itself by an up-transition. -/
def beacon : StatechartInput where
  name := "Beacon"
  body := {
    contextTy := some "BeaconCtx", eventTy := some "BeaconEvent", defaultChild := some "Work"
    defaultCount := 1 }
  children := [
    .mk "Work" {
      durings := [⟨"heartbeat", ["beats"]⟩], defaultChild := some "Run", defaultCount := 1 } [
        .mk "Run" { handlers := [⟨.event "Up" none, "Work", 0⟩] } []]]

def beaconChart : Chart := (statechartImpl beacon).get (by decide +kernel)

theorem beacon_accepted : statechartImpl beacon = .ok beaconChart := Except.eq_ok_get _ _

theorem durings_run_iff_beacon : ∃ ir, Accepted beacon beaconChart ir ∧
    ∀ (m : ChartMachine beaconChart Ident Nat 4) (s : Nat), Reachable beaconChart countCode m →
      m.current = some s →
        (DuringsRun beaconChart countCode 4 ir s ↔
          ¬ Skipped ir s ∨ pathDurings beaconChart ir s = []) :=
  durings_run_iff beacon_accepted

def beaconIr : Ir := (buildIr beacon >>= resolveTransitions).get (by decide +kernel)

theorem beaconUp_isOk : (dispatch beaconChart countCode 4 "Up"
    (.new 0 : ChartMachine beaconChart Ident Nat 4)).isOk = true := by
  decide +kernel

/-- The beacon after `Up`: started, in `Run`, and back up to `Work`. -/
def beaconUp : ChartMachine beaconChart Ident Nat 4 := (Except.get _ beaconUp_isOk).2

/-- `Work` is active and its during is declared, but `run()` polls nothing. -/
theorem during_not_run : Accepted beacon beaconChart beaconIr ∧
    Reachable beaconChart countCode beaconUp ∧ beaconUp.current = some 1 ∧
    beaconUp.terminated = false ∧
    pathDurings beaconChart beaconIr 1 = [⟨"heartbeat", ["beats"]⟩] ∧
    beaconChart.raceDurings beaconUp.current = [] ∧
    ¬ DuringsRun beaconChart countCode 4 beaconIr 1 := by
  have hpath : pathDurings beaconChart beaconIr 1 = [⟨"heartbeat", ["beats"]⟩] := by decide +kernel
  have hrace : beaconChart.raceDurings (some 1) = [] := by decide +kernel
  have hcur : beaconUp.current = some 1 := by decide +kernel
  refine ⟨?_, .dispatch (.new 0) (Except.eq_ok_get _ beaconUp_isOk), hcur, by decide +kernel,
    hpath, by rw [hcur, hrace], ?_⟩
  · obtain ⟨ir, ha⟩ := accepted_of_statechartImpl beacon_accepted
    have hir : Except.ok ir = Except.ok beaconIr :=
      ha.resolved.symm.trans (Except.eq_ok_get (buildIr beacon >>= resolveTransitions) _)
    cases hir
    exact ha
  · rintro ⟨hpolled, -⟩
    rw [hrace, hpath] at hpolled
    cases hpolled

end Hsmc
