import Hsmc.Abstract.Core

/-
  The acts a step will perform, read off the tables and the machine before it.

  A step either starts the machine, or lets time pass and then fires one timer, handles one
  event, or does nothing. Which states it leaves and enters is decided by the innermost state,
  the target and the tables alone, so the plan can be computed beforehand (`stepActs`).
-/

namespace Hsmc

namespace Chart

variable (c : Chart)

/-- The states a transition leaves, from the path table. -/
def leaves (src dst : Nat) : List Nat :=
  match c.pathRange[src * c.nStates + dst]? with
  | some (s, mid, _) => (c.pathData.drop s).take (mid - s)
  | none => []

/-- The states a transition enters, from the path table. -/
def enters (src dst : Nat) : List Nat :=
  match c.pathRange[src * c.nStates + dst]? with
  | some (_, mid, e) => (c.pathData.drop mid).take (e - mid)
  | none => []

def moveActs (src dst : Nat) : List Act :=
  (c.leaves src dst).map .leave ++ (c.enters src dst).map .enter

/-- The default transitions from `cur`, as long as each enters something. -/
def descendActs : Nat → Nat → List Act
  | 0, _ => []
  | fuel + 1, cur =>
      match c.defaultOf cur with
      | none => []
      | some target =>
          c.moveActs cur target ++
            if (c.enters cur target).isEmpty then [] else descendActs fuel target

def transitionActs (src dst : Nat) : List Act :=
  c.moveActs src dst ++ if (c.enters src dst).isEmpty then [] else c.descendActs c.nStates dst

/-- The moves of a handler with this target. -/
def handlerActs (cur : Nat) (target : Option Nat) : List Act :=
  match target with
  | none => []
  | some dst => c.transitionActs cur dst

end Chart

variable {Ev Ctx Val : Type} {qn tn : Nat} (c : Chart) (u : UserCode Ev Ctx Val)

/-- What the event at the front of the queue will do. -/
def eventActs (cur : Nat) (ev : Ev) : List Act :=
  if checkTerminate c u ev then (c.pathToRoot cur).map .leave
  else match c.bubbleUp cur (eventToId c u ev) with
    | some (_, _, target) => c.handlerActs cur target
    | none => []

/-- What an expired timer, or else the front of the queue, will do. -/
def workActs (cur : Nat) (m : Machine Ev Ctx qn tn) : List Act :=
  match popTimer c m with
  | some ((s, t), _) => .fire s t :: c.handlerActs cur ((c.handlerLookup s 1 t).bind (·.2))
  | none =>
      match m.queue.popFront with
      | some (ev, _) => eventActs c u cur ev
      | none => []

def stepActs (m : Machine Ev Ctx qn tn) (elapsed : Nat) : List Act :=
  if m.terminated then []
  else match m.current with
    | none => .enter 0 :: c.descendActs c.nStates 0
    | some cur => .tick elapsed :: workActs c u cur (decrementTimers c elapsed m)

/-! ## Moves -/

/-- Entering or leaving a state. -/
def Act.IsMove : Act → Prop
  | .enter _ | .leave _ => True
  | _ => False

namespace Chart

theorem isMove_moveActs (src dst : Nat) : ∀ x ∈ c.moveActs src dst, x.IsMove := by
  intro x hx
  rcases List.mem_append.mp hx with hx | hx <;> obtain ⟨s, -, rfl⟩ := List.mem_map.mp hx <;>
    trivial

theorem isMove_descendActs : ∀ (fuel cur : Nat), ∀ x ∈ c.descendActs fuel cur, x.IsMove
  | 0, _, x, hx => by cases hx
  | fuel + 1, cur, x, hx => by
      unfold Chart.descendActs at hx
      cases hd : c.defaultOf cur with
      | none => rw [hd] at hx; cases hx
      | some target =>
          rw [hd] at hx
          rcases List.mem_append.mp hx with hx | hx
          · exact isMove_moveActs c _ _ x hx
          · split at hx
            · cases hx
            · exact isMove_descendActs fuel target x hx

theorem isMove_handlerActs (cur : Nat) (target : Option Nat) :
    ∀ x ∈ c.handlerActs cur target, x.IsMove := by
  intro x hx
  cases target with
  | none => cases hx
  | some dst =>
      rcases List.mem_append.mp hx with hx | hx
      · exact isMove_moveActs c _ _ x hx
      · split at hx
        · cases hx
        · exact isMove_descendActs c _ _ x hx

end Chart

theorem isMove_eventActs (cur : Nat) (ev : Ev) :
    ∀ x ∈ eventActs c u cur ev, x.IsMove := by
  intro x hx
  unfold eventActs at hx
  split at hx
  · obtain ⟨s, -, rfl⟩ := List.mem_map.mp hx
    trivial
  · split at hx
    · exact Chart.isMove_handlerActs c _ _ x hx
    · cases hx

theorem Act.IsMove.ne_tick {x : Act} (h : x.IsMove) (elapsed : Nat) : x ≠ .tick elapsed := by
  rintro rfl
  exact h

theorem workActs_ne_tick {c : Chart} {u : UserCode Ev Ctx Val} (cur : Nat)
    (m : Machine Ev Ctx qn tn) : ∀ x ∈ workActs c u cur m, ∀ e, x ≠ Act.tick e := by
  unfold workActs
  split
  · exact List.forall_mem_cons.mpr ⟨by simp, fun x hx => (c.isMove_handlerActs _ _ x hx).ne_tick⟩
  · split
    · exact fun x hx => (isMove_eventActs c u _ _ x hx).ne_tick
    · simp

/-- Time passes only at the beginning of a step. -/
theorem stepActs_cases (c : Chart) (u : UserCode Ev Ctx Val) (m : Machine Ev Ctx qn tn)
    (elapsed : Nat) : ∃ acts, (∀ x ∈ acts, ∀ e, x ≠ Act.tick e) ∧
      (stepActs c u m elapsed = acts ∨ stepActs c u m elapsed = .tick elapsed :: acts) := by
  unfold stepActs
  split
  · exact ⟨[], by simp, Or.inl rfl⟩
  · split
    · refine ⟨_, ?_, Or.inl rfl⟩
      exact List.forall_mem_cons.mpr ⟨by simp, fun x hx => (c.isMove_descendActs _ _ x hx).ne_tick⟩
    · exact ⟨_, workActs_ne_tick _ _, Or.inr rfl⟩

/-! ## The plan in terms of the tree -/

namespace Chart.Sound

variable {c} (S : c.Sound)

theorem paths_eq {src dst : Nat} (hs : src < c.nStates) (hd : dst < c.nStates) :
    c.leaves src dst = S.tree.exitPath src dst ∧ c.enters src dst = S.tree.enterPath src dst := by
  obtain ⟨s, m, e, hr, hl, he⟩ := S.path_get hs hd
  unfold Chart.leaves Chart.enters
  rw [hr]
  exact ⟨hl.eq, he.eq⟩

theorem bubbleUp_eq {s : Nat} (hs : s < c.nStates) (v : Nat) :
    c.bubbleUp s v =
      (S.tree.up s).findSome? fun h => (c.handlerLookup h 0 v).map fun g => (h, g) := by
  unfold Chart.bubbleUp
  rw [S.pathToRoot_eq hs]

include S in
/-- The dispatch table holds the result of the search. -/
theorem dispatch_eq {s v : Nat} (hs : s < c.nStates) (hv : v < c.nEvents) :
    c.dispatch[s * c.nEvents + v]? =
      some (((c.bubbleUp s v).map fun (h, g) => (h, g.1, g.2)).getD (u16Max, [], none)) := by
  rw [S.dispatch_get hs hv, S.bubbleUp_eq hs]
  rw [List.map_findSome?]
  simp only [Function.comp_def, Option.map_map]

/-- The handling state is on the walk, and so is the id of a state. -/
theorem bubbleUp_some {s v h : Nat} {g : Group} (hs : s < c.nStates)
    (hb : c.bubbleUp s v = some (h, g)) :
    h ∈ S.tree.up s ∧ h < c.nStates ∧ c.handlerLookup h 0 v = some g := by
  rw [S.bubbleUp_eq hs] at hb
  obtain ⟨x, hx, hb⟩ := List.exists_of_findSome?_eq_some hb
  obtain ⟨g', hg, he⟩ := Option.map_eq_some_iff.mp hb
  cases he
  exact ⟨hx, S.up_lt hs hx, hg⟩

end Chart.Sound

end Hsmc
