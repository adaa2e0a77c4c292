import Hsmc.Link.Reach
import Hsmc.Safety.Names

/-
  Asking a machine for its current state.

  The public enum has a variant for every state but the root, so `current_state` panics where
  the root is the innermost active state (`currentState_iff`). A step comes to rest there when
  it starts a chart whose root has no default, or goes up to the root; where a step comes to
  rest is computed from the tables (`activeAfter`).
-/

namespace Hsmc

variable {Ev Ctx Val : Type} {qn tn : Nat} {c : Chart} {u : UserCode Ev Ctx Val}

/-- `current_state()` returns the variant named after the innermost active state. -/
def ShowsInnermost (input : StatechartInput) (c : Chart) (m : Machine Ev Ctx qn tn) : Prop :=
  ∃ s p, (c.activePath m.current).head? = some s ∧ input.layout[s]? = some p ∧
    currentState c m = .ok p.decl.name

/-! ## The variants -/

/-- In a numbered list of states, an arm that only some states have. -/
theorem TreeOk.lookup_filter {states : List StateIr} (ht : TreeOk states) {β : Type}
    (f : StateIr → β) (q : StateIr → Bool) {i : Nat} {s : StateIr} (hs : states[i]? = some s) :
    ((states.filter q).map fun s => (s.id, f s)).lookup i = if q s then some (f s) else none := by
  cases h : ((states.filter q).map fun s => (s.id, f s)).lookup i with
  | none =>
      rw [if_neg]
      intro hq
      have hmem := List.lookup_eq_none_iff.mp h (s.id, f s)
        (List.mem_map.mpr ⟨s, List.mem_filter.mpr ⟨List.mem_of_getElem? hs, hq⟩, rfl⟩)
      simp [ht.id_eq i s hs] at hmem
  | some b =>
      obtain ⟨l, l', hl, -⟩ := List.lookup_eq_some_iff.mp h
      have hmem : (i, b) ∈ (states.filter q).map fun s => (s.id, f s) := by simp [hl]
      obtain ⟨x, hx, he⟩ := List.mem_map.mp hmem
      obtain ⟨hx, hq⟩ := List.mem_filter.mp hx
      obtain ⟨j, hj⟩ := List.mem_iff_getElem?.mp hx
      cases he
      have hxs : x = s := by
        rw [ht.id_eq j x hj, hj, Option.some.injEq] at hs
        exact hs
      rw [← hxs, if_pos hq]

theorem currentState_of_current {input : StatechartInput} {ir : Ir} (ha : Accepted input c ir)
    (S : c.Sound) {m : Machine Ev Ctx qn tn} {s : Nat} (hs : m.current = some s)
    (hlt : s < c.nStates) : ShowsInnermost input c m ↔ s ≠ 0 := by
  have hl : Laid input ir := resolved_lays ha.resolved (by have := ha.nStates_le; omega)
  have g := generate_spec ha.generated
  have hhead : (c.activePath m.current).head? = some s := by
    obtain ⟨l, hup⟩ := S.tree.up_eq_cons s
    rw [hs, Chart.activePath, S.pathToRoot_eq hlt, hup, List.head?_cons]
  obtain ⟨x, hx⟩ : ∃ x, ir.states[s]? = some x :=
    ⟨_, List.getElem?_eq_getElem (by rw [← g.nStates]; exact hlt)⟩
  obtain ⟨p, hp, hres⟩ := hl.states.flip.exists_of_getElem? hx
  have hlook := hl.tree.lookup_filter (·.name) (·.parent.isSome) hx
  rw [← g.publicStateArms, hres.parent] at hlook
  have hpar : p.parent.isSome = true ↔ s ≠ 0 := by
    rw [← hres.parent]
    refine ⟨?_, fun hne => ?_⟩
    · rintro h rfl
      rw [(hl.tree.root x hx).1] at h
      cases h
    · obtain ⟨q, -, hq, -⟩ := hl.tree.child s x hx hne
      rw [hq]
      rfl
  constructor
  · rintro ⟨s', p', hs', -, hcs⟩ rfl
    rw [if_neg (by rw [hpar]; simp)] at hlook
    simp [currentState, stateIdToPublic, hs, hlook] at hcs
  · intro hne
    have hsome := hpar.mpr hne
    refine ⟨s, p, hhead, hp, ?_⟩
    have hname := hres.name
    rw [if_neg (by simpa [Option.isSome_iff_ne_none] using hsome)] at hname
    rw [if_pos hsome, hname] at hlook
    simp [currentState, stateIdToPublic, hs, hlook]

/-! ## Where a step comes to rest -/

/-- The active states, innermost first, after some acts. -/
def activeAfter (acts : List Act) (st : List Nat) : List Nat :=
  acts.foldl (fun st x => match x with
    | .enter s => s :: st
    | .leave _ => st.tail
    | _ => st) st

theorem Core.Run.active_eq {a b : Core tn} {acts : List Act} (h : Core.Run c u acts a b) :
    b.active = activeAfter acts a.active := by
  induction h with
  | refl => rfl
  | note _ _ ih => exact ih
  | act hx _ ih =>
      rw [ih]
      cases hx <;> rfl

/-- The step does not come to rest at the root. -/
def LeavesRoot (c : Chart) (u : UserCode Ev Ctx Val) (m : Machine Ev Ctx qn tn) (elapsed : Nat) :
    Prop :=
  activeAfter (stepActs c u m elapsed) (c.activePath m.current) ≠ [0]

theorem activePath_zero (S : c.Sound) : c.activePath (some 0) = [0] := by
  rw [Chart.activePath, S.pathToRoot_eq S.nStates_pos, S.tree.up_of_root S.parent_zero]

theorem up_ne_zero (S : c.Sound) {s : Nat} (hs : s ≠ 0) : S.tree.up s ≠ [0] := by
  obtain ⟨l, hl⟩ := S.tree.up_eq_cons s
  rw [hl]
  exact fun h => hs (List.cons.inj h).1

theorem RunsWith.current_ne_zero (S : c.Sound) {m : ChartMachine c Ev Ctx qn}
    (h : RunsWith c u (LeavesRoot c u) m) : m.Valid c ∧ m.current ≠ some 0 := by
  refine h.invariant S (I := fun m => m.current ≠ some 0) (fun _ => by simp [Machine.new])
    (fun m m' hsame hm => by rwa [hsame.current]) ?_
  intro m m' elapsed _ hleaves hs _ hcur'
  have hact := hs.run.active_eq
  simp only [Machine.core, hcur', activePath_zero S] at hact
  exact hleaves hact.symm

/-! ## Charts that never come to rest at the root -/

theorem activeAfter_append (acts acts' : List Act) (st : List Nat) :
    activeAfter (acts ++ acts') st = activeAfter acts' (activeAfter acts st) :=
  List.foldl_append

theorem activeAfter_leave : ∀ (l rest : List Nat), activeAfter (l.map .leave) (l ++ rest) = rest
  | [], _ => rfl
  | _ :: l, rest => activeAfter_leave l rest

theorem activeAfter_enter : ∀ (l st : List Nat), activeAfter (l.map .enter) st = l.reverse ++ st
  | [], _ => rfl
  | s :: l, st => by
      rw [List.reverse_cons, List.append_assoc]
      exact activeAfter_enter l (s :: st)

section

variable (S : c.Sound)

theorem activeAfter_moveActs {src dst : Nat} (hs : src < c.nStates) (hd : dst < c.nStates) :
    activeAfter (c.moveActs src dst) (S.tree.up src) = S.tree.up dst := by
  obtain ⟨hl, he⟩ := S.paths_eq hs hd
  unfold Chart.moveActs
  rw [hl, he, activeAfter_append, S.tree.up_eq_exitPath_append (S.zero_mem hs) (S.zero_mem hd),
    activeAfter_leave, activeAfter_enter,
    ← S.tree.up_eq_enterPath_append (S.zero_mem hs) (S.zero_mem hd)]

/-- Following defaults ends at the target of one, or where it starts when there is none. -/
theorem activeAfter_descendActs : ∀ (fuel : Nat) {cur : Nat}, cur < c.nStates →
    ∃ s, activeAfter (c.descendActs fuel cur) (S.tree.up cur) = S.tree.up s ∧
      (s = cur ∧ (fuel = 0 ∨ c.defaultOf cur = none) ∨ ∃ a, c.defaultOf a = some s)
  | 0, cur, _ => ⟨cur, rfl, .inl ⟨rfl, .inl rfl⟩⟩
  | fuel + 1, cur, hlt => by
      unfold Chart.descendActs
      cases hd : c.defaultOf cur with
      | none => exact ⟨cur, rfl, .inl ⟨rfl, .inr rfl⟩⟩
      | some t =>
          have htlt := S.default_lt hd
          dsimp only
          rw [activeAfter_append, activeAfter_moveActs S hlt htlt]
          split
          · exact ⟨t, rfl, .inr ⟨cur, hd⟩⟩
          · obtain ⟨s, hs, hor⟩ := activeAfter_descendActs fuel htlt
            refine ⟨s, hs, .inr ?_⟩
            rcases hor with ⟨rfl, -⟩ | hdef
            · exact ⟨cur, hd⟩
            · exact hdef

theorem activeAfter_transitionActs {src dst : Nat} (hs : src < c.nStates) (hd : dst < c.nStates) :
    ∃ s, activeAfter (c.transitionActs src dst) (S.tree.up src) = S.tree.up s ∧
      (s = dst ∨ ∃ a, c.defaultOf a = some s) := by
  unfold Chart.transitionActs
  rw [activeAfter_append, activeAfter_moveActs S hs hd]
  split
  · exact ⟨dst, rfl, .inl rfl⟩
  · obtain ⟨s, hs, hor⟩ := activeAfter_descendActs S c.nStates hd
    exact ⟨s, hs, hor.imp_left And.left⟩

end

/-- The root is left by a default, and nothing leads back to it. -/
structure Chart.RootLeft (c : Chart) : Prop where
  default_ : (c.defaultOf 0).isSome = true
  no_default : ∀ s, c.defaultOf s ≠ some 0
  no_target : ∀ s k v g, c.handlerLookup s k v = some g → g.2 ≠ some 0

theorem handlerActs_ne_zero (S : c.Sound) (hr : c.RootLeft) {cur : Nat} (hlt : cur < c.nStates)
    (hcur : cur ≠ 0) {target : Option Nat}
    (ht : ∀ dst, target = some dst → dst < c.nStates ∧ dst ≠ 0) :
    activeAfter (c.handlerActs cur target) (S.tree.up cur) ≠ [0] := by
  cases target with
  | none => exact up_ne_zero S hcur
  | some dst =>
      obtain ⟨hd, hne⟩ := ht dst rfl
      obtain ⟨s, hs, hor⟩ := activeAfter_transitionActs S hlt hd
      rw [Chart.handlerActs, hs]
      refine up_ne_zero S ?_
      rintro rfl
      rcases hor with rfl | ⟨a, ha⟩
      · exact hne rfl
      · exact hr.no_default a ha

theorem workActs_ne_zero (S : c.Sound) (hr : c.RootLeft) {cur : Nat} (hlt : cur < c.nStates)
    (hcur : cur ≠ 0) (m : Machine Ev Ctx qn tn) :
    activeAfter (workActs c u cur m) (S.tree.up cur) ≠ [0] := by
  have htarget : ∀ {s k v g} dst, c.handlerLookup s k v = some g → g.2 = some dst →
      dst < c.nStates ∧ dst ≠ 0 := by
    intro s k v g dst hg hdst
    refine ⟨S.handler_target_lt hg hdst, ?_⟩
    rintro rfl
    exact hr.no_target _ _ _ _ hg hdst
  unfold workActs
  split
  · rename_i s t _ _
    refine handlerActs_ne_zero S hr hlt hcur fun dst hdst => ?_
    obtain ⟨g, hg, hdst⟩ := Option.bind_eq_some_iff.mp hdst
    exact htarget dst hg hdst
  · split
    · rename_i ev _ _
      unfold eventActs
      split
      · rw [S.pathToRoot_eq hlt, ← List.append_nil (S.tree.up cur), List.map_append]
        have h := activeAfter_leave (S.tree.up cur) []
        simp only [List.map_nil, List.append_nil] at h ⊢
        rw [h]
        simp
      · split
        · rename_i h g target hb
          refine handlerActs_ne_zero S hr hlt hcur fun dst hdst => ?_
          obtain ⟨-, -, hg⟩ := S.bubbleUp_some hlt hb
          exact htarget dst hg hdst
        · exact up_ne_zero S hcur
    · exact up_ne_zero S hcur

theorem stepActs_ne_zero (S : c.Sound) (hr : c.RootLeft) {m : Machine Ev Ctx qn tn}
    (hv : m.Valid c) (hm : m.current ≠ some 0) (elapsed : Nat) : LeavesRoot c u m elapsed := by
  unfold LeavesRoot stepActs
  cases ht : m.terminated with
  | true =>
      rw [hv.halted ht]
      simp [activeAfter, Chart.activePath]
  | false =>
      cases hcur : m.current with
      | none =>
          obtain ⟨s, hs, hor⟩ := activeAfter_descendActs S c.nStates S.nStates_pos
          have hrest : activeAfter (.enter 0 :: c.descendActs c.nStates 0) [] = S.tree.up s := by
            rw [← hs, S.tree.up_of_root S.parent_zero]
            rfl
          refine ne_of_eq_of_ne hrest (up_ne_zero S ?_)
          rintro rfl
          rcases hor with ⟨-, hn | hnone⟩ | ⟨a, ha⟩
          · exact S.nStates_pos.ne' hn
          · exact absurd hr.default_ (by simp [hnone])
          · exact hr.no_default a ha
      | some cur =>
          have hlt := hv.current_lt cur hcur
          have hne : cur ≠ 0 := by
            rintro rfl
            exact hm hcur
          have h := workActs_ne_zero (u := u) S hr hlt hne (decrementTimers c elapsed m)
          rwa [← S.pathToRoot_eq hlt] at h

/-! ## The declared chart -/

/-- The root declares a default, and no target names it. -/
def StatechartInput.RootLeft (input : StatechartInput) : Prop :=
  input.body.defaultChild.isSome = true ∧ ¬ input.Targets input.name

section

variable {input : StatechartInput} {ir : Ir}

theorem Laid.targets (hl : Laid input ir) {x : Ident} {id : Nat} (h : input.ResolvesTo ir x id) :
    input.Targets x := by
  obtain ⟨i, p, s, hp, hs, hor⟩ := h
  refine ⟨p, List.mem_of_getElem? hp, ?_⟩
  rcases hor with ⟨hdef, -⟩ | ⟨j, h, h', hh, hh', rfl, hkind⟩
  · exact .inl hdef
  · obtain ⟨s', hs', hst⟩ := hl.states.exists_of_getElem? hp
    rw [hs] at hs'
    cases hs'
    obtain ⟨h'', hh'', hres⟩ := hst.handlers.exists_of_getElem? hh
    rw [hh'] at hh''
    cases hh''
    have hk := hres.kind
    rw [hkind] at hk
    cases hk with
    | transition hmem _ _ _ => exact .inr ⟨hmem, h, List.mem_of_getElem? hh, rfl⟩

/-- Only the chart's own name stands for the root. -/
theorem Laid.ne_zero_of_resolvesTo (hl : Laid input ir) {x : Ident} {id : Nat}
    (h : input.ResolvesTo ir x id) (hx : x ≠ input.name) : id ≠ 0 := by
  rintro rfl
  obtain ⟨hne, s, hs, hname⟩ :=
    mem_of_lookup hl.tree hl.pos (by rwa [hl.name]) (hl.lookup_of_resolvesTo h)
  have hfirst := congrArg (·[0]?) hl.map_name
  simp only [List.getElem?_map, hs, Option.map_some, List.getElem?_cons_zero,
    Option.some.injEq] at hfirst
  exact hne (hname.symm.trans hfirst)

/-- A default child comes from a name. -/
theorem Laid.resolvesTo_default (hl : Laid input ir) {i t : Nat} {s : StateIr}
    (hs : ir.states[i]? = some s) (ht : s.defaultChild = some t) :
    ∃ x, input.ResolvesTo ir x t := by
  obtain ⟨p, hp, hst⟩ := hl.states.flip.exists_of_getElem? hs
  have hd := hst.default_
  split at hd
  · rw [hd] at ht
    cases ht
  · rename_i x hx
    exact ⟨x, i, p, s, hp, hs, .inl ⟨hx, ht⟩⟩

/-- And so does the target of a transition. -/
theorem Laid.resolvesTo_handler (hl : Laid input ir) {i t : Nat} {s : StateIr} {h' : HandlerIr}
    {name : Ident} (hs : ir.states[i]? = some s) (hh' : h' ∈ s.handlers)
    (hk : h'.kind = .transition name (some t)) : input.ResolvesTo ir name t := by
  obtain ⟨p, hp, hst⟩ := hl.states.flip.exists_of_getElem? hs
  obtain ⟨j, hj⟩ := List.mem_iff_getElem?.mp hh'
  obtain ⟨h, hh, hres⟩ := hst.handlers.flip.exists_of_getElem? hj
  have hkind := hres.kind
  rw [hk] at hkind
  refine ⟨i, p, s, hp, hs, .inr ⟨j, h, h', hh, hj, ?_, hk⟩⟩
  cases hkind
  rfl

theorem Accepted.rootLeft (ha : Accepted input c ir) (hr : input.RootLeft) : c.RootLeft := by
  have hl : Laid input ir := resolved_lays ha.resolved (by have := ha.nStates_le; omega)
  have g := generate_spec ha.generated
  have hne : ∀ {x id}, input.ResolvesTo ir x id → id ≠ 0 := by
    intro x id h
    refine hl.ne_zero_of_resolvesTo h ?_
    rintro rfl
    exact hr.2 (hl.targets h)
  constructor
  · obtain ⟨s, hs, hst⟩ := hl.states.exists_of_getElem? (i := 0) (by rw [input.layout_eq]; rfl)
    obtain ⟨x, hx⟩ := Option.isSome_iff_exists.mp hr.1
    have hd := hst.default_
    rw [show input.root.body.defaultChild = some x from hx] at hd
    obtain ⟨t, -, ht⟩ := hd
    rw [g.defaultOf_eq, defaultChildOf, hs, Option.bind_some, ht]
    rfl
  · intro s hs
    rw [g.defaultOf_eq] at hs
    obtain ⟨x, hx, hd⟩ := Option.bind_eq_some_iff.mp hs
    obtain ⟨name, hres⟩ := hl.resolvesTo_default hx hd
    exact hne hres rfl
  · intro s k v grp hgrp htarget
    obtain ⟨x, -, hx, hfrom⟩ := g.handlerLookup_some hl.tree hgrp
    obtain ⟨y, hy, name, hk⟩ := groupFrom_target hfrom htarget
    exact hne (hl.resolvesTo_handler hx (mem_sortHandlers.mp (List.mem_of_mem_filter hy)) hk) rfl

end

/-! ## Started machines -/

/-- Once started, a machine that has not terminated names its innermost active state, unless
    that is the root. In a run where no step comes to rest at the root it always does. So it
    does, in particular, in every chart whose root declares a default and is no target. -/
theorem current_state_total {input : StatechartInput} (hc : statechartImpl input = .ok c) :
    (∀ m : ChartMachine c Ev Ctx qn, Reachable c u m → m.current.isSome = true →
      m.terminated = false → (ShowsInnermost input c m ↔ m.current ≠ some 0)) ∧
    (∀ m : ChartMachine c Ev Ctx qn, RunsWith c u (LeavesRoot c u) m → m.current.isSome = true →
      m.terminated = false → ShowsInnermost input c m) ∧
    (input.RootLeft → ∀ m : ChartMachine c Ev Ctx qn, Reachable c u m →
      m.current.isSome = true → m.terminated = false → ShowsInnermost input c m) := by
  obtain ⟨ir, ha⟩ := accepted_of_statechartImpl hc
  have S := ha.sound
  have hshows : ∀ m : ChartMachine c Ev Ctx qn, m.Valid c → m.current.isSome = true →
      (ShowsInnermost input c m ↔ m.current ≠ some 0) := by
    intro m hv hsome
    obtain ⟨s, hs⟩ := Option.isSome_iff_exists.mp hsome
    rw [currentState_of_current ha S hs (hv.current_lt s hs), hs]
    simp
  refine ⟨fun m hm hsome _ => hshows m (hm.valid S) hsome, fun m hm hsome _ => ?_,
    fun hr m hm hsome _ => ?_⟩
  · obtain ⟨hv, hne⟩ := hm.current_ne_zero S
    exact (hshows m hv hsome).mpr hne
  · have hroot := ha.rootLeft hr
    have hne := hm.runsWith.invariant S (I := fun m => m.current ≠ some 0)
      (fun _ => by simp [Machine.new]) (fun m m' hsame hm => by rwa [hsame.current]) ?_
    · exact (hshows m hne.1 hsome).mpr hne.2
    intro m m' elapsed hv _ hs hm hcur'
    have hact := hs.run.active_eq
    simp only [Machine.core, hcur', activePath_zero S] at hact
    exact stepActs_ne_zero S hroot hv hm elapsed hact.symm

theorem lampStarted_isOk : (step lampChart countCode
    (.new 0 : ChartMachine lampChart Ident Nat 4) 0).isOk = true := by
  decide +kernel

def lampStarted : ChartMachine lampChart Ident Nat 4 := (Except.get _ lampStarted_isOk).2

theorem lampStarted_runsWith :
    RunsWith lampChart countCode (LeavesRoot lampChart countCode) lampStarted :=
  .step (.new 0) (show activeAfter (stepActs lampChart countCode _ 0) _ ≠ [0] by decide +kernel)
    (Except.eq_ok_get _ lampStarted_isOk)

theorem current_state_total_lamp : ShowsInnermost lamp lampChart lampOn ∧
    ShowsInnermost lamp lampChart lampStarted ∧
    ShowsInnermost lamp lampChart lampOn :=
  ⟨((current_state_total lamp_accepted).1 lampOn lampOn_reachable (by decide +kernel)
      (by decide +kernel)).mpr (by decide +kernel),
    (current_state_total lamp_accepted).2.1 lampStarted lampStarted_runsWith (by decide +kernel)
      (by decide +kernel),
    (current_state_total lamp_accepted).2.2 ⟨by decide, by decide +kernel⟩ lampOn lampOn_reachable
      (by decide +kernel) (by decide +kernel)⟩

/-! ## A machine at rest at the root -/

/-- Pressing leads back to the chart itself. -/
def bell : StatechartInput where
  name := "Bell"
  body := {
    contextTy := some "BellCtx", eventTy := some "BellEvent", defaultChild := some "Quiet"
    defaultCount := 1 }
  children := [.mk "Quiet" { handlers := [⟨.event "Press" none, "Bell", 0⟩] } []]

theorem bell_isOk : (statechartImpl bell).isOk = true := by decide +kernel

def bellChart : Chart := Except.get _ bell_isOk

theorem bellUp_isOk : (dispatch bellChart countCode 4 "Press"
    (.new 0 : ChartMachine bellChart Ident Nat 4)).isOk = true := by
  decide +kernel

def bellUp : ChartMachine bellChart Ident Nat 4 := (Except.get _ bellUp_isOk).2

theorem current_state_panics : statechartImpl bell = .ok bellChart ∧
    Reachable bellChart countCode bellUp ∧ bellUp.current = some 0 ∧ bellUp.terminated = false ∧
    currentState bellChart bellUp = .error "internal: state id 0 has no public variant" ∧
    ¬ ShowsInnermost bell bellChart bellUp := by
  have hpanic : currentState bellChart bellUp =
      .error "internal: state id 0 has no public variant" := by decide +kernel
  refine ⟨Except.eq_ok_get _ bell_isOk, .dispatch (.new 0) (Except.eq_ok_get _ bellUp_isOk),
    by decide +kernel, by decide +kernel, hpanic, ?_⟩
  rintro ⟨s, p, -, -, h⟩
  rw [hpanic] at h
  cases h

end Hsmc
