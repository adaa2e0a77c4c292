import Hsmc.Link.Calls
import Hsmc.Link.Reach
import Hsmc.Safety.Armed
import Hsmc.Safety.Names

/-
  Every action that is journaled as invoked is called.

  An action is known by a `u16`. Up to 65536 actions each have an id of their own, and then the
  method called is the one declared, with the payload of the event that is handled
  (`invoked_actions_run`). One action more takes the id of the first, and an invocation of it can
  come to nothing (`invoked_and_skipped`).
-/

namespace Hsmc

open Machine

variable {Ev Ctx Val : Type} {qn tn : Nat} {input : StatechartInput} {c : Chart} {ir : Ir}
  {u : UserCode Ev Ctx Val}

/-- The state declares the action, as an entry, as an exit or in a handler. -/
def Placed.Declares (p : Placed) (kind : ActionKind) (name : Ident) : Prop :=
  match kind with
  | .entry => name ∈ p.decl.body.entries
  | .exit => name ∈ p.decl.body.exits
  | .handler => ∃ h ∈ p.decl.body.handlers, h.target = name

/-- The call that stands for an invocation of action `aid` by state `sid`, while `event` is
    handled. An action with parameters gets those that its handler for the event declares. -/
inductive CallOf (input : StatechartInput) (c : Chart) (u : UserCode Ev Ctx Val)
    (event : Option Ev) (sid aid : Nat) : ActionKind → Ident → List Val → Prop where
  | plain {p : Placed} {a : ActionIr} {kind : ActionKind} : input.layout[sid]? = some p →
      c.actionArms.lookup aid = some a → a.params = [] → p.Declares kind a.name →
      CallOf input c u event sid aid kind a.name []
  | bound {p : Placed} {a : ActionIr} {h : Handler} {ev : Ev} {payload : EventPayload} :
      input.layout[sid]? = some p → c.actionArms.lookup aid = some a → event = some ev →
      h ∈ p.decl.body.handlers → h.target = a.name →
      h.trigger = .event (u.variant ev) (some payload) → a.params = payload.fields →
      a.params ≠ [] → (∃ bv ∈ a.boundVariants, bv.name = u.variant ev) →
      CallOf input c u event sid aid .handler a.name (payloadArgs u payload.fields payload.kind ev)

/-! ## Looking up an action -/

theorem Accepted.laid (ha : Accepted input c ir) : Laid input ir :=
  resolved_lays ha.resolved (by have := ha.nStates_le; omega)

/-- With few enough actions an id leads back to the action it was given to. -/
theorem Accepted.lookup_action (ha : Accepted input c ir)
    (hn : ir.symbols.actions.length ≤ 65536) {i : Ident}
    {use : Option (Ident × EventPayload)} {aid : Nat} (h : ir.symbols.ActionAt i use aid) :
    ∃ a, c.actionArms.lookup aid = some a ∧ a.name = i ∧ (use = none → a.params = []) ∧
      ∀ variant payload, use = some (variant, payload) →
        a.params = payload.fields ∧ ⟨variant, payload.kind⟩ ∈ a.boundVariants ∧
          a ∈ ir.symbols.actions := by
  obtain ⟨p, a, hp, hname, rfl, huse⟩ := h
  have hlt := (List.getElem?_eq_some_iff.mp hp).1
  refine ⟨a, ?_, hname, ?_, ?_⟩
  · rw [(generate_spec ha.generated).actionArms, lookup_indexArms _ _ (asU16_lt p),
      asU16_of_lt (by omega), hp]
    rfl
  · rintro rfl
    exact huse
  · rintro variant payload rfl
    exact ⟨huse.1, huse.2, List.mem_of_getElem? hp⟩

theorem callable_plain {sid aid : Nat} {kind : ActionKind} {event ev : Option Ev} {p : Placed}
    {a : ActionIr} (hp : input.layout[sid]? = some p) (ha : c.actionArms.lookup aid = some a)
    (hparams : a.params = []) (hdecl : p.Declares kind a.name) :
    Callable c u (CallOf input c u event) qn tn sid aid kind ev := by
  refine ⟨a.name, [], .plain hp ha hparams hdecl, fun m => ?_⟩
  unfold runAction
  rw [ha]
  simp [hparams]

/-- The states of an accepted chart, with the lists of actions code generation has for them. -/
theorem Accepted.entriesOf_eq (ha : Accepted input c ir) (sid : Nat) :
    c.entriesOf sid = ((ir.states[sid]?).map (·.entries)).getD [] := by
  unfold Chart.entriesOf Chart.arm
  rw [(generate_spec ha.generated).entriesArms, ha.laid.tree.lookup_arms]

theorem Accepted.exitsOf_eq (ha : Accepted input c ir) (sid : Nat) :
    c.exitsOf sid = ((ir.states[sid]?).map (·.exits)).getD [] := by
  unfold Chart.exitsOf Chart.arm
  rw [(generate_spec ha.generated).exitsArms, ha.laid.tree.lookup_arms]

/-! ## Handlers -/

/-- An action in a handler group was declared in its state, by a handler for its trigger. -/
theorem Accepted.handler_of_group (ha : Accepted input c ir) {sid k v aid : Nat} {g : Group}
    (hg : c.handlerLookup sid k v = some g) (haid : aid ∈ g.1) :
    ∃ p h y, input.layout[sid]? = some p ∧ h ∈ p.decl.body.handlers ∧
      ir.symbols.TriggerAt h.trigger y ∧ triggerKindId y = (k, v) ∧
      ir.symbols.ActionAt h.target h.trigger.use aid := by
  obtain ⟨x, -, hx, hfrom⟩ := (generate_spec ha.generated).handlerLookup_some ha.laid.tree hg
  obtain ⟨y, hy, name, hk⟩ := groupFrom_action hfrom haid
  obtain ⟨hy, hkey⟩ := List.mem_filter.mp hy
  obtain ⟨p, hp, hst⟩ := ha.laid.states.flip.exists_of_getElem? hx
  obtain ⟨h, hh, hres⟩ := hst.handlers.exists_of_mem_right (mem_sortHandlers.mp hy)
  have hkind := hres.kind
  rw [hk] at hkind
  refine ⟨p, h, y.trigger, hp, hh, hres.trigger, Option.some.inj (of_decide_eq_true hkey), ?_⟩
  cases hkind with
  | action _ hat => exact hat

/-- The id of an event belongs to its variant alone. -/
theorem Accepted.variant_of_id (ha : Accepted input c ir) {v : Ident}
    {payload : Option EventPayload} {ev : Ev}
    (h : ir.symbols.EventAt v payload (eventToId c u ev)) : v = u.variant ev := by
  have g := generate_spec ha.generated
  have hlt := g.nEvents_lt ha.laid.pos
  obtain ⟨p, e, hp, rfl, hid, -⟩ := h
  have hplt := (List.getElem?_eq_some_iff.mp hp).1
  rw [asU16_of_lt (by omega)] at hid
  have hle := ha.sound.nEvents_le
  rw [g.nEvents] at hle
  unfold eventToId Chart.arm at hid
  cases hlook : c.eventVariantArms.lookup (u.variant ev) with
  | none =>
      rw [hlook, Option.getD_none] at hid
      omega
  | some id =>
      rw [hlook, Option.getD_some] at hid
      obtain ⟨l, l', hl, -⟩ := List.lookup_eq_some_iff.mp hlook
      have hmem : (u.variant ev, id) ∈ c.eventVariantArms := by
        rw [hl]
        simp
      rw [g.eventVariantArms] at hmem
      obtain ⟨⟨e', i⟩, hei, he⟩ := List.mem_map.mp hmem
      obtain ⟨hname, rfl⟩ := Prod.mk.inj he
      have hi := List.mem_zipIdx_iff_getElem?.mp hei
      have hilt := (List.getElem?_eq_some_iff.mp hi).1
      rw [asU16_of_lt (by omega)] at hid
      subst hid
      rw [hp] at hi
      cases hi
      exact hname

/-- The kind that an action records for a variant is the kind of that variant. -/
theorem kind_of_bound {syms : Symbols} (hok : syms.Ok) {a : ActionIr} (ha : a ∈ syms.actions)
    {bv bv' : BoundVariant} (h : bv ∈ a.boundVariants) (h' : bv' ∈ a.boundVariants)
    (hname : bv.name = bv'.name) : bv.kind = bv'.kind := by
  obtain ⟨e, he, hn, hk⟩ := hok.bound a ha bv h
  obtain ⟨e', he', hn', hk'⟩ := hok.bound a ha bv' h'
  have hee : e = e' := List.inj_on_of_nodup_map hok.events_nodup he he'
    (hn.trans (hname.trans hn'.symm))
  subst hee
  exact variantKind_inj (hk.symm.trans hk')

theorem Accepted.callable_event (ha : Accepted input c ir)
    (hn : ir.symbols.actions.length ≤ 65536) {sid aid : Nat} {ev : Ev} {g : Group}
    (hg : c.handlerLookup sid 0 (eventToId c u ev) = some g) (haid : aid ∈ g.1) :
    Callable c u (CallOf input c u (some ev)) qn tn sid aid .handler (some ev) := by
  obtain ⟨p, h, y, hp, hh, htrig, hkey, hat⟩ := ha.handler_of_group hg haid
  obtain ⟨a, hlook, hname, hplain, hbound⟩ := ha.lookup_action hn hat
  have hdecl : p.Declares .handler a.name := ⟨h, hh, hname.symm⟩
  by_cases hempty : a.params = []
  · exact callable_plain hp hlook hempty hdecl
  -- the handler binds a payload, so it is for an event, and for the one that is handled
  have huse : h.trigger.use ≠ none := fun hnone => hempty (hplain hnone)
  obtain ⟨v, payload, id, ht, rfl, hev⟩ | ⟨e, key, rep, id, ht, -, -⟩ := htrig.inv
  · cases payload with
      | none => exact absurd (by rw [ht]; rfl) huse
      | some payload =>
          have hid : id = eventToId c u ev := by simpa [triggerKindId] using hkey
          rw [hid] at hev
          obtain rfl := ha.variant_of_id hev
          obtain ⟨hparams, hmem, hact⟩ := hbound _ payload (by rw [ht]; rfl)
          refine ⟨a.name, payloadArgs u payload.fields payload.kind ev,
            .bound hp hlook rfl hh hname.symm ht hparams hempty ⟨_, hmem, rfl⟩, fun m => ?_⟩
          obtain ⟨bv, hbv⟩ : ∃ bv, a.boundVariants.find? (fun bv => bv.name == u.variant ev) =
              some bv := Option.isSome_iff_exists.mp (by
            rw [List.find?_isSome]
            exact ⟨_, hmem, by simp⟩)
          have hkind := kind_of_bound ha.laid.ok hact (List.mem_of_find?_eq_some hbv) hmem
            (by simpa using List.find?_some hbv)
          unfold runAction
          simp only [hlook, hbv, hkind]
          rw [if_neg (by simpa using hempty), hparams]
  · exact absurd (by rw [ht]; rfl) huse

theorem Accepted.allCallable (ha : Accepted input c ir)
    (hn : ir.symbols.actions.length ≤ 65536) {event event' : Option Ev}
    (hevent : ∀ ev, event' = some ev → event = some ev) :
    AllCallable c u (CallOf input c u event) qn tn event' := by
  have hplain : ∀ {sid aid : Nat} {kind : ActionKind} {i : Ident} {p : Placed} {ev : Option Ev},
      input.layout[sid]? = some p → p.Declares kind i → ir.symbols.ActionAt i none aid →
      Callable c u (CallOf input c u event) qn tn sid aid kind ev := by
    intro sid aid kind i p ev hp hdecl hat
    obtain ⟨a, hlook, rfl, hparams, -⟩ := ha.lookup_action hn hat
    exact callable_plain hp hlook (hparams rfl) hdecl
  constructor
  · intro sid aid haid
    rw [ha.entriesOf_eq] at haid
    cases hs : ir.states[sid]? with
    | none => simp [hs] at haid
    | some s =>
        rw [hs, Option.map_some, Option.getD_some] at haid
        obtain ⟨p, hp, hst⟩ := ha.laid.states.flip.exists_of_getElem? hs
        obtain ⟨i, hi, hat⟩ := hst.entries.exists_of_mem_right haid
        exact hplain hp hi hat
  · intro sid aid haid
    rw [ha.exitsOf_eq] at haid
    cases hs : ir.states[sid]? with
    | none => simp [hs] at haid
    | some s =>
        rw [hs, Option.map_some, Option.getD_some] at haid
        obtain ⟨p, hp, hst⟩ := ha.laid.states.flip.exists_of_getElem? hs
        obtain ⟨i, hi, hat⟩ := hst.exits.exists_of_mem_right haid
        exact hplain hp hi hat
  · intro sid t g hg aid haid
    obtain ⟨p, h, y, hp, hh, htrig, hkey, hat⟩ := ha.handler_of_group hg haid
    have huse : h.trigger.use = none := by
      obtain ⟨v, payload, id, -, rfl, -⟩ | ⟨e, key, rep, id, ht, -, -⟩ := htrig.inv
      · simp [triggerKindId] at hkey
      · rw [ht]
        rfl
    rw [huse] at hat
    exact hplain hp ⟨h, hh, rfl⟩ hat
  · intro sid ev g hev hg aid haid
    rw [hevent ev hev]
    exact ha.callable_event hn hg haid

/-! ## Runs -/

/-- In an accepted chart with at most 65536 actions, every step performs: each invocation it
    journals is at once followed by one call, of the method the state declares there; a method
    with parameters is called in a handler alone, with the payload of the event that is handled,
    bound as that handler declares. -/
theorem invoked_actions_run (ha : Accepted input c ir)
    (hn : ir.symbols.actions.length ≤ 65536) {m m' : ChartMachine c Ev Ctx qn}
    (h : Reachable c u m) {elapsed : Nat} {next : Option Nat}
    (hstep : step c u m elapsed = .ok (next, m')) :
    Performs c u (CallOf input c u (stepPops c m elapsed).head?) m m' :=
  step_performs ha.sound (h.valid ha.sound) (ha.allCallable hn (by simp))
    (ha.allCallable hn fun _ hev => hev) hstep

abbrev call : EventPayload := ⟨.tuple, [⟨"n", "u8"⟩]⟩

/-- A caller outside is heard and answered, and then let in. -/
def porter : StatechartInput where
  name := "Porter"
  body := {
    contextTy := some "PorterCtx", eventTy := some "PorterEvent", defaultChild := some "Outside"
    defaultCount := 1 }
  children := [
    .mk "Outside" { handlers := [
      ⟨.event "Call" (some call), "hear", 0⟩, ⟨.event "Call" (some call), "answer", 1⟩,
      ⟨.event "Knock" none, "wait", 2⟩, ⟨.event "Call" none, "Inside", 3⟩] } [],
    .mk "Inside" { entries := ["greet"] } []]

theorem porterIr_isOk : (buildIr porter >>= resolveTransitions).isOk = true := by decide +kernel

def porterIr : Ir := Except.get _ porterIr_isOk

theorem porter_isOk : (statechartImpl porter).isOk = true := by decide +kernel

def porterChart : Chart := Except.get _ porter_isOk

theorem porter_accepted : Accepted porter porterChart porterIr :=
  .of_resolved (Except.eq_ok_get _ porterIr_isOk) (Except.eq_ok_get _ porter_isOk)

/-- An event is its variant and the field it carries; the actions keep a list of their calls. -/
def porterCode : UserCode (Ident × Nat) (List (Ident × List Nat)) Nat where
  variant := Prod.fst
  tupleField := fun ev _ => ev.2
  structField := fun ev _ => ev.2
  duration := fun _ => 0
  method := fun name args calls => .done (calls ++ [(name, args)])

theorem porterStart_isOk : (step porterChart porterCode (.new [] :
    ChartMachine porterChart (Ident × Nat) (List (Ident × List Nat)) 4) 0).isOk = true := by
  decide +kernel

/-- The porter, started and about to be called. -/
def porterReady : ChartMachine porterChart (Ident × Nat) (List (Ident × List Nat)) 4 :=
  ((Except.get _ porterStart_isOk).2.send ("Call", 7)).2

theorem porterReady_reachable : Reachable porterChart porterCode porterReady :=
  .send ("Call", 7) (.step (.new []) (Except.eq_ok_get _ porterStart_isOk))

theorem porterReady_isOk : (step porterChart porterCode porterReady 0).isOk = true := by
  decide +kernel

def porterCalled : ChartMachine porterChart (Ident × Nat) (List (Ident × List Nat)) 4 :=
  (Except.get _ porterReady_isOk).2

example : porterCalled.ctx = [("hear", [7]), ("answer", [7]), ("greet", [])] := by decide +kernel

theorem invoked_actions_run_porter : Performs porterChart porterCode
    (CallOf porter porterChart porterCode (some ("Call", 7))) porterReady porterCalled := by
  have hpops : (stepPops porterChart porterReady 0).head? = some ("Call", 7) := by decide +kernel
  rw [← hpops]
  exact invoked_actions_run porter_accepted (by decide +kernel) porterReady_reachable
    (Except.eq_ok_get _ porterReady_isOk)

/-! ## One action too many -/

theorem internActionUnit_fresh {actions : List ActionIr} {i : Ident}
    (h : i ∉ actions.map (·.name)) :
    internActionUnit actions i = .ok (actions ++ [⟨i, [], []⟩], asU16 actions.length) := by
  have hnone : position (fun x => x.name == i) actions = none := by
    unfold position
    rw [List.findIdx?_eq_none_iff]
    intro x hx
    have hne : x.name ≠ i := fun he => h (List.mem_map.mpr ⟨x, hx, he⟩)
    simpa using hne
  unfold internActionUnit
  rw [hnone]

/-- New names get the next ids, in order. -/
theorem internActions_fresh : ∀ {is : List Ident} {syms : Symbols},
    (syms.actions.map (·.name) ++ is).Nodup →
    internActions syms is = .ok
      ({ syms with actions := syms.actions ++ is.map fun i => ⟨i, [], []⟩ },
        (List.range' syms.actions.length is.length).map asU16)
  | [], syms, _ => by simp [internActions]
  | i :: is, syms, h => by
      have hi : i ∉ syms.actions.map (·.name) := fun hmem =>
        (List.nodup_append.mp h).2.2 i hmem i List.mem_cons_self rfl
      unfold internActions
      rw [internActionUnit_fresh hi, Except.ok_bind_eq]
      simp only
      rw [internActions_fresh (by simpa using h), Except.ok_bind_eq]
      simp [List.range'_succ]

/-- `answer` comes first, then one action for each name, and `greet` comes last. -/
def crowd (names : List Ident) : StatechartInput where
  name := "Crowd"
  body := {
    contextTy := some "CrowdCtx", eventTy := some "CrowdEvent", defaultChild := some "Inside"
    defaultCount := 1
    handlers := [⟨.event "Call" (some ⟨.tuple, [⟨"n", "u8"⟩]⟩), "answer", 0⟩] }
  children := [.mk "Outside" { entries := names } [], .mk "Inside" { entries := ["greet"] } []]

abbrev answer : ActionIr := ⟨"answer", call.fields, [⟨"Call", .tuple⟩]⟩

/-- The chart lowered and resolved; `aids` are the ids of the names and `aid` is that of
    `greet`. -/
def crowdIr (names : List Ident) (aids : List Nat) (aid : Nat) : Ir where
  name := "Crowd"
  eventsOmitted := false
  terminateEvent := none
  states := [
    { id := 0, name := "__Root", parent := none, depth := 0, defaultChild := some 2
      defaultTargetIdent := some "Inside", children := [1, 2]
      handlers := [⟨.event 0 "Call" (some call), .action 0 "answer", 0⟩] },
    { id := 1, name := "Outside", parent := some 0, depth := 1, entries := aids },
    { id := 2, name := "Inside", parent := some 0, depth := 1, entries := [aid] }]
  symbols := {
    actions := (answer :: names.map fun i => ⟨i, [], []⟩) ++ [⟨"greet", [], []⟩]
    eventVariants := [⟨"Call", .tuple, some 1⟩] }

theorem crowd_builds {names : List Ident} (h : ("answer" :: names ++ ["greet"]).Nodup) :
    (buildIr (crowd names) >>= resolveTransitions) = .ok (crowdIr names
      ((List.range' 1 names.length).map asU16) (asU16 (names.length + 1))) := by
  have houtside := @internActions_fresh names
    { actions := [answer], eventVariants := [⟨"Call", .tuple, some 1⟩] }
    (List.Nodup.of_append_left h)
  have hinside := @internActionUnit_fresh (answer :: names.map fun i => ⟨i, [], []⟩) "greet"
    (fun hmem => (List.nodup_append.mp h).2.2 "greet" (by simpa [Function.comp_def] using hmem)
      "greet" (List.mem_singleton_self _) rfl)
  have hroot : lowerHandlers ["Crowd", "Outside", "Inside"] {} []
      [⟨.event "Call" (some call), "answer", 0⟩] = .ok
        ({ actions := [answer], eventVariants := [⟨"Call", .tuple, some 1⟩] }, [],
          [⟨.event 0 "Call" (some call), .action 0 "answer", 0⟩]) := rfl
  unfold buildIr
  rw [show collectStateNames (crowd names).root = ["Outside", "Inside"] from rfl]
  simp only [crowd, StatechartInput.root, lowerBody, lowerChildren, internActions,
    Except.ok_bind_eq]
  rw [hroot, Except.ok_bind_eq]
  simp only [houtside, List.singleton_append, Except.ok_bind_eq, lowerHandlers]
  rw [hinside, List.length_cons, List.length_map]
  rfl

/-- Sixteen letters, one for each bit. -/
def crowdName (i : Nat) : Ident :=
  String.ofList ((List.range 16).map fun j => if i.testBit j then 'x' else 'y')

def crowdNames : List Ident := (List.range 65535).map crowdName

theorem crowdName_inj {i j : Nat} (hi : i < 2 ^ 16) (hj : j < 2 ^ 16)
    (h : crowdName i = crowdName j) : i = j := by
  have hbits := List.map_inj_left.mp (String.ofList_injective h)
  apply Nat.eq_of_testBit_eq
  intro k
  by_cases hk : k < 16
  · have hc := hbits k (List.mem_range.mpr hk)
    cases hik : i.testBit k <;> cases hjk : j.testBit k <;> simp [hik, hjk] at hc <;> rfl
  · have hpow : 2 ^ 16 ≤ 2 ^ k := Nat.pow_le_pow_right (by decide) (by omega)
    rw [Nat.testBit_lt_two_pow (hi.trans_le hpow), Nat.testBit_lt_two_pow (hj.trans_le hpow)]

theorem nodup_crowdNames : ("answer" :: crowdNames ++ ["greet"]).Nodup := by
  have hlen : ∀ x ∈ crowdNames, x.length = 16 := by
    intro x hx
    obtain ⟨i, -, rfl⟩ := List.mem_map.mp hx
    simp [crowdName]
  have hnd : crowdNames.Nodup := by
    refine List.Nodup.map_on (fun i hi j hj h => ?_) List.nodup_range
    rw [List.mem_range] at hi hj
    exact crowdName_inj (by omega) (by omega) h
  rw [List.nodup_append, List.nodup_cons]
  refine ⟨⟨fun hmem => absurd (hlen _ hmem) (by decide), hnd⟩, by simp, ?_⟩
  intro x hx y hy
  rw [List.mem_singleton.mp hy]
  rintro rfl
  rcases List.mem_cons.mp hx with hx | hx
  · exact absurd hx (by decide)
  · exact absurd (hlen _ hx) (by decide)

/-- 65537 actions: `greet` has the id of `answer`. -/
abbrev fullIr : Ir := crowdIr crowdNames ((List.range' 1 65535).map asU16) 0

theorem fullIr_isOk : (generate fullIr).isOk = true := by decide +kernel

def crowdChart : Chart := Except.get _ fullIr_isOk

theorem crowd_accepted : Accepted (crowd crowdNames) crowdChart fullIr where
  resolved := by
    have hlen : crowdNames.length = 65535 := by simp [crowdNames]
    rw [crowd_builds nodup_crowdNames, hlen]
    rfl
  validated := by decide +kernel
  generated := Except.eq_ok_get _ fullIr_isOk

def crowdFresh : ChartMachine crowdChart Ident Nat 4 := .new 0

theorem crowdFresh_isOk : (step crowdChart countCode crowdFresh 0).isOk = true := by
  decide +kernel

def crowdInside : ChartMachine crowdChart Ident Nat 4 := (Except.get _ crowdFresh_isOk).2

theorem invoked_and_skipped : Accepted (crowd crowdNames) crowdChart fullIr ∧
    (∃ next, step crowdChart countCode crowdFresh 0 = .ok (next, crowdInside)) ∧
    .actionInvoked 2 0 .entry ∈ crowdInside.journal ∧ crowdInside.ctx = crowdFresh.ctx ∧
    ∀ event, ¬ Performs crowdChart countCode (CallOf (crowd crowdNames) crowdChart countCode event)
      crowdFresh crowdInside := by
  have hmem : .actionInvoked 2 0 .entry ∈ crowdInside.journal := by decide +kernel
  refine ⟨crowd_accepted, ⟨_, Except.eq_ok_get _ crowdFresh_isOk⟩, hmem, by decide +kernel, ?_⟩
  intro event h
  obtain ⟨w, hj, hw⟩ := h.invoked
  rw [hj] at hmem
  obtain ⟨name, args, hq⟩ := hw 2 0 .entry hmem
  -- the first action of the table has a parameter, so it is no entry action
  have hfirst : crowdChart.actionArms.lookup 0 = some answer := by decide +kernel
  cases hq with
  | plain _ ha hparams _ =>
      rw [hfirst] at ha
      cases ha
      cases hparams

end Hsmc
