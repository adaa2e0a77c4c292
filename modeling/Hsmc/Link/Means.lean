import Hsmc.Link.Clocks
import Hsmc.Link.Moves

/-
  The machine does what the chart means, piece by piece.

  `Means G act st m g`: the machine `m` and the configuration `g` agree in everything, read with
  the glossary `G`. The two stacks of ids are the active states and the states whose timers may
  be live; they differ only while a state is being entered or left. Each function of the
  generated code has one lemma, which says that it keeps machine and meaning together.
-/

/-- Only the items of the list matter to `takeWhile`. -/
theorem List.takeWhile_congr_mem {α : Type*} {p q : α → Bool} : ∀ {l : List α},
    (∀ a ∈ l, p a = q a) → l.takeWhile p = l.takeWhile q
  | [], _ => rfl
  | a :: l, h => by
      obtain ⟨ha, hl⟩ := List.forall_mem_cons.mp h
      rw [List.takeWhile_cons, List.takeWhile_cons, ha, List.takeWhile_congr_mem hl]

namespace Hsmc

open Machine

variable {Ev Ctx Val : Type} {qn : Nat} {input : StatechartInput} {c : Chart} {n : TraceNames}
  {u : UserCode Ev Ctx Val}

structure Means (G : Glossary input c n u) (act st : List Nat) (m : ChartMachine c Ev Ctx qn)
    (g : Config Ev Ctx qn) : Prop where
  ctx : g.ctx = m.ctx
  active : g.active = act.map G.decl
  queue : g.queue = m.queue
  clocks : Clocks G st m.timers g.left
  terminated : g.terminated = m.terminated
  overflow : g.overflow = m.overflow
  log : g.log = m.journal.map n.note

namespace Means

variable {G : Glossary input c n u} {act st : List Nat} {m m' : ChartMachine c Ev Ctx qn}
  {g g' : Config Ev Ctx qn}

theorem observe (h : Means G act st m g) {e : TraceEvent} {x : Note} (hx : n.note e = x) :
    Means G act st (m.observe e) (g.note x) :=
  { h with log := by rw [Config.note, h.log, journal_observe, List.map_append, ← hx]; rfl }

theorem observeAll (h : Means G act st m g) {es : List TraceEvent} {xs : List Note}
    (hx : es.map n.note = xs) : Means G act st (m.observeAll es) (g.noteAll xs) := by
  rw [observeAll_eq]
  exact { h with log := by rw [Config.noteAll, h.log, List.map_append, hx] }

theorem withCurrent (h : Means G act st m g) (s : Option Nat) :
    Means G act st { m with current := s } g :=
  ⟨h.ctx, h.active, h.queue, h.clocks, h.terminated, h.overflow, h.log⟩

theorem push (h : Means G act st m g) (s : Nat) :
    Means G (s :: act) st m { g with active := G.decl s :: g.active } :=
  { h with active := by rw [h.active, List.map_cons] }

theorem pop {s : Nat} (h : Means G (s :: act) st m g) :
    Means G act st m { g with active := g.active.tail } :=
  { h with active := by rw [h.active, List.map_cons, List.tail_cons] }

theorem withClocks (h : Means G act st m g) {st' : List Nat} {tt : TimerTable c.maxTimers}
    {left : Ident × Timer → Option Nat} (hc : Clocks G st' tt left) :
    Means G act st' { m with timers := tt } { g with left } :=
  ⟨h.ctx, h.active, h.queue, hc, h.terminated, h.overflow, h.log⟩

theorem halt (h : Means G [] [] m g) :
    Means G [] []
      { m with terminated := true, current := none, queue := (Bounded.empty : Bounded Ev qn) }
      { g with terminated := true, active := [], queue := (Bounded.empty : Bounded Ev qn) } :=
  ⟨h.ctx, rfl, rfl, h.clocks, rfl, h.overflow, h.log⟩

/-! ## Actions -/

theorem emit (h : Means G act st m g) (ht : m.terminated = false) (ev : Ev) :
    (Hsmc.emit c u ev m).1 = (g.emit input u ev).1 ∧
      Means G act st (Hsmc.emit c u ev m).2 (g.emit input u ev).2 := by
  have hname : n.note (.emitQueued (eventToId c u ev)) =
      .emitQueued (input.eventName (u.variant ev)) := by
    rw [← G.eventName]
    rfl
  have hname' : n.note (.emitFailed (eventToId c u ev)) =
      .emitFailed (input.eventName (u.variant ev)) := by
    rw [← G.eventName]
    rfl
  rcases emit_cases ev m with ⟨ho, queue, hpush⟩ | hno
  · have hg : g.emit input u ev = (.ok (), { g with queue }.note
        (.emitQueued (input.eventName (u.variant ev)))) := by
      unfold Config.emit
      simp only [h.overflow, h.queue, ho, hpush, Bool.false_eq_true, ↓reduceIte]
    have hq : Means G act st { m with queue } { g with queue } :=
      ⟨h.ctx, h.active, rfl, h.clocks, h.terminated, h.overflow, h.log⟩
    rw [emit_of_push ht ho hpush, hg]
    exact ⟨rfl, hq.observe hname⟩
  · have hnone : (if m.overflow = true then none else m.queue.push ev) = none := by
      rcases hno with ho | hpush
      · rw [if_pos ho]
      · rw [hpush, ite_self]
    have hg : g.emit input u ev = (.error .queueFull, { g with overflow := true }.note
        (.emitFailed (input.eventName (u.variant ev)))) := by
      unfold Config.emit
      simp only [h.overflow, h.queue, hnone]
    have hq : Means G act st { m with overflow := true } { g with overflow := true } :=
      ⟨h.ctx, h.active, h.queue, h.clocks, h.terminated, rfl, h.log⟩
    rw [emit_of_refused ht hno, hg]
    exact ⟨rfl, hq.observe hname'⟩

theorem runBody (b : Body Ev Ctx) : ∀ {m : ChartMachine c Ev Ctx qn} {g : Config Ev Ctx qn},
    Means G act st m g → m.terminated = false →
      Means G act st (Hsmc.runBody c u b m) (g.runBody input u b) := by
  induction b with
  | done ctx => exact fun h _ => { h with ctx := rfl }
  | emit ev next ih =>
      intro m g h ht
      obtain ⟨hr, hm⟩ := h.emit ht ev
      have hrun := ih (Hsmc.emit c u ev m).1 hm ((emit_quiet ev m).terminated.trans ht)
      unfold Hsmc.runBody Config.runBody
      rw [← hr]
      exact hrun

/-- An invocation and its call. -/
theorem call (h : Means G act st m g) (ht : m.terminated = false) {s aid : Nat}
    (hs : s < c.nStates) (kind : ActionKind) {event : Option Ev} {a : Ident} {args : List Val}
    (hname : n.actionName aid = a) (hrun : RunsAs c u aid event a args) :
    Means G act st (runAction c u aid event (m.observe (.actionInvoked s aid kind)))
      (g.call input u (G.decl s) kind a args) := by
  have hnote : n.note (.actionInvoked s aid kind) = .action (G.decl s).name a kind := by
    rw [← hname, ← G.stateName hs]
    rfl
  rw [hrun]
  unfold Config.call
  rw [h.ctx]
  exact runBody _ (h.observe hnote) ht

theorem runActions (kind : ActionKind) {s : Nat} (hs : s < c.nStates) {as : List Ident}
    {aids : List Nat} (hnames : List.Forall₂ (NamesAction c n u) as aids) :
    ∀ {m : ChartMachine c Ev Ctx qn} {g : Config Ev Ctx qn}, Means G act st m g →
      m.terminated = false → ∃ m', Hsmc.runActions c u s kind none aids m = (false, m') ∧
        m'.current = m.current ∧ m'.terminated = false ∧
        Means G act st m' (as.foldl (fun g a => g.call input u (G.decl s) kind a []) g) := by
  induction hnames with
  | nil => exact fun h ht => ⟨_, rfl, rfl, ht, h⟩
  | @cons a aid as aids hname _ ih =>
      intro m g h ht
      have hq := runAction_quiet (c := c) (u := u) aid none (m.observe (.actionInvoked s aid kind))
      have ht₁ := hq.terminated.trans ht
      obtain ⟨m', hm', hcur, ht', hmeans⟩ := ih (h.call ht hs kind hname.1 (hname.2 none)) ht₁
      refine ⟨m', ?_, hcur.trans hq.current, ht', hmeans⟩
      unfold Hsmc.runActions
      simp only [ht₁, Bool.false_eq_true, ↓reduceIte]
      exact hm'

/-! ## Entering and leaving one state -/

theorem arm (h : Means G act st m g) (hst : ∀ x ∈ st, x < c.nStates) {s : Nat} (hs : s ∈ st)
    {t : Timer} (ht : t ∈ (G.decl s).timers) (hroom : m.timers.Room s (G.tid t)) :
    Means G act st (startTimer c u s (G.tid t) m) (g.arm input u (G.decl s) t) := by
  have hn := (G.timer (hst _ hs) ht).2
  have hnote : n.note (.timerArmed s (G.tid t) (asU64 (durationFor c u (G.tid t)))) =
      .timerArmed (G.decl s).name (input.timerName t) (u.duration t.1) := by
    rw [hn.duration, ← G.stateName (hst _ hs), ← hn.name,
      show asU64 (u.duration t.1) = u.duration t.1 from Nat.mod_eq_of_lt hn.fits]
    rfl
  exact (h.withClocks (h.clocks.arm hst hs ht hroom)).observe hnote

/-- The timers of a state that is entered. -/
theorem arms {s : Nat} (hs : s < c.nStates) : ∀ {ts : List Timer} {m : ChartMachine c Ev Ctx qn}
    {g : Config Ev Ctx qn}, (∀ t ∈ ts, t ∈ (G.decl s).timers) →
    Means G act (G.sound.tree.up s) m g →
    Means G act (G.sound.tree.up s)
      ((ts.map G.tid).foldl (fun m tid => startTimer c u s tid m) m)
      (ts.foldl (fun g t => g.arm input u (G.decl s) t) g)
  | [], _, _, _, h => h
  | t :: ts, m, g, hts, h => by
      obtain ⟨ht, hrest⟩ := List.forall_mem_cons.mp hts
      have hown : G.tid t ∈ c.ownedTimers s := by
        rw [G.ownedTimers hs]
        exact List.mem_map_of_mem ht
      have hone := h.arm (fun x => G.sound.up_lt hs) (G.sound.tree.mem_up_self s) ht
        (h.clocks.room hs hown)
      have hall := arms hs hrest hone
      exact hall

theorem enter {s : Nat} (hs : s < c.nStates) (hup : s :: st = G.sound.tree.up s)
    (h : Means G st st m g) (ht : m.terminated = false) :
    Means G (s :: st) (s :: st) (enterStateNoDescent c u s m) (g.enter input u (G.decl s)) := by
  have hname := G.stateName hs
  have hbegan := h.observe (show n.note (.enterBegan s) = .entering (G.decl s).name by
    rw [← hname]; rfl)
  obtain ⟨m₂, hm₂, -, -, hactions⟩ := runActions .entry hs (G.entries hs) hbegan ht
  have hclocks := hactions.clocks.cons s
  rw [hup] at hclocks
  have harmed := arms hs (fun t ht => ht) (hactions.withClocks hclocks)
  rw [← G.ownedTimers hs] at harmed
  have hdurings : ((List.range (c.duringsCount s)).map (TraceEvent.duringStarted s)).map n.note =
      (G.decl s).body.durings.map fun x => .duringStarted (G.decl s).name x.fnName := by
    have := congrArg (List.map (Note.duringStarted (n.stateName s))) (G.durings hs)
    rw [List.map_map, List.map_map] at this
    rw [List.map_map, ← hname]
    exact this
  have hstarted := (harmed.withCurrent (some s)).observeAll hdurings
  have hentered := (hstarted.push s).observe (show n.note (.entered s) = .entered (G.decl s).name by
    rw [← hname]; rfl)
  rw [← hup] at hentered
  unfold enterStateNoDescent Config.enter
  simp only [hm₂, Bool.false_eq_true, ↓reduceIte]
  exact hentered

theorem leave {s : Nat} (hs : s < c.nStates) (hst : ∀ x ∈ st, x < c.nStates) (hnew : s ∉ st)
    (h : Means G (s :: st) (s :: st) m g) (ht : m.terminated = false) :
    Means G st st (exitState c u s m) (g.leave input u (G.decl s)) := by
  have hname := G.stateName hs
  have hbegan := h.observe (show n.note (.exitBegan s) = .exiting (G.decl s).name by
    rw [← hname]; rfl)
  have hdurings : ((List.range (c.duringsCount s)).map (TraceEvent.duringCancelled s)).map n.note =
      (G.decl s).body.durings.map fun x => .duringCancelled (G.decl s).name x.fnName := by
    have := congrArg (List.map (Note.duringCancelled (n.stateName s))) (G.durings hs)
    rw [List.map_map, List.map_map] at this
    rw [List.map_map, ← hname]
    exact this
  have htimers : ((c.ownedTimers s).map (TraceEvent.timerCancelled s)).map n.note =
      (G.decl s).timers.map fun t => .timerCancelled (G.decl s).name (input.timerName t) := by
    rw [G.ownedTimers hs, List.map_map, List.map_map]
    refine List.map_congr_left fun t ht => ?_
    rw [← hname, ← (G.timer hs ht).2.name]
    rfl
  have hstopped := (hbegan.observeAll hdurings).observeAll htimers
  have hdisarmed := hstopped.withClocks (hstopped.clocks.disarm hst hs hnew)
  have ht' : (cancelTimers c s (((m.observe (.exitBegan s)).observeAll
      ((List.range (c.duringsCount s)).map (.duringCancelled s))).observeAll
      ((c.ownedTimers s).map (.timerCancelled s)))).terminated = false := by
    simpa [cancelTimers_eq, observeAll_eq] using ht
  rw [← cancelTimers_eq] at hdisarmed
  obtain ⟨m₂, hm₂, -, -, hactions⟩ := runActions .exit hs (G.exits hs) hdisarmed ht'
  have hexited := hactions.pop.observe (show n.note (.exited s) = .exited (G.decl s).name by
    rw [← hname]; rfl)
  unfold exitState Config.leave
  simp only [hm₂, Bool.false_eq_true, ↓reduceIte]
  exact hexited

/-! ## Transitions -/

/-- Leaving the innermost states, one after the other. -/
theorem leaveAll : ∀ (l : List Nat) {m : ChartMachine c Ev Ctx qn} {g : Config Ev Ctx qn},
    (l ++ st).Nodup → (∀ x ∈ l ++ st, x < c.nStates) → Means G (l ++ st) (l ++ st) m g →
    m.terminated = false → Means G st st (l.foldl (fun m sid => exitState c u sid m) m)
      ((l.map G.decl).foldl (fun g d => g.leave input u d) g)
  | [], _, _, _, _, h, _ => h
  | s :: l, m, g, hnd, hlt, h, ht => by
      obtain ⟨hs, hlt⟩ := List.forall_mem_cons.mp hlt
      obtain ⟨hnew, hnd⟩ := List.nodup_cons.mp hnd
      exact leaveAll l hnd hlt (h.leave hs hlt hnew ht)
        ((exitState_spec (c := c) (u := u) s ht).terminated.trans ht)

/-- Entering states that lie on one walk, outermost first. -/
theorem enterAll {a : Nat} (ha : a < c.nStates) : ∀ (l : List Nat) {st : List Nat}
    {m : ChartMachine c Ev Ctx qn} {g : Config Ev Ctx qn},
    l.reverse ++ st <:+ G.sound.tree.up a → Means G st st m g → m.terminated = false →
    ∃ m', enterStates c u l m = (false, m') ∧ m'.current = l.getLast?.or m.current ∧
      m'.terminated = false ∧ Means G (l.reverse ++ st) (l.reverse ++ st) m'
        ((l.map G.decl).foldl (fun g d => g.enter input u d) g)
  | [], st, m, g, _, h, ht => ⟨m, rfl, rfl, ht, h⟩
  | s :: l, st, m, g, hsuf, h, ht => by
      rw [List.reverse_cons, List.append_assoc, List.singleton_append] at hsuf
      have hsuf' : s :: st <:+ G.sound.tree.up a := (List.suffix_append _ _).trans hsuf
      have hs : s < c.nStates := G.sound.up_lt ha (hsuf'.subset List.mem_cons_self)
      have hspec := enterStateNoDescent_spec (c := c) (u := u) s ht
      have ht₁ := hspec.terminated.trans ht
      obtain ⟨m', hm', hcur, ht', hmeans⟩ := enterAll ha l hsuf
        (h.enter hs (G.sound.tree.eq_up_of_suffix hsuf') ht) ht₁
      refine ⟨m', ?_, ?_, ht', ?_⟩
      · unfold enterStates
        simp only [ht₁, Bool.false_eq_true, ↓reduceIte]
        exact hm'
      · rw [hcur, hspec.current]
        cases l with
        | nil => rfl
        | cons y l =>
            obtain ⟨z, hz⟩ : ∃ z, (y :: l).getLast? = some z :=
              ⟨_, List.getLast?_eq_some_getLast (List.cons_ne_nil y l)⟩
            rw [List.getLast?_cons_cons, hz]
            rfl
      · rw [List.reverse_cons, List.append_assoc, List.singleton_append]
        exact hmeans

end Means

namespace Glossary

variable (G : Glossary input c n u) {src dst : Nat}

theorem mem_names {s a : Nat} (hs : s < c.nStates) (ha : a < c.nStates) :
    (G.decl s).name ∈ ((G.sound.tree.up a).map G.decl).map (·.name) ↔ s ∈ G.sound.tree.up a := by
  rw [List.map_map, List.mem_map]
  constructor
  · rintro ⟨x, hx, hname⟩
    rwa [← G.decl_inj (G.sound.up_lt ha hx) hs hname]
  · exact fun hmem => ⟨s, hmem, rfl⟩

theorem isSelf_iff (hs : src < c.nStates) (hd : dst < c.nStates) :
    Config.isSelf ((G.sound.tree.up src).map G.decl) ((G.sound.tree.up dst).map G.decl) = true ↔
      src = dst := by
  obtain ⟨l, hl⟩ := G.sound.tree.up_eq_cons src
  obtain ⟨l', hl'⟩ := G.sound.tree.up_eq_cons dst
  unfold Config.isSelf
  rw [hl, hl']
  simp only [List.map_cons, List.head?_cons, Option.map_some, beq_iff_eq, Option.some.injEq]
  exact ⟨G.decl_inj hs hd, fun h => by rw [h]⟩

theorem apart_eq (hs : src < c.nStates) (hd : dst < c.nStates) :
    Config.apart ((G.sound.tree.up src).map G.decl) ((G.sound.tree.up dst).map G.decl) =
      ((G.sound.tree.up src).takeWhile fun x => decide (x ∉ G.sound.tree.up dst)).map G.decl := by
  unfold Config.apart
  rw [List.takeWhile_map]
  refine congrArg (List.map G.decl) (List.takeWhile_congr_mem fun x hx => ?_)
  rw [Function.comp_apply, decide_eq_decide, G.mem_names (G.sound.up_lt hs hx) hd]

/-- The states a transition leaves are those that the meaning leaves. -/
theorem leaving_eq (hs : src < c.nStates) (hd : dst < c.nStates) :
    Config.leaving ((G.sound.tree.up src).map G.decl) ((G.sound.tree.up dst).map G.decl) =
      (G.sound.tree.exitPath src dst).map G.decl := by
  have hself := G.isSelf_iff hs hd
  unfold Config.leaving
  rw [G.sound.tree.exitPath_eq (G.sound.zero_mem hs) (G.sound.zero_mem hd)]
  by_cases he : src = dst
  · obtain ⟨l, hl⟩ := G.sound.tree.up_eq_cons src
    rw [if_pos (hself.mpr he), if_pos he, hl]
    rfl
  · rw [if_neg (fun h => he (hself.mp h)), if_neg he, G.apart_eq hs hd]

theorem entering_eq (hs : src < c.nStates) (hd : dst < c.nStates) :
    Config.entering ((G.sound.tree.up src).map G.decl) ((G.sound.tree.up dst).map G.decl) =
      (G.sound.tree.enterPath src dst).map G.decl := by
  have hself := G.isSelf_iff hs hd
  unfold Config.entering
  rw [G.sound.tree.enterPath_eq (G.sound.zero_mem hs) (G.sound.zero_mem hd)]
  by_cases he : src = dst
  · obtain ⟨l, hl⟩ := G.sound.tree.up_eq_cons dst
    rw [if_pos (hself.mpr he), if_pos he, hl]
    rfl
  · rw [if_neg (fun h => he (hself.mp h)), if_neg he, G.apart_eq hd hs, List.map_reverse]

end Glossary

end Hsmc
