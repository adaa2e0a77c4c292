import Hsmc.Link.Checks
import Hsmc.Safety.Order

/-
  Which timers are merged.

  `intern_duration` files a timer under its printed expression, white space removed, and its
  mode. Whatever white space the printer puts between the tokens, what is left is the spelling
  of the expression (`exprToString_of_prints`). So two timers of a chart have one id, and run on
  one duration, exactly when they are the same, as long as no two expressions of one mode differ
  in white space or in how their letters make tokens, and the timers fit the `u16`
  (`timers_merged_iff`).
-/

namespace Hsmc

/-! ## Spelling -/

/-- The letters of an expression. -/
def spelling (e : Expr) : List Char :=
  e.flatMap fun token => token.toList.filter fun ch => !isWhitespace ch

/-- The text shows the tokens in their order, with white space wherever the printer puts it. -/
inductive Prints : Expr → List Char → Prop where
  | nil {ws : List Char} : (∀ ch ∈ ws, isWhitespace ch = true) → Prints [] ws
  | cons {ws text : List Char} {token : String} {e : Expr} :
      (∀ ch ∈ ws, isWhitespace ch = true) → Prints e text →
      Prints (token :: e) (ws ++ token.toList ++ text)

theorem filter_white {ws : List Char} (h : ∀ ch ∈ ws, isWhitespace ch = true) :
    (ws.filter fun ch => !isWhitespace ch) = [] := by
  rw [List.filter_eq_nil_iff]
  intro ch hch
  simp [h ch hch]

theorem Prints.filter_eq {e : Expr} {text : List Char} (h : Prints e text) :
    (text.filter fun ch => !isWhitespace ch) = spelling e := by
  induction h with
  | nil hws => exact filter_white hws
  | cons hws _ ih =>
      rw [List.filter_append, List.filter_append, filter_white hws, ih]
      rfl

/-- White space in front belongs to the first token. -/
theorem Prints.blank {e : Expr} {text : List Char} {ch : Char} (h : Prints e text)
    (hch : isWhitespace ch = true) : Prints e (ch :: text) := by
  cases h with
  | nil hws => exact .nil (List.forall_mem_cons.mpr ⟨hch, hws⟩)
  | @cons ws text token e hws htext =>
      exact @Prints.cons (ch :: ws) text token e (List.forall_mem_cons.mpr ⟨hch, hws⟩) htext

theorem Prints.token {e : Expr} {text : List Char} (token : String) (h : Prints e text) :
    Prints (token :: e) (token.toList ++ text) :=
  @Prints.cons [] text token e (List.forall_mem_nil _) h

theorem prints_intercalate : ∀ e : Expr, Prints e (" ".intercalate e).toList
  | [] => .nil (List.forall_mem_nil _)
  | [token] => by
      have hnil : Prints [] [] := .nil (List.forall_mem_nil _)
      simpa using hnil.token token
  | token :: token' :: e => by
      have hrest := (prints_intercalate (token' :: e)).blank (show isWhitespace ' ' = true from rfl)
      simpa [String.toList_intercalate] using hrest.token token

/-- The key does not depend on where the printer puts white space. -/
theorem exprToString_of_prints {e : Expr} {text : List Char} (h : Prints e text) :
    exprToString e = String.ofList (text.filter fun ch => !isWhitespace ch) := by
  unfold exprToString
  rw [h.filter_eq, (prints_intercalate e).filter_eq]

theorem exprToString_eq_iff {e e' : Expr} :
    exprToString e = exprToString e' ↔ spelling e = spelling e' := by
  unfold exprToString
  rw [(prints_intercalate e).filter_eq, (prints_intercalate e').filter_eq]
  exact ⟨fun h => by simpa using congrArg String.toList h, fun h => by rw [h]⟩

example : exprToString ["a", "&&", "b"] = exprToString ["a", "&", "&", "b"] := by decide +kernel

/-! ## Ids -/

/-- A timer as written, and the id that `intern_duration` answers for it. -/
structure InternedTimer where
  expr : Expr
  repeats : Bool
  id : Nat
deriving DecidableEq, Repr

/-- What `intern_duration` answers for the timer of a use. -/
def Use.interned (syms : Symbols) : Use → Option InternedTimer
  | .handler ⟨.duration expr key repeats, _, _⟩ =>
      some ⟨expr, repeats, (internDuration syms.durationTriggers expr key repeats).2⟩
  | _ => none

/-- A use is applied, and its answer noted. -/
def noteTimer (names : List Ident) (acc : Symbols × List InternedTimer) (u : Use) :
    Except String (Symbols × List InternedTimer) := do
  let syms ← applyUse names acc.1 u
  .ok (syms, acc.2 ++ (u.interned acc.1).toList)

/-- The timers of a chart in the order in which they are interned. -/
def StatechartInput.internedTimers (input : StatechartInput) :
    Except String (List InternedTimer) := do
  let (_, timers) ← input.root.uses.foldlM (noteTimer input.stateNames) ({}, [])
  .ok timers

/-- The timer of a use, as written. -/
def Use.timer : Use → Option (Expr × Bool)
  | .action _ => none
  | .handler h => h.trigger.timer

/-- The key under which the parser files a timer. -/
def writtenKey (t : Expr × Bool) : String × Bool := (exprToString t.1, t.2)

/-- The keys are those of the timers as written. -/
def KeyedAsWritten (us : List Use) : Prop := ∀ u ∈ us, u.timerKey = u.timer.map writtenKey

section

variable {names : List Ident} {us : List Use} {syms : Symbols}

/-- Noting the answers changes nothing else. -/
theorem foldlM_noteTimer : ∀ (us : List Use) (acc : Symbols × List InternedTimer),
    Prod.fst <$> us.foldlM (noteTimer names) acc = us.foldlM (applyUse names) acc.1
  | [], _ => rfl
  | u :: us, acc => by
      rw [List.foldlM_cons, List.foldlM_cons]
      unfold noteTimer
      cases applyUse names acc.1 u with
      | error e => rfl
      | ok syms =>
          exact foldlM_noteTimer us (syms, acc.2 ++ (u.interned acc.1).toList)

theorem timersOf_written (hw : KeyedAsWritten us) :
    timersOf us = ((us.filterMap Use.timer).map writtenKey).eraseDups := by
  unfold timersOf
  rw [List.filterMap_congr hw, List.map_filterMap]

/-- The id a timer gets is told by its place among the timers up to it. -/
theorem interned_eq {done : List Use} {u : Use} {t : Expr × Bool} {k : String × Bool}
    (hok : syms.Ok) (hrows : timerRows syms.durationTriggers = keyed (timersOf done))
    (ht : u.timer = some t) (hk : u.timerKey = some k) :
    u.interned syms = some ⟨t.1, t.2, timerId (timersOf (done ++ [u])) k⟩ := by
  rcases u with i | ⟨⟨variant, payload⟩ | ⟨expr, key, repeats⟩, target, declIndex⟩
  · cases ht
  · cases ht
  · have hrow := timerRows_internDuration hrows hk expr
    obtain ⟨-, hok', hat⟩ := internDuration_answers hok expr key repeats
    cases ht
    cases hk
    unfold Use.interned
    simp only [Symbols.DurationAt.eq_timerId hok' hrow hat]

theorem interned_none {u : Use} (ht : u.timer = none) : u.interned syms = none := by
  rcases u with i | ⟨⟨variant, payload⟩ | ⟨expr, key, repeats⟩, target, declIndex⟩
  · rfl
  · rfl
  · cases ht

/-- The answers, told by the places of the keys. -/
def numbered (us : List Use) : List InternedTimer :=
  (us.filterMap Use.timer).map fun t => ⟨t.1, t.2, timerId (timersOf us) (writtenKey t)⟩

theorem numbered_concat {done : List Use} {u : Use} (hw : KeyedAsWritten (done ++ [u]))
    (hok : syms.Ok) (hrows : timerRows syms.durationTriggers = keyed (timersOf done)) :
    numbered (done ++ [u]) = numbered done ++ (u.interned syms).toList := by
  have hkeep : ∀ t ∈ done.filterMap Use.timer,
      timerId (timersOf (done ++ [u])) (writtenKey t) = timerId (timersOf done) (writtenKey t) := by
    intro t ht
    refine timerId_grows (timersOf_grows done [u]) ?_
    rw [timersOf_written fun x hx => hw x (List.mem_append_left _ hx)]
    exact key_mem writtenKey ht
  have hold : (done.filterMap Use.timer).map
      (fun t => InternedTimer.mk t.1 t.2 (timerId (timersOf (done ++ [u])) (writtenKey t))) =
      numbered done := List.map_congr_left fun t ht => by rw [hkeep t ht]
  have hu := hw u (by simp)
  unfold numbered at hold ⊢
  rw [List.filterMap_append, List.map_append, hold]
  congr 1
  cases ht : u.timer with
  | none => simp [ht, interned_none ht]
  | some t =>
      rw [ht] at hu
      simp [ht, interned_eq hok hrows ht hu]

/-- Every timer gets the id of its place. -/
theorem noteTimer_numbered (hw : KeyedAsWritten us) {timers : List InternedTimer}
    (h : us.foldlM (noteTimer names) ({}, []) = .ok (syms, timers)) : timers = numbered us := by
  have hrun := @Except.foldlM_run _ _ _ (noteTimer names)
    (fun done acc => KeyedAsWritten done → acc.1.Ok ∧
      timerRows acc.1.durationTriggers = keyed (timersOf done) ∧ acc.2 = numbered done)
    us ({}, []) (syms, timers) ?_ (fun _ => ⟨Symbols.ok_empty, rfl, rfl⟩) h
  · exact (hrun hw).2.2
  · rintro done u acc acc' hacc hu hdone
    obtain ⟨hok, hrows, hids⟩ := hacc fun x hx => hdone x (List.mem_append_left _ hx)
    obtain ⟨syms', hs, hu⟩ := Except.bind_eq_ok.mp hu
    cases hu
    refine ⟨(applyUse_grows hok hs).2, ?_, by rw [numbered_concat hdone hok hrows, hids]⟩
    rw [applyUse_addTimer hs]
    exact timerRows_addTimer hrows u

/-- A row holds the expression of a use with its key. -/
def RowsWritten (us : List Use) (durs : List DurationTrigger) : Prop :=
  ∀ d ∈ durs, ∃ u ∈ us, u.timer = some (d.expr, d.repeats) ∧
    ∃ key, u.timerKey = some (key, d.repeats) ∧ d.key = durationKey key d.repeats

theorem RowsWritten.addTimer {done : List Use} {durs : List DurationTrigger}
    (h : RowsWritten done durs) (u : Use) : RowsWritten (done ++ [u]) (u.addTimer durs) := by
  have hold : RowsWritten (done ++ [u]) durs := fun d hd => by
    obtain ⟨x, hx, hrow⟩ := h d hd
    exact ⟨x, List.mem_append_left _ hx, hrow⟩
  rcases u with i | ⟨⟨variant, payload⟩ | ⟨expr, key, repeats⟩, target, declIndex⟩
  · exact hold
  · exact hold
  · unfold Use.addTimer internDuration
    dsimp only
    split
    · exact hold
    · refine List.forall_mem_append.mpr ⟨hold, List.forall_mem_singleton.mpr ?_⟩
      exact ⟨_, List.mem_append_right _ List.mem_cons_self, rfl, key, rfl, rfl⟩

theorem uses_rows (h : us.foldlM (applyUse names) {} = .ok syms) :
    RowsWritten us syms.durationTriggers := by
  have hnil : RowsWritten [] ({} : Symbols).durationTriggers := List.forall_mem_nil _
  refine Except.foldlM_run (P := fun done syms => RowsWritten done syms.durationTriggers) ?_ hnil h
  intro done u syms syms' hr hu
  rw [applyUse_addTimer hu]
  exact hr.addTimer u

/-- Where the keys are numbered without loss, a timer's row is at its id. -/
theorem row_of_timer {durs : List DurationTrigger} {timers : List (String × Bool)}
    (hrows : timerRows durs = keyed timers) {k : String × Bool} (hk : k ∈ timers) :
    ∃ d, durs[timers.idxOf k]? = some d ∧ d.key = durationKey k.1 k.2 ∧ d.repeats = k.2 := by
  have hlt := List.idxOf_lt_length_of_mem hk
  have hget : (timerRows durs)[timers.idxOf k]? = (keyed timers)[timers.idxOf k]? := by rw [hrows]
  unfold timerRows keyed at hget
  rw [List.getElem?_map, List.getElem?_map, List.getElem?_eq_getElem hlt,
    List.getElem_idxOf hlt] at hget
  obtain ⟨d, hd, he⟩ := Option.map_eq_some_iff.mp hget
  exact ⟨d, hd, (Prod.mk.inj he).1, (Prod.mk.inj he).2⟩

end

/-! ## The text -/

/-- The timer of an `on(after ..)` or `on(every ..)`. -/
def Item.timer : Item → Option (Expr × Bool)
  | .on (.duration expr repeats) _ _ => some (expr, repeats)
  | _ => none

/-- The timers in the text of a chart. -/
def timersWritten (items : List Item) : List (Expr × Bool) :=
  (bodies items).flatMap fun its => its.filterMap Item.timer

theorem timer_on (t : TriggerItem) (first : Ident) (rest : List Ident) :
    (Item.on t first rest).timer = t.parsed.timer := by
  cases t <;> rfl

theorem Lists.timer_iff {its : List Item} {p : Placed} (h : Lists its p) (t : Expr × Bool) :
    (∃ x ∈ p.decl.body.handlers, x.trigger.timer = some t) ↔ t ∈ its.filterMap Item.timer := by
  rw [List.mem_filterMap]
  constructor
  · rintro ⟨x, hx, ht⟩
    obtain ⟨t', first, rest, hitem, heq⟩ := (h.trigger_iff _).mp ⟨x, hx, rfl⟩
    exact ⟨_, hitem, by rw [timer_on, heq, ht]⟩
  · rintro ⟨item, hitem, ht⟩
    cases item with
    | on t' first rest =>
        obtain ⟨x, hx, hxt⟩ := (h.trigger_iff _).mpr ⟨t', first, rest, hitem, rfl⟩
        exact ⟨x, hx, by rw [hxt, ← timer_on t' first rest, ht]⟩
    | _ => cases ht

section

variable {name : Ident} {items : List Item} {input : StatechartInput}

/-- The parser files every timer under its printed expression. -/
theorem parsed_keyed (h : parseStatechart name items = .ok input) :
    KeyedAsWritten input.root.uses := by
  rintro (i | ⟨trigger, target, declIndex⟩) hu
  · rfl
  · obtain ⟨p, hp, hx⟩ := mem_handler_uses.mp hu
    obtain ⟨its, -, hl⟩ := (parseStatechart_lists h).exists_of_mem_right hp
    obtain ⟨t, first, rest, -, rfl⟩ := (hl.trigger_iff trigger).mp ⟨_, hx, rfl⟩
    cases t <;> rfl

/-- The timers that are interned are those of the text. -/
theorem mem_timersWritten (h : parseStatechart name items = .ok input) (t : Expr × Bool) :
    t ∈ input.root.uses.filterMap Use.timer ↔ t ∈ timersWritten items := by
  have hlists := parseStatechart_lists h
  have huses : t ∈ input.root.uses.filterMap Use.timer ↔
      ∃ p ∈ input.layout, ∃ x ∈ p.decl.body.handlers, x.trigger.timer = some t := by
    rw [List.mem_filterMap]
    constructor
    · rintro ⟨i | x, hu, ht⟩
      · cases ht
      · obtain ⟨p, hp, hx⟩ := mem_handler_uses.mp hu
        exact ⟨p, hp, x, hx, ht⟩
    · rintro ⟨p, hp, x, hx, ht⟩
      exact ⟨.handler x, mem_handler_uses.mpr ⟨p, hp, hx⟩, ht⟩
  unfold timersWritten
  rw [huses, List.mem_flatMap]
  constructor
  · rintro ⟨p, hp, ht⟩
    obtain ⟨its, hits, hl⟩ := hlists.exists_of_mem_right hp
    exact ⟨its, hits, (hl.timer_iff t).mp ht⟩
  · rintro ⟨its, hits, ht⟩
    obtain ⟨p, hp, hl⟩ := hlists.exists_of_mem_left hits
    exact ⟨p, hp, (hl.timer_iff t).mpr ht⟩

end

/-! ## Merging -/

/-- No two timers of one mode differ and are spelled alike, and they fit the `u16`. -/
structure Apart (timers : List (Expr × Bool)) : Prop where
  spelled : ∀ t ∈ timers, ∀ t' ∈ timers, t.2 = t'.2 → spelling t.1 = spelling t'.1 → t.1 = t'.1
  few : timers.toFinset.card ≤ 65536

theorem apart_congr {l l' : List (Expr × Bool)} (h : ∀ t, t ∈ l ↔ t ∈ l') :
    Apart l ↔ Apart l' := by
  have hset : l.toFinset = l'.toFinset := by
    ext t
    rw [List.mem_toFinset, List.mem_toFinset, h t]
  constructor
  · rintro ⟨hspelled, hfew⟩
    exact ⟨fun t ht t' ht' => hspelled t ((h t).mpr ht) t' ((h t').mpr ht'), hset ▸ hfew⟩
  · rintro ⟨hspelled, hfew⟩
    exact ⟨fun t ht t' ht' => hspelled t ((h t).mp ht) t' ((h t').mp ht'), hset ▸ hfew⟩

theorem writtenKey_inj_iff {l : List (Expr × Bool)} :
    (∀ t ∈ l, ∀ t' ∈ l, writtenKey t = writtenKey t' → t = t') ↔
      ∀ t ∈ l, ∀ t' ∈ l, t.2 = t'.2 → spelling t.1 = spelling t'.1 → t.1 = t'.1 := by
  refine forall₂_congr fun t _ => forall₂_congr fun t' _ => ?_
  unfold writtenKey
  rw [Prod.mk.injEq, exprToString_eq_iff]
  exact ⟨fun h hmode hspell => congrArg Prod.fst (h ⟨hspell, hmode⟩),
    fun h hkey => Prod.ext (h hkey.2 hkey.1) hkey.2⟩

section

variable {us : List Use}

theorem numbered_keyIndex (hw : KeyedAsWritten us) : numbered us =
    (us.filterMap Use.timer).map fun t =>
      ⟨t.1, t.2, keyIndex writtenKey (us.filterMap Use.timer) 65536 t⟩ := by
  unfold numbered
  rw [timersOf_written hw]
  rfl

/-- The same timer gets the same id. -/
theorem numbered_id {x y : InternedTimer} (hx : x ∈ numbered us) (hy : y ∈ numbered us) :
    x.expr = y.expr ∧ x.repeats = y.repeats → x.id = y.id := by
  obtain ⟨t, -, rfl⟩ := List.mem_map.mp hx
  obtain ⟨t', -, rfl⟩ := List.mem_map.mp hy
  intro h
  rw [Prod.ext_iff.mpr h]

/-- Ids tell timers apart exactly when nothing is spelled alike and the timers fit. -/
theorem numbered_apart_iff (hw : KeyedAsWritten us) :
    (∀ x ∈ numbered us, ∀ y ∈ numbered us,
      x.id = y.id ↔ x.expr = y.expr ∧ x.repeats = y.repeats) ↔
      Apart (us.filterMap Use.timer) := by
  rw [numbered_keyIndex hw]
  simp only [List.forall_mem_map, ← Prod.ext_iff]
  rw [keyIndex_inj_iff writtenKey (by decide), writtenKey_inj_iff]
  exact ⟨fun ⟨hspelled, hfew⟩ => ⟨hspelled, hfew⟩, fun h => ⟨h.spelled, h.few⟩⟩

/-- Then the row at a timer's id is its own. -/
theorem Apart.row {durs : List DurationTrigger} (h : Apart (us.filterMap Use.timer))
    (hw : KeyedAsWritten us) (hrows : timerRows durs = keyed (timersOf us))
    (hwritten : RowsWritten us durs) {x : InternedTimer} (hx : x ∈ numbered us) :
    x.id < 65536 ∧ ∃ d, durs[x.id]? = some d ∧ d.expr = x.expr ∧ d.repeats = x.repeats := by
  obtain ⟨t, ht, rfl⟩ := List.mem_map.mp hx
  have hmem : writtenKey t ∈ timersOf us := by
    rw [timersOf_written hw]
    exact key_mem writtenKey ht
  have hlen : (timersOf us).length ≤ 65536 := by
    rw [timersOf_written hw]
    exact length_keys_le writtenKey h.few
  have hlt : (timersOf us).idxOf (writtenKey t) < 65536 :=
    (List.idxOf_lt_length_of_mem hmem).trans_le hlen
  have hid : timerId (timersOf us) (writtenKey t) = (timersOf us).idxOf (writtenKey t) :=
    asU16_of_lt hlt
  simp only [hid]
  obtain ⟨d, hd, hkey, hrep⟩ := row_of_timer hrows hmem
  refine ⟨hlt, d, hd, ?_, hrep⟩
  -- the use that the row was made for has the key, so it is spelled alike
  obtain ⟨u, hu, htimer, key, hukey, hdkey⟩ := hwritten d (List.mem_of_getElem? hd)
  have hwu := hw u hu
  rw [htimer, hukey, Option.map_some, Option.some.injEq] at hwu
  have hprinted : exprToString d.expr = exprToString t.1 :=
    calc exprToString d.expr = key := (congrArg Prod.fst hwu).symm
      _ = exprToString t.1 := (durationKey_inj (hdkey.symm.trans hkey)).1
  exact h.spelled _ (List.mem_filterMap.mpr ⟨u, hu, htimer⟩) t ht hrep
    (exprToString_eq_iff.mp hprinted)

end

theorem generate_exprArms {ir : Ir} {c : Chart} (h : generate ir = .ok c) :
    c.durationExprArms = indexArms (·.expr) ir.symbols.durationTriggers := by
  unfold generate at h
  obtain ⟨⟨pathData, pathRange⟩, -, h⟩ := Except.bind_eq_ok.mp h
  obtain ⟨⟨terminateData, terminateRange⟩, -, h⟩ := Except.bind_eq_ok.mp h
  obtain ⟨terminateRange', -, h⟩ := Except.bind_eq_ok.mp h
  obtain ⟨dispatch, -, h⟩ := Except.bind_eq_ok.mp h
  cases h
  rfl

section

variable {name : Ident} {items : List Item} {input : StatechartInput} {ir : Ir}

/-- A chart that is lowered has all its timers interned. -/
theorem internedTimers_eq (hp : parseStatechart name items = .ok input)
    (hb : buildIr input = .ok ir) : input.internedTimers = .ok (numbered input.root.uses) := by
  obtain ⟨syms, hs, -⟩ := buildIr_uses hb
  have hnoted := @foldlM_noteTimer input.stateNames input.root.uses ({}, [])
  rw [hs] at hnoted
  unfold StatechartInput.internedTimers
  cases hacc : input.root.uses.foldlM (noteTimer input.stateNames) ({}, []) with
  | error e =>
      rw [hacc] at hnoted
      cases hnoted
  | ok acc =>
      obtain ⟨syms', timers⟩ := acc
      rw [Except.ok_bind_eq, noteTimer_numbered (parsed_keyed hp) hacc]

/-- The id of the timer that a lowered handler hangs on. -/
def HandlerIr.timerId (h : HandlerIr) : Option Nat :=
  match h.trigger with
  | .duration id => some id
  | .event .. => none

theorem handlers_timerId {syms : Symbols} {timers : List (String × Bool)} (hok : syms.Ok)
    (hrows : timerRows syms.durationTriggers = keyed timers) {names : List Ident}
    {hs : List Handler} {hs' : List HandlerIr} (h : List.Forall₂ (LaidHandler names syms) hs hs') :
    hs'.filterMap HandlerIr.timerId =
      ((hs.map Use.handler).filterMap Use.timerKey).map (Hsmc.timerId timers) := by
  induction h with
  | nil => rfl
  | @cons x y hs hs' hxy _ ih =>
      obtain ⟨trigger, target, declIndex⟩ := x
      obtain ⟨trig, kind, declIndex'⟩ := y
      obtain ⟨variant, payload, id, rfl, rfl, -⟩ | ⟨expr, key, repeats, id, rfl, rfl, hat⟩ :=
        hxy.trigger.inv
      · exact ih
      · obtain rfl := Symbols.DurationAt.eq_timerId hok hrows hat
        exact congrArg (List.cons _) ih

/-- Only the handlers of a body name timers. -/
theorem body_timerKey (body : StateBody) : body.uses.filterMap Use.timerKey =
    (body.handlers.map Use.handler).filterMap Use.timerKey := by
  have hactions : ∀ is : List Ident, (is.map Use.action).filterMap Use.timerKey = [] := by
    intro is
    rw [List.filterMap_map]
    exact List.filterMap_eq_nil_iff.mpr fun _ _ => rfl
  unfold StateBody.uses
  rw [List.filterMap_append, List.filterMap_append, hactions, hactions, List.nil_append,
    List.nil_append]

theorem states_timerId {syms : Symbols} {timers : List (String × Bool)} (hok : syms.Ok)
    (hrows : timerRows syms.durationTriggers = keyed timers) {names : List Ident}
    {ps : List Placed} {states : List StateIr} (h : List.Forall₂ (LaidState names syms) ps states) :
    (states.flatMap fun s => s.handlers.filterMap HandlerIr.timerId) =
      ((ps.flatMap (·.decl.body.uses)).filterMap Use.timerKey).map (Hsmc.timerId timers) := by
  induction h with
  | nil => rfl
  | @cons p s ps states hps _ ih =>
      rw [List.flatMap_cons, List.flatMap_cons, List.filterMap_append, List.map_append, ih,
        handlers_timerId hok hrows hps.body.handlers, body_timerKey]

/-- The lowered handlers hang on the timers that were answered, one by one. -/
theorem lowered_timers (hp : parseStatechart name items = .ok input) (hb : buildIr input = .ok ir)
    (hlen : ir.states.length ≤ 65536) :
    (ir.states.flatMap fun s => s.handlers.filterMap HandlerIr.timerId) =
      (numbered input.root.uses).map (·.id) := by
  obtain ⟨-, hok, hlaid⟩ := buildIr_lays hb hlen
  rw [states_timerId hok (buildIr_timers hb) hlaid]
  unfold StatechartInput.layout
  rw [← uses_place, List.filterMap_congr (parsed_keyed hp), ← List.map_filterMap, List.map_map]
  unfold numbered
  rw [List.map_map]
  rfl

/-- In a chart that is lowered, two timers get one id exactly when they are the same, if and
    only if the timers are `Apart`; and in what is generated from it, every timer has its own
    expression and mode at its id, if and only if they are. -/
theorem timers_merged_iff (hp : parseStatechart name items = .ok input)
    (hb : buildIr input = .ok ir) : ∃ timers, input.internedTimers = .ok timers ∧
    ((∀ x ∈ timers, ∀ y ∈ timers, x.id = y.id ↔ x.expr = y.expr ∧ x.repeats = y.repeats) ↔
      Apart (timersWritten items)) ∧
    ∀ ir' c, resolveTransitions ir = .ok ir' → generate ir' = .ok c →
      ((∀ x ∈ timers, c.durationExprArms.lookup x.id = some x.expr ∧
        c.durationRepeatArms.lookup x.id = some x.repeats) ↔ Apart (timersWritten items)) := by
  have hw := parsed_keyed hp
  have htext := apart_congr (mem_timersWritten hp)
  have hids := (numbered_apart_iff hw).trans htext
  refine ⟨_, internedTimers_eq hp hb, hids, fun ir' c hr hg => ?_⟩
  have hsyms := (resolveTransitions_spec hr).1
  rw [generate_exprArms hg, (generate_spec hg).durationRepeatArms, hsyms]
  constructor
  · refine fun harms => hids.mp fun x hx y hy => ⟨fun hid => ?_, numbered_id hx hy⟩
    obtain ⟨hex, hrx⟩ := harms x hx
    obtain ⟨hey, hry⟩ := harms y hy
    rw [hid] at hex hrx
    exact ⟨Option.some.inj (hex.symm.trans hey), Option.some.inj (hrx.symm.trans hry)⟩
  · intro hapart x hx
    obtain ⟨syms, hs, hterm⟩ := buildIr_uses hb
    have hwritten : RowsWritten input.root.uses ir.symbols.durationTriggers := by
      rw [internTerminate_timers hterm]
      exact uses_rows hs
    obtain ⟨hlt, d, hd, hexpr, hrep⟩ := (htext.mpr hapart).row hw (buildIr_timers hb) hwritten hx
    rw [lookup_indexArms _ _ hlt, lookup_indexArms _ _ hlt, hd, ← hexpr, ← hrep]
    exact ⟨rfl, rfl⟩

end

/-- `Duration::from_secs(secs)` -/
def fromSecs (secs : String) : Expr := ["Duration", "::", "from_secs", "(", secs, ")"]

/-- Two modes of one duration, one of them twice. -/
def kettleItems : List Item := [
  .context "KettleCtx", .default "Cold",
  .state "Cold" [.on (.duration (fromSecs "5") false) "Hot" []],
  .state "Hot" [
    .on (.duration (fromSecs "5") true) "whistle" [],
    .on (.duration (fromSecs "5") false) "Cold" []]]

theorem kettle_parses : (parseStatechart "Kettle" kettleItems).isOk = true := by decide +kernel

def kettle : StatechartInput := Except.get _ kettle_parses

theorem kettle_builds : (buildIr kettle).isOk = true := by decide +kernel

theorem kettle_resolves : (resolveTransitions (Except.get _ kettle_builds)).isOk = true := by
  decide +kernel

theorem kettle_generates : (generate (Except.get _ kettle_resolves)).isOk = true := by
  decide +kernel

theorem timers_merged_iff_kettle : ∃ timers, kettle.internedTimers = .ok timers ∧
    ∀ x ∈ timers, (Except.get _ kettle_generates).durationExprArms.lookup x.id = some x.expr ∧
      (Except.get _ kettle_generates).durationRepeatArms.lookup x.id = some x.repeats := by
  have hp := Except.eq_ok_get _ kettle_parses
  obtain ⟨timers, ht, -, harms⟩ := timers_merged_iff hp (Except.eq_ok_get _ kettle_builds)
  refine ⟨timers, ht, (harms _ _ (Except.eq_ok_get _ kettle_resolves)
    (Except.eq_ok_get _ kettle_generates)).mpr ⟨?_, ?_⟩⟩
  · decide +kernel
  · decide +kernel

/-- The second timer of the oven runs on the expression of the first. -/
theorem merged_by_spelling : parseStatechart "Oven" ovenItems = .ok oven ∧
    statechartImpl oven = .ok ovenChart ∧
    oven.internedTimers = .ok [⟨["parse", "(", "\"1 s\"", ")"], false, 0⟩,
      ⟨["parse", "(", "\"1s\"", ")"], false, 0⟩] ∧
    ovenChart.durationExprArms.lookup 0 = some ["parse", "(", "\"1 s\"", ")"] := by
  refine ⟨Except.eq_ok_get _ oven_parses, Except.eq_ok_get _ oven_isOk, ?_, ?_⟩
  · decide +kernel
  · decide +kernel

end Hsmc
