import Hsmc.Link.Uses

/-
  Which charts can be lowered.

  Where the uses of a chart agree on what they name (`Agree`), the tables say what was used so
  far and no more (`Describes`). Then lowering fails in two cases alone: an action that was used
  before is bound to a payload without fields, or a transition hangs on a timer whose `u16` is
  that of an `every` timer (`lowers_iff`).
-/

namespace Hsmc

/-! ## What a use names -/

/-- The payload bound at a trigger. -/
def Trigger.payload : Trigger → Option EventPayload
  | .event _ payload => payload
  | .duration .. => none

/-- The parameters of an action that is called with the payload. -/
def boundFields : Option EventPayload → List PayloadField
  | none => []
  | some payload => payload.fields

/-- The action that is called, with the payload bound there. -/
def Use.calls (names : List Ident) : Use → Option (Ident × Option EventPayload)
  | .action i => some (i, none)
  | .handler h => if h.target ∈ names then none else some (h.target, h.trigger.payload)

/-- The payload that is bound, with its variant. -/
def Use.binds : Use → Option (Ident × EventPayload)
  | .action _ => none
  | .handler h => h.trigger.use

/-- The duration of a timer trigger, and whether it is an `every` timer. -/
def Trigger.timer : Trigger → Option (Expr × Bool)
  | .event .. => none
  | .duration expr _ repeats => some (expr, repeats)

/-- The key of a timer, and whether it repeats. -/
def Trigger.timerKey : Trigger → Option (String × Bool)
  | .event .. => none
  | .duration _ key repeats => some (key, repeats)

def Use.timerKey : Use → Option (String × Bool)
  | .action _ => none
  | .handler h => h.trigger.timerKey

/-- The timers in the order of their first uses. -/
def timersOf (us : List Use) : List (String × Bool) := (us.filterMap Use.timerKey).eraseDups

/-- The `u16` of a timer. -/
def timerId (timers : List (String × Bool)) (t : String × Bool) : Nat := asU16 (timers.idxOf t)

/-- At the `u16` of the trigger stands a timer that repeats. -/
def timerRepeats (timers : List (String × Bool)) (t : Trigger) : Bool :=
  t.timerKey.any fun t => timers[timerId timers t]?.any (·.2)

/-- The uses agree on what they name. -/
structure Agree (names : List Ident) (us : List Use) : Prop where
  /-- An action is used with one parameter list. -/
  calls : ∀ u ∈ us, ∀ u' ∈ us, ∀ c ∈ u.calls names, ∀ c' ∈ u'.calls names, c.1 = c'.1 →
    boundFields c.2 = boundFields c'.2
  /-- A variant is bound with one payload kind and field count. -/
  binds : ∀ u ∈ us, ∀ u' ∈ us, ∀ b ∈ u.binds, ∀ b' ∈ u'.binds, b.1 = b'.1 →
    b.2.kind = b'.2.kind ∧ b.2.fields.length = b'.2.fields.length
  /-- A transition binds nothing. -/
  unbound : ∀ h, Use.handler h ∈ us → h.target ∈ names → h.trigger.payload = none

/-- The second use does not bind the action of the first to a payload without fields. -/
def Use.Before (names : List Ident) (u u' : Use) : Prop :=
  ∀ c' ∈ u'.calls names, c'.2 ≠ none → boundFields c'.2 = [] → ∀ c ∈ u.calls names, c.1 ≠ c'.1

/-- A transition hangs on no timer that repeats. -/
def Use.Fires (names : List Ident) (timers : List (String × Bool)) : Use → Prop
  | .action _ => True
  | .handler h => h.target ∈ names → timerRepeats timers h.trigger = false

instance (names : List Ident) (u u' : Use) : Decidable (u.Before names u') :=
  inferInstanceAs (Decidable (∀ c' ∈ u'.calls names, _ → _ → ∀ c ∈ u.calls names, c.1 ≠ c'.1))

instance (names : List Ident) (timers : List (String × Bool)) : (u : Use) →
    Decidable (u.Fires names timers)
  | .action _ => inferInstanceAs (Decidable True)
  | .handler h => inferInstanceAs (Decidable (_ → timerRepeats timers h.trigger = false))

/-! ## Actions -/

/-- The rows of the actions, without the variants they are bound at. -/
def signatures (actions : List ActionIr) : List (Ident × List PayloadField) :=
  actions.map fun a => (a.name, a.params)

/-- The rows after a use of action `i` with parameters `params`. -/
def signed (rows : List (Ident × List PayloadField)) (i : Ident) (params : List PayloadField) :
    List (Ident × List PayloadField) :=
  if i ∈ rows.map (·.1) then rows else rows ++ [(i, params)]

theorem mem_names_iff {actions : List ActionIr} {i : Ident} :
    i ∈ (signatures actions).map (·.1) ↔ ∃ a ∈ actions, a.name = i := by
  simp [signatures]

theorem signed_of_position {actions : List ActionIr} {i : Ident} {p : Nat}
    (h : position (fun x => x.name == i) actions = some p) (params : List PayloadField) :
    signed (signatures actions) i params = signatures actions := by
  obtain ⟨a, ha, hname⟩ := position_eq_some h
  exact if_pos (mem_names_iff.mpr ⟨a, List.mem_of_getElem? ha, by simpa using hname⟩)

theorem signed_of_position_none {actions : List ActionIr} {i : Ident}
    (h : position (fun x => x.name == i) actions = none) (params : List PayloadField) :
    signed (signatures actions) i params = signatures actions ++ [(i, params)] := by
  refine if_neg fun hmem => ?_
  obtain ⟨a, ha, hname⟩ := mem_names_iff.mp hmem
  simpa [hname] using position_eq_none h a ha

theorem internActionUnit_ok {actions : List ActionIr} {i : Ident}
    (h : ∀ params, (i, params) ∈ signatures actions → params = []) :
    ∃ r, internActionUnit actions i = .ok r := by
  unfold internActionUnit
  split
  · rename_i p hp
    obtain ⟨a, ha, hname⟩ := position_eq_some hp
    have hname : a.name = i := by simpa using hname
    have hparams : a.params = [] := h _ (List.mem_map.mpr
      ⟨a, List.mem_of_getElem? ha, by rw [hname]⟩)
    simp [ha, hparams]
  · exact ⟨_, rfl⟩

theorem internActionUnit_signatures {actions actions' : List ActionIr} {i : Ident} {aid : Nat}
    (h : internActionUnit actions i = .ok (actions', aid)) :
    signatures actions' = signed (signatures actions) i [] := by
  unfold internActionUnit at h
  split at h
  · rename_i p hp
    rw [signed_of_position hp]
    split at h
    · split at h <;> cases h
      rfl
    · cases h
      rfl
  · rename_i hp
    cases h
    rw [signed_of_position_none hp]
    simp [signatures]

theorem internActionWithParams_ok_iff {actions : List ActionIr} {i variant : Ident}
    {params : List PayloadField} {kind : PayloadKind}
    (h : ∀ params', (i, params') ∈ signatures actions → params' = params) :
    (∃ r, internActionWithParams actions i params variant kind = .ok r) ↔
      (params = [] → i ∉ (signatures actions).map (·.1)) := by
  rw [mem_names_iff]
  unfold internActionWithParams
  split
  · rename_i p hp
    obtain ⟨a, ha, hname⟩ := position_eq_some hp
    have hname : a.name = i := by simpa using hname
    have hmem := List.mem_of_getElem? ha
    have hparams : a.params = params := h _ (List.mem_map.mpr ⟨a, hmem, by rw [hname]⟩)
    have hmatch : paramsMatch params params = true := paramsMatch_iff.mpr rfl
    have hused : ∃ a ∈ actions, a.name = i := ⟨a, hmem, hname⟩
    by_cases hnil : params = []
    · simp [ha, hparams, hnil, hused]
    · simp only [ha, hparams, hmatch, hnil, List.isEmpty_iff, Bool.not_true, Bool.false_eq_true,
        if_false, false_implies, iff_true]
      split <;> exact ⟨_, rfl⟩
  · rename_i hp
    refine iff_of_true ⟨_, rfl⟩ fun _ => ?_
    rintro ⟨a, ha, hname⟩
    simpa [hname] using position_eq_none hp a ha

theorem internActionWithParams_signatures {actions actions' : List ActionIr} {i variant : Ident}
    {params : List PayloadField} {kind : PayloadKind} {aid : Nat}
    (h : internActionWithParams actions i params variant kind = .ok (actions', aid)) :
    signatures actions' = signed (signatures actions) i params := by
  unfold internActionWithParams at h
  split at h
  · rename_i p hp
    rw [signed_of_position hp]
    split at h
    · rename_i a ha
      split at h
      · cases h
      · split at h
        · cases h
        · split at h
          · cases h
            rfl
          · cases h
            exact map_set_of_eq ha rfl
    · cases h
      rfl
  · rename_i hp
    cases h
    rw [signed_of_position_none hp]
    simp [signatures]

theorem internTarget_ok_iff {actions : List ActionIr} {h : Handler} {trig : TriggerIr}
    {syms : Symbols} (hat : syms.TriggerAt h.trigger trig)
    (hsame : ∀ params, (h.target, params) ∈ signatures actions →
      params = boundFields h.trigger.payload) :
    (∃ r, internTarget actions h.target trig = .ok r) ↔
      ∀ p, h.trigger.payload = some p → p.fields = [] →
        h.target ∉ (signatures actions).map (·.1) := by
  obtain ⟨variant, payload, id, ht, rfl, -⟩ | ⟨expr, key, repeats, id, ht, rfl, -⟩ := hat.inv
  · rw [ht] at hsame ⊢
    cases payload with
    | none => exact iff_of_true (internActionUnit_ok hsame) fun p hp => by cases hp
    | some p =>
        refine (internActionWithParams_ok_iff hsame).trans ⟨?_, fun hno => hno p rfl⟩
        intro hno q hq
        cases hq
        exact hno
  · rw [ht] at hsame ⊢
    exact iff_of_true (internActionUnit_ok hsame) fun p hp => by cases hp

theorem internTarget_signatures {actions actions' : List ActionIr} {h : Handler}
    {trig : TriggerIr} {syms : Symbols} (hat : syms.TriggerAt h.trigger trig) {aid : Nat}
    (hi : internTarget actions h.target trig = .ok (actions', aid)) :
    signatures actions' = signed (signatures actions) h.target (boundFields h.trigger.payload) := by
  obtain ⟨variant, payload, id, ht, rfl, -⟩ | ⟨expr, key, repeats, id, ht, rfl, -⟩ := hat.inv
  · rw [ht]
    cases payload with
    | none => exact internActionUnit_signatures hi
    | some p => exact internActionWithParams_signatures hi
  · rw [ht]
    exact internActionUnit_signatures hi

/-! ## Events -/

/-- The variant was bound with a payload of this shape. -/
def EventVariantIr.BoundAs (e : EventVariantIr) (p : EventPayload) : Prop :=
  e.kind = p.kind.variantKind ∧ e.fieldCount = some p.fields.length

/-- One more use of a variant goes well unless it was bound with another shape. -/
theorem mergeVariant_ok {i : Ident} {e : EventVariantIr} {payload : Option EventPayload}
    (h : e.kind ≠ .unit → ∀ p, payload = some p → e.BoundAs p) :
    ∃ e', mergeVariant i e (payloadVariantKind payload) (payload.map fun p => p.fields.length) =
      .ok e' ∧ (e' = e ∨ ∃ p, payload = some p ∧ e'.BoundAs p) := by
  unfold mergeVariant
  cases payload with
  | none =>
      refine ⟨e, ?_, .inl rfl⟩
      cases hk : e.kind <;> rfl
  | some p =>
      have hne := variantKind_ne_unit p.kind
      rw [payloadVariantKind_some]
      by_cases hk : e.kind = .unit
      · refine ⟨{ e with kind := p.kind.variantKind, fieldCount := some p.fields.length }, ?_,
          .inr ⟨p, rfl, rfl, rfl⟩⟩
        split
        · exact absurd ‹_› hne
        · rfl
        · exact absurd hk (by assumption)
      · obtain ⟨hkind, hcount⟩ := h hk p rfl
        refine ⟨e, ?_, .inl rfl⟩
        split
        · exact absurd ‹_› hne
        · exact absurd ‹_› hk
        · simp [hkind, hcount]

theorem internEvent_ok {events : List EventVariantIr} {i : Ident} {payload : Option EventPayload}
    (h : ∀ e ∈ events, e.name = i → e.kind ≠ .unit → ∀ p, payload = some p → e.BoundAs p) :
    ∃ events' id, internEvent events i payload = .ok (events', id) ∧
      ∀ e ∈ events', e.kind ≠ .unit →
        e ∈ events ∨ e.name = i ∧ ∃ p, payload = some p ∧ e.BoundAs p := by
  unfold internEvent
  simp only
  split
  · rename_i q hq
    obtain ⟨e, he, hname⟩ := position_eq_some hq
    have hname : e.name = i := by simpa using hname
    obtain ⟨e', hmerge, hor⟩ := mergeVariant_ok (i := i) (h e (List.mem_of_getElem? he) hname)
    have href := (mergeVariant_refines hmerge).1
    simp only [he, hmerge, Except.ok_bind_eq]
    refine ⟨_, _, rfl, fun x hx _ => ?_⟩
    rcases List.mem_or_eq_of_mem_set hx with hx | rfl
    · exact .inl hx
    · rcases hor with rfl | hp
      · exact .inl (List.mem_of_getElem? he)
      · exact .inr ⟨href.1.trans hname, hp⟩
  · refine ⟨_, _, rfl, fun x hx hk => ?_⟩
    rcases List.mem_append.mp hx with hx | hx
    · exact .inl hx
    · rw [List.mem_singleton.mp hx] at hk ⊢
      cases payload with
      | none => exact absurd rfl hk
      | some p => exact .inr ⟨rfl, p, rfl, payloadVariantKind_some p, rfl⟩

/-! ## Timers -/

theorem timersOf_concat_none {u : Use} (us : List Use) (h : u.timerKey = none) :
    timersOf (us ++ [u]) = timersOf us := by
  unfold timersOf
  rw [List.filterMap_append, List.filterMap_cons_none h, List.filterMap_nil, List.append_nil]

theorem timersOf_concat_some {u : Use} {t : String × Bool} (us : List Use)
    (h : u.timerKey = some t) :
    timersOf (us ++ [u]) = if t ∈ timersOf us then timersOf us else timersOf us ++ [t] := by
  unfold timersOf
  rw [List.filterMap_append, List.eraseDups_append, List.filterMap_cons_some h, List.filterMap_nil]
  by_cases ht : t ∈ us.filterMap Use.timerKey
  · have hnone : [t].removeAll (us.filterMap Use.timerKey) = [] := by
      unfold List.removeAll
      rw [List.filter_eq_nil_iff]
      simpa using ht
    rw [hnone, if_pos (List.mem_eraseDups.mpr ht), List.eraseDups_nil, List.append_nil]
  · have hself : [t].removeAll (us.filterMap Use.timerKey) = [t] := by
      unfold List.removeAll
      rw [List.filter_eq_self]
      simpa using ht
    rw [hself, if_neg (fun hmem => ht (List.mem_eraseDups.mp hmem))]
    rfl

theorem timersOf_grows (us us' : List Use) : timersOf us <+: timersOf (us ++ us') := by
  unfold timersOf
  rw [List.filterMap_append, List.eraseDups_append]
  exact List.prefix_append _ _

/-- The table of timers, without their ids and expressions. -/
def timerRows (durs : List DurationTrigger) : List (String × Bool) :=
  durs.map fun d => (d.key, d.repeats)

def keyed (timers : List (String × Bool)) : List (String × Bool) :=
  timers.map fun t => (durationKey t.1 t.2, t.2)

theorem idxOf_keyed (timers : List (String × Bool)) (key : String) (repeats : Bool) :
    (keyed timers).idxOf (durationKey key repeats, repeats) = timers.idxOf (key, repeats) := by
  induction timers with
  | nil => rfl
  | cons t timers ih =>
      unfold keyed at ih ⊢
      have hiff : (durationKey t.1 t.2, t.2) = (durationKey key repeats, repeats) ↔
          t = (key, repeats) := by
        refine ⟨fun h => ?_, fun h => by rw [h]⟩
        obtain ⟨hkey, hrep⟩ := durationKey_inj (Prod.mk.inj h).1
        exact Prod.ext hkey hrep
      rw [List.map_cons]
      by_cases h : t = (key, repeats)
      · rw [h, List.idxOf_cons_self, List.idxOf_cons_self]
      · rw [List.idxOf_cons_ne _ h, List.idxOf_cons_ne _ (mt hiff.mp h), ih]

theorem timerRows_internDuration {durs : List DurationTrigger} {us : List Use} {u : Use}
    {key : String} {repeats : Bool} (hrows : timerRows durs = keyed (timersOf us))
    (hu : u.timerKey = some (key, repeats)) (expr : Expr) :
    timerRows (internDuration durs expr key repeats).1 = keyed (timersOf (us ++ [u])) := by
  rw [timersOf_concat_some us hu]
  have hmem : (key, repeats) ∈ timersOf us ↔ ∃ d ∈ durs, d.key = durationKey key repeats := by
    constructor
    · intro ht
      have hrow : (durationKey key repeats, repeats) ∈ timerRows durs := by
        rw [hrows]
        exact List.mem_map.mpr ⟨_, ht, rfl⟩
      obtain ⟨d, hd, he⟩ := List.mem_map.mp hrow
      exact ⟨d, hd, (Prod.mk.inj he).1⟩
    · rintro ⟨d, hd, hkey⟩
      have hrow : (d.key, d.repeats) ∈ keyed (timersOf us) := by
        rw [← hrows]
        exact List.mem_map.mpr ⟨d, hd, rfl⟩
      obtain ⟨t, ht, he⟩ := List.mem_map.mp hrow
      obtain ⟨h₁, h₂⟩ := durationKey_inj ((Prod.mk.inj he).1.trans hkey)
      rwa [show (key, repeats) = t from (Prod.ext h₁ h₂).symm]
  unfold internDuration
  simp only
  split
  · rename_i d hd
    rw [if_pos (hmem.mpr ⟨d, List.mem_of_find?_eq_some hd, by simpa using List.find?_some hd⟩)]
    exact hrows
  · rename_i hnone
    rw [if_neg fun ht => ?_]
    · unfold timerRows keyed at hrows ⊢
      rw [List.map_append, hrows, List.map_append]
      rfl
    · obtain ⟨d, hd, hkey⟩ := hmem.mp ht
      simpa [hkey] using List.find?_eq_none.mp hnone d hd

section

variable {syms : Symbols} {timers timers' : List (String × Bool)}

/-- The id of a timer is told by its place among the timers. -/
theorem Symbols.DurationAt.eq_timerId (hok : syms.Ok)
    (hrows : timerRows syms.durationTriggers = keyed timers) {key : String} {repeats : Bool}
    {id : Nat} (h : syms.DurationAt key repeats id) : id = timerId timers (key, repeats) := by
  obtain ⟨p, d, hd, hkey, hrep, rfl⟩ := h
  have hnd : (timerRows syms.durationTriggers).Nodup := by
    have hkeys := hok.durations_nodup
    refine List.Nodup.of_map Prod.fst ?_
    unfold timerRows
    rwa [List.map_map]
  obtain ⟨hp, rfl⟩ := List.getElem?_eq_some_iff.mp hd
  have hidx := hnd.idxOf_getElem p (by simpa [timerRows] using hp)
  unfold timerRows at hidx
  rw [List.getElem_map, hkey, hrep] at hidx
  unfold timerId
  rw [← idxOf_keyed, ← hrows]
  exact congrArg asU16 hidx.symm

theorem repeats_getElem? {durs : List DurationTrigger} (hrows : timerRows durs = keyed timers)
    (i : Nat) : (durs[i]?).map (·.repeats) = (timers[i]?).map (·.2) := by
  have hget := congrArg (fun l => (l[i]?).map Prod.snd) hrows
  simpa [timerRows, keyed, Function.comp_def] using hget

theorem triggerRepeats_eq (hok : syms.Ok) (hrows : timerRows syms.durationTriggers = keyed timers)
    {t : Trigger} {trig : TriggerIr} (hat : syms.TriggerAt t trig) :
    triggerRepeats syms.durationTriggers trig = timerRepeats timers t := by
  obtain ⟨variant, payload, id, rfl, rfl, -⟩ | ⟨expr, key, repeats, id, rfl, rfl, hat⟩ := hat.inv
  · rfl
  · have hid := Symbols.DurationAt.eq_timerId hok hrows hat
    unfold triggerRepeats timerRepeats Trigger.timerKey
    simp only [repeats_getElem? hrows, Option.any_some, ← hid]
    cases timers[id]? <;> rfl

/-- Later timers change nothing for a timer that has its place. -/
theorem timerId_grows (h : timers <+: timers') {x : String × Bool} (hx : x ∈ timers) :
    timerId timers' x = timerId timers x := by
  obtain ⟨l, rfl⟩ := h
  unfold timerId
  rw [List.idxOf_append_of_mem hx]

theorem timerRepeats_grows (h : timers <+: timers') {t : Trigger}
    (ht : ∀ x, t.timerKey = some x → x ∈ timers) :
    timerRepeats timers' t = timerRepeats timers t := by
  unfold timerRepeats
  cases hx : t.timerKey with
  | none => rfl
  | some x =>
      have hmem := ht x hx
      have hlt : timerId timers x < timers.length :=
        (asU16_le _).trans_lt (List.idxOf_lt_length_of_mem hmem)
      rw [Option.any_some, Option.any_some, timerId_grows h hmem]
      obtain ⟨l, rfl⟩ := h
      rw [List.getElem?_append_left hlt]

end

section

variable {names : List Ident} {done us : List Use} {syms syms' : Symbols}

/-- The table of timers after a use. -/
def Use.addTimer (durs : List DurationTrigger) : Use → List DurationTrigger
  | .handler ⟨.duration expr key repeats, _, _⟩ => (internDuration durs expr key repeats).1
  | _ => durs

theorem timerRows_addTimer {durs : List DurationTrigger}
    (hrows : timerRows durs = keyed (timersOf done)) (u : Use) :
    timerRows (u.addTimer durs) = keyed (timersOf (done ++ [u])) := by
  rcases u with i | ⟨⟨variant, payload⟩ | ⟨expr, key, repeats⟩, target, declIndex⟩
  · rw [timersOf_concat_none done rfl]
    exact hrows
  · rw [timersOf_concat_none done rfl]
    exact hrows
  · exact timerRows_internDuration hrows rfl expr

theorem lowerTrigger_addTimer {h : Handler} {owned owned' : List Nat} {trig : TriggerIr}
    (ht : lowerTrigger syms owned h.trigger = .ok (syms', owned', trig)) :
    syms'.durationTriggers = (Use.handler h).addTimer syms.durationTriggers := by
  obtain ⟨⟨variant, payload⟩ | ⟨expr, key, repeats⟩, target, declIndex⟩ := h
  · obtain ⟨⟨events, id⟩, -, ht⟩ := Except.bind_eq_ok.mp ht
    cases ht
    rfl
  · cases ht
    rfl

/-- Calling an action or going to a state names no timer. -/
theorem classifyTarget_timers {target : Ident} {trig : TriggerIr} {kind : HandlerKindIr}
    (h : classifyTarget syms target trig names = .ok (syms', kind)) :
    syms'.durationTriggers = syms.durationTriggers := by
  unfold classifyTarget at h
  split at h
  · split at h
    · cases h
    · split at h <;> cases h
      rfl
  · obtain ⟨⟨actions, aid⟩, -, h⟩ := Except.bind_eq_ok.mp h
    cases h
    rfl

theorem applyUse_addTimer {u : Use} (h : applyUse names syms u = .ok syms') :
    syms'.durationTriggers = u.addTimer syms.durationTriggers := by
  cases u with
  | action i =>
      obtain ⟨⟨actions, aid⟩, -, h⟩ := Except.bind_eq_ok.mp h
      cases h
      rfl
  | handler x =>
      obtain ⟨⟨syms₁, owned, trig⟩, h₁, h⟩ := Except.bind_eq_ok.mp h
      obtain ⟨⟨syms₂, kind⟩, h₂, h⟩ := Except.bind_eq_ok.mp h
      cases h
      rw [classifyTarget_timers h₂, lowerTrigger_addTimer h₁]

/-- The table of timers is that of the uses so far. -/
theorem uses_timers (h : us.foldlM (applyUse names) {} = .ok syms) :
    timerRows syms.durationTriggers = keyed (timersOf us) := by
  refine Except.foldlM_run (P := fun done syms =>
    timerRows syms.durationTriggers = keyed (timersOf done)) ?_ rfl h
  intro done u syms syms' hrows hu
  rw [applyUse_addTimer hu]
  exact timerRows_addTimer hrows u

end

/-! ## The loop over the uses -/

/-- The rows are those of the actions called so far. -/
def CalledIn (names : List Ident) (done : List Use) (rows : List (Ident × List PayloadField)) :
    Prop :=
  ∀ i params, (i, params) ∈ rows ↔
    ∃ u ∈ done, ∃ b, u.calls names = some (i, b) ∧ params = boundFields b

/-- The variants with a payload are bound so by a use. -/
def BoundIn (done : List Use) (events : List EventVariantIr) : Prop :=
  ∀ e ∈ events, e.kind ≠ .unit → ∃ u ∈ done, ∃ p, u.binds = some (e.name, p) ∧ e.BoundAs p

/-- The tables say what was used so far. -/
structure Describes (names : List Ident) (done : List Use) (syms : Symbols) : Prop where
  ok : syms.Ok
  calls : CalledIn names done (signatures syms.actions)
  binds : BoundIn done syms.eventVariants
  timers : timerRows syms.durationTriggers = keyed (timersOf done)

section

variable {names : List Ident} {done rest us : List Use} {u : Use}

theorem CalledIn.other {rows : List (Ident × List PayloadField)} (h : CalledIn names done rows)
    (hu : u.calls names = none) : CalledIn names (done ++ [u]) rows := by
  intro i params
  rw [h i params]
  simp [hu, or_and_right, exists_or]

theorem CalledIn.signed {rows : List (Ident × List PayloadField)} (h : CalledIn names done rows)
    {i : Ident} {b : Option EventPayload} (hu : u.calls names = some (i, b))
    (hsame : ∀ x ∈ done, ∀ b', x.calls names = some (i, b') → boundFields b' = boundFields b) :
    CalledIn names (done ++ [u]) (signed rows i (boundFields b)) := by
  have hrow : ∀ j params, (j, params) ∈ Hsmc.signed rows i (boundFields b) ↔
      (j, params) ∈ rows ∨ j = i ∧ params = boundFields b := by
    intro j params
    unfold Hsmc.signed
    split
    · rename_i hmem
      refine ⟨.inl, fun hor => hor.elim id ?_⟩
      rintro ⟨rfl, rfl⟩
      obtain ⟨⟨j, params'⟩, hr, rfl⟩ := List.mem_map.mp hmem
      obtain ⟨x, hx, b', hcall, rfl⟩ := (h _ _).mp hr
      rwa [← hsame x hx b' hcall]
    · simp
  intro j params
  rw [hrow, h j params]
  constructor
  · rintro (⟨x, hx, hcall⟩ | ⟨rfl, rfl⟩)
    · exact ⟨x, List.mem_append_left _ hx, hcall⟩
    · exact ⟨u, by simp, b, hu, rfl⟩
  · rintro ⟨x, hx, b', hcall, rfl⟩
    rcases List.mem_append.mp hx with hx | hx
    · exact .inl ⟨x, hx, b', hcall, rfl⟩
    · rw [List.mem_singleton.mp hx, hu] at hcall
      cases hcall
      exact .inr ⟨rfl, rfl⟩

theorem CalledIn.mem_names {rows : List (Ident × List PayloadField)}
    (h : CalledIn names done rows) {i : Ident} :
    i ∈ rows.map (·.1) ↔ ∃ x ∈ done, ∃ b, x.calls names = some (i, b) := by
  constructor
  · intro hmem
    obtain ⟨⟨i, params⟩, hr, rfl⟩ := List.mem_map.mp hmem
    obtain ⟨x, hx, b, hcall, -⟩ := (h _ _).mp hr
    exact ⟨x, hx, b, hcall⟩
  · rintro ⟨x, hx, b, hcall⟩
    exact List.mem_map.mpr ⟨(i, boundFields b), (h _ _).mpr ⟨x, hx, b, hcall, rfl⟩, rfl⟩

/-- A row of an action that is called once more has the parameters of that call. -/
theorem CalledIn.params_eq {rows : List (Ident × List PayloadField)}
    (h : CalledIn names done rows) (hagree : Agree names (done ++ u :: rest)) {i : Ident}
    {b : Option EventPayload} (hu : u.calls names = some (i, b)) {params : List PayloadField}
    (hmem : (i, params) ∈ rows) : params = boundFields b := by
  obtain ⟨x, hx, b', hcall, rfl⟩ := (h _ _).mp hmem
  exact hagree.calls x (by simp [hx]) u (by simp) _ hcall _ hu rfl

theorem BoundIn.concat {events : List EventVariantIr} (h : BoundIn done events) (u : Use) :
    BoundIn (done ++ [u]) events := by
  intro e he hk
  obtain ⟨x, hx, hp⟩ := h e he hk
  exact ⟨x, List.mem_append_left _ hx, hp⟩

/-- A trigger can always be lowered. -/
theorem lowerTrigger_describes {syms : Symbols} (hd : Describes names done syms) {h : Handler}
    (hagree : Agree names (done ++ .handler h :: rest)) : ∃ syms₁ owned trig,
      lowerTrigger syms [] h.trigger = .ok (syms₁, owned, trig) ∧
      syms₁.actions = syms.actions ∧ BoundIn (done ++ [.handler h]) syms₁.eventVariants := by
  cases ht : h.trigger with
  | event variant payload =>
      have hshape : ∀ e ∈ syms.eventVariants, e.name = variant → e.kind ≠ .unit →
          ∀ p, payload = some p → e.BoundAs p := by
        rintro e he rfl hk p rfl
        obtain ⟨x, hx, p', hbind, hkind, hcount⟩ := hd.binds e he hk
        have huse : (Use.handler h).binds = some (e.name, p) := by
          unfold Use.binds
          simp only [ht]
          rfl
        obtain ⟨hk', hc'⟩ := hagree.binds x (by simp [hx]) (.handler h) (by simp) _ hbind _ huse rfl
        simp only at hk' hc'
        exact ⟨by rw [hkind, hk'], by rw [hcount, hc']⟩
      obtain ⟨events, id, hi, hnew⟩ := internEvent_ok hshape
      refine ⟨{ syms with eventVariants := events }, [], .event id variant payload, ?_, rfl, ?_⟩
      · unfold lowerTrigger
        simp only [hi, Except.ok_bind_eq]
      · intro e he hk
        rcases hnew e he hk with hold | ⟨hname, p, rfl, hbound⟩
        · exact (hd.binds.concat _) e hold hk
        · refine ⟨.handler h, by simp, p, ?_, hbound⟩
          unfold Use.binds
          simp only [ht, hname]
          rfl
  | duration expr key repeats => exact ⟨_, _, _, rfl, rfl, hd.binds.concat _⟩

/-- A transition is refused when its timer repeats. -/
theorem classifyTarget_transition {syms : Symbols} {h : Handler} {trig : TriggerIr}
    (hmem : h.target ∈ names) (hat : syms.TriggerAt h.trigger trig)
    (hp : h.trigger.payload = none) :
    classifyTarget syms h.target trig names =
      if triggerRepeats syms.durationTriggers trig then
        .error ("`every` timers are only valid on action handlers; transitioning to a state " ++
          "cancels the timer on first fire")
      else .ok (syms, .transition h.target none) := by
  unfold classifyTarget
  rw [if_pos (by simpa using hmem)]
  obtain ⟨variant, payload, id, ht, rfl, -⟩ | ⟨expr, key, repeats, id, -, rfl, -⟩ := hat.inv
  · rw [ht] at hp
    cases hp
    rfl
  · rfl

/-- What a use is answered with: it fits those before it, and then the tables describe it too. -/
def UseOk (names : List Ident) (us done : List Use) (syms : Symbols) (u : Use) : Prop :=
  ((∃ syms', applyUse names syms u = .ok syms') ↔
      (∀ x ∈ done, x.Before names u) ∧ u.Fires names (timersOf us)) ∧
    ∀ syms', applyUse names syms u = .ok syms' → Describes names (done ++ [u]) syms'

theorem useOk_action {i : Ident} (hagree : Agree names (done ++ .action i :: rest))
    {syms : Symbols} (hd : Describes names done syms) :
    UseOk names (done ++ .action i :: rest) done syms (.action i) := by
  have hcall : (Use.action i).calls names = some (i, none) := rfl
  obtain ⟨⟨actions, aid⟩, hi⟩ := internActionUnit_ok
    (fun params hmem => hd.calls.params_eq hagree hcall hmem)
  have happly : applyUse names syms (.action i) = .ok { syms with actions } := by
    unfold applyUse
    simp only [hi, Except.ok_bind_eq]
  have hbefore : ∀ x ∈ done, x.Before names (.action i) := by
    rintro x - c' hc' hbound
    cases hc'
    exact absurd rfl hbound
  refine ⟨iff_of_true ⟨_, happly⟩ ⟨hbefore, trivial⟩, ?_⟩
  intro syms' h
  have hok := (applyUse_grows hd.ok h).2
  rw [happly] at h
  cases h
  refine ⟨hok, ?_, hd.binds.concat _, ?_⟩
  · simp only
    rw [internActionUnit_signatures hi]
    exact hd.calls.signed hcall fun x hx b' hb' =>
      hagree.calls x (by simp [hx]) _ (by simp) _ hb' _ hcall rfl
  · rw [timersOf_concat_none done rfl]
    exact hd.timers

section

variable {h : Handler} {syms syms₁ : Symbols} {owned : List Nat} {trig : TriggerIr}

/-- The rest of a handler's use, once its trigger is lowered. -/
theorem applyUse_handler (ht : lowerTrigger syms [] h.trigger = .ok (syms₁, owned, trig)) :
    applyUse names syms (.handler h) =
      classifyTarget syms₁ h.target trig names >>= fun r => .ok r.1 := by
  unfold applyUse
  simp only [ht, Except.ok_bind_eq]

theorem useOk_transition (hagree : Agree names (done ++ .handler h :: rest))
    (hd : Describes names done syms) (hmem : h.target ∈ names) :
    UseOk names (done ++ .handler h :: rest) done syms (.handler h) := by
  obtain ⟨syms₁, owned, trig, ht, hactions, hbinds⟩ := lowerTrigger_describes hd hagree
  obtain ⟨-, hok₁, hat⟩ := lowerTrigger_answers hd.ok ht
  have htimers := timerRows_addTimer hd.timers (.handler h)
  rw [← lowerTrigger_addTimer ht] at htimers
  have hcall : (Use.handler h).calls names = none := if_pos hmem
  -- the timers up to here place the trigger where all timers do
  have hrep : triggerRepeats syms₁.durationTriggers trig =
      timerRepeats (timersOf (done ++ .handler h :: rest)) h.trigger := by
    rw [triggerRepeats_eq hok₁ htimers hat]
    have hpre := timersOf_grows (done ++ [.handler h]) rest
    rw [List.append_assoc, List.singleton_append] at hpre
    refine (timerRepeats_grows hpre fun t hu => ?_).symm
    rw [timersOf_concat_some (u := .handler h) done hu]
    split
    · assumption
    · simp
  unfold UseOk
  rw [applyUse_handler ht,
    classifyTarget_transition hmem hat (hagree.unbound h (by simp) hmem), hrep]
  constructor
  · have hbefore : ∀ x ∈ done, x.Before names (.handler h) := by
      intro x _ c' hc'
      rw [hcall] at hc'
      cases hc'
    rw [and_iff_right hbefore]
    simp only [Use.Fires, hmem, forall_const]
    cases timerRepeats (timersOf (done ++ .handler h :: rest)) h.trigger <;>
      simp [bind, Except.bind]
  · intro syms' hs
    split at hs
    · cases hs
    · cases hs
      exact ⟨hok₁, by rw [hactions]; exact hd.calls.other hcall, hbinds, htimers⟩

theorem useOk_call (hagree : Agree names (done ++ .handler h :: rest))
    (hd : Describes names done syms) (hmem : h.target ∉ names) :
    UseOk names (done ++ .handler h :: rest) done syms (.handler h) := by
  obtain ⟨syms₁, owned, trig, ht, hactions, hbinds⟩ := lowerTrigger_describes hd hagree
  obtain ⟨-, hok₁, hat⟩ := lowerTrigger_answers hd.ok ht
  have htimers := timerRows_addTimer hd.timers (.handler h)
  rw [← lowerTrigger_addTimer ht] at htimers
  have hcall : (Use.handler h).calls names = some (h.target, h.trigger.payload) := if_neg hmem
  have happly : applyUse names syms (.handler h) =
      internTarget syms.actions h.target trig >>= fun r =>
        .ok { syms₁ with actions := r.1 } := by
    rw [applyUse_handler ht]
    unfold classifyTarget
    rw [if_neg (by simpa using hmem), hactions]
    cases internTarget syms.actions h.target trig <;> rfl
  have hfires : (Use.handler h).Fires names (timersOf (done ++ .handler h :: rest)) :=
    fun hin => absurd hin hmem
  have hbefore : (∀ x ∈ done, x.Before names (.handler h)) ↔
      ∃ r, internTarget syms.actions h.target trig = .ok r := by
    rw [internTarget_ok_iff hat fun params hp => hd.calls.params_eq hagree hcall hp]
    unfold Use.Before
    simp only [hcall, hd.calls.mem_names, Option.mem_some_iff, forall_eq']
    constructor
    · rintro hall p hp hnil ⟨x, hx, b, hb⟩
      rw [hp] at hall
      exact hall x hx (by simp) hnil _ hb rfl
    · rintro hall x hx hsome hnil ⟨i, b⟩ hb rfl
      obtain ⟨p, hp⟩ := Option.ne_none_iff_exists'.mp hsome
      rw [hp] at hnil
      exact hall p hp hnil ⟨x, hx, b, hb⟩
  constructor
  · rw [happly, hbefore, and_iff_left hfires]
    simp only [Except.bind_eq_ok]
    exact ⟨fun ⟨_, r, hr, _⟩ => ⟨r, hr⟩, fun ⟨r, hr⟩ => ⟨_, r, hr, rfl⟩⟩
  · intro syms' hs
    have hok := (applyUse_grows hd.ok hs).2
    rw [happly] at hs
    obtain ⟨⟨actions, aid⟩, hi, hs⟩ := Except.bind_eq_ok.mp hs
    cases hs
    refine ⟨hok, ?_, hbinds, htimers⟩
    simp only
    rw [internTarget_signatures hat hi]
    exact hd.calls.signed hcall fun x hx b' hb' =>
      hagree.calls x (by simp [hx]) _ (by simp) _ hb' _ hcall rfl

end

theorem useOk (hagree : Agree names (done ++ u :: rest)) {syms : Symbols}
    (hd : Describes names done syms) : UseOk names (done ++ u :: rest) done syms u := by
  cases u with
  | action i => exact useOk_action hagree hd
  | handler h =>
      by_cases hmem : h.target ∈ names
      · exact useOk_transition hagree hd hmem
      · exact useOk_call hagree hd hmem

theorem describes_nil (names : List Ident) : Describes names [] {} :=
  ⟨Symbols.ok_empty, fun i params => by simp [signatures], fun _ he => (nomatch he), rfl⟩

/-- Which uses can be lowered. -/
theorem uses_ok_iff (hagree : Agree names us) :
    (∃ syms, us.foldlM (applyUse names) {} = .ok syms) ↔
      us.Pairwise (Use.Before names) ∧ ∀ u ∈ us, u.Fires names (timersOf us) :=
  Except.foldlM_ok_iff (P := Describes names)
    (fun _ _ _ _ hus hd => by subst hus; exact useOk hagree hd) (describes_nil names)

end

end Hsmc
