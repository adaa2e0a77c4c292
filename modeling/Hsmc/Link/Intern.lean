import Hsmc.Lib.Tables
import Hsmc.Link.Build

/-
  What interning establishes.

  The three symbol tables only grow (`Symbols.Grows`): no row moves, an action keeps its name
  and parameters, an event variant keeps a kind once it is bound, a timer trigger keeps
  everything. No name is listed twice, and an action is bound at a variant with the payload
  kind the variant has (`Symbols.Ok`). A use of a name is answered with the `u16` of the
  name's row (`ActionAt`, `TriggerAt`).
-/

namespace Hsmc

/-! ## How the tables grow -/

def PayloadKind.variantKind : PayloadKind → VariantKind
  | .tuple => .tuple
  | .struct => .struct

theorem payloadVariantKind_some (p : EventPayload) :
    payloadVariantKind (some p) = p.kind.variantKind := by
  obtain ⟨kind, fields⟩ := p
  cases kind <;> rfl

theorem variantKind_ne_unit (k : PayloadKind) : k.variantKind ≠ .unit := by
  cases k <;> simp [PayloadKind.variantKind]

theorem variantKind_inj {k k' : PayloadKind} (h : k.variantKind = k'.variantKind) : k = k' := by
  cases k <;> cases k' <;> first | rfl | cases h

/-- The same action, perhaps bound at more variants. -/
def ActionIr.Refines (a b : ActionIr) : Prop :=
  b.name = a.name ∧ b.params = a.params ∧ a.boundVariants ⊆ b.boundVariants

theorem ActionIr.Refines.refl (a : ActionIr) : a.Refines a := ⟨rfl, rfl, List.Subset.refl _⟩

theorem ActionIr.Refines.trans (a b d : ActionIr) (h : a.Refines b) (h' : b.Refines d) :
    a.Refines d :=
  ⟨h'.1.trans h.1, h'.2.1.trans h.2.1, List.Subset.trans h.2.2 h'.2.2⟩

/-- The same variant, perhaps with a payload it was first seen without. -/
def EventVariantIr.Refines (a b : EventVariantIr) : Prop :=
  b.name = a.name ∧ (a.kind ≠ .unit → b = a)

theorem EventVariantIr.Refines.refl (a : EventVariantIr) : a.Refines a := ⟨rfl, fun _ => rfl⟩

theorem EventVariantIr.Refines.trans (a b d : EventVariantIr) (h : a.Refines b)
    (h' : b.Refines d) : a.Refines d := by
  refine ⟨h'.1.trans h.1, fun hk => ?_⟩
  have hb := h.2 hk
  subst hb
  exact h'.2 hk

structure Symbols.Grows (syms syms' : Symbols) : Prop where
  actions : Grown ActionIr.Refines syms.actions syms'.actions
  events : Grown EventVariantIr.Refines syms.eventVariants syms'.eventVariants
  durations : syms.durationTriggers <+: syms'.durationTriggers

theorem Symbols.Grows.refl (syms : Symbols) : syms.Grows syms :=
  ⟨.refl ActionIr.Refines.refl _, .refl EventVariantIr.Refines.refl _, List.prefix_rfl⟩

theorem Symbols.Grows.trans {a b d : Symbols} (h : a.Grows b) (h' : b.Grows d) : a.Grows d :=
  ⟨h.actions.trans ActionIr.Refines.trans h'.actions,
    h.events.trans EventVariantIr.Refines.trans h'.events, h.durations.trans h'.durations⟩

/-- What holds of the symbol tables at all times. -/
structure Symbols.Ok (syms : Symbols) : Prop where
  actions_nodup : (syms.actions.map (·.name)).Nodup
  events_nodup : (syms.eventVariants.map (·.name)).Nodup
  durations_nodup : (syms.durationTriggers.map (·.key)).Nodup
  duration_id : ∀ p d, syms.durationTriggers[p]? = some d → d.id = asU16 p
  duration_key : ∀ d ∈ syms.durationTriggers, ∃ key, d.key = durationKey key d.repeats
  bound : ∀ a ∈ syms.actions, ∀ bv ∈ a.boundVariants,
    ∃ e ∈ syms.eventVariants, e.name = bv.name ∧ e.kind = bv.kind.variantKind

theorem Symbols.ok_empty : ({} : Symbols).Ok where
  actions_nodup := List.nodup_nil
  events_nodup := List.nodup_nil
  durations_nodup := List.nodup_nil
  duration_id := by simp
  duration_key := by simp
  bound := by simp

/-! ## What a use is answered with -/

/-- Action `i` has the id `aid`. `use` is the payload bound at the use, with its variant. -/
def Symbols.ActionAt (syms : Symbols) (i : Ident) (use : Option (Ident × EventPayload))
    (aid : Nat) : Prop :=
  ∃ p a, syms.actions[p]? = some a ∧ a.name = i ∧ aid = asU16 p ∧
    match use with
    | none => a.params = []
    | some (variant, payload) =>
        a.params = payload.fields ∧ ⟨variant, payload.kind⟩ ∈ a.boundVariants

theorem Symbols.ActionAt.mono {syms syms' : Symbols} (hg : syms.Grows syms') {i : Ident}
    {use : Option (Ident × EventPayload)} {aid : Nat} (h : syms.ActionAt i use aid) :
    syms'.ActionAt i use aid := by
  obtain ⟨p, a, ha, hn, hid, huse⟩ := h
  obtain ⟨b, hb, hname, hparams, hbound⟩ := hg.actions p a ha
  refine ⟨p, b, hb, hname.trans hn, hid, ?_⟩
  cases use with
  | none => exact hparams.trans huse
  | some u => exact ⟨hparams.trans huse.1, hbound huse.2⟩

/-- The variant has the id `id`, and the kind of the payload bound at the use. -/
def Symbols.EventAt (syms : Symbols) (variant : Ident) (payload : Option EventPayload)
    (id : Nat) : Prop :=
  ∃ p e, syms.eventVariants[p]? = some e ∧ e.name = variant ∧ id = asU16 p ∧
    ∀ x, payload = some x → e.kind = x.kind.variantKind

theorem Symbols.EventAt.mono {syms syms' : Symbols} (hg : syms.Grows syms') {variant : Ident}
    {payload : Option EventPayload} {id : Nat} (h : syms.EventAt variant payload id) :
    syms'.EventAt variant payload id := by
  obtain ⟨p, e, he, hn, hid, hkind⟩ := h
  obtain ⟨b, hb, hname, hsame⟩ := hg.events p e he
  refine ⟨p, b, hb, hname.trans hn, hid, ?_⟩
  intro x hx
  have hk := hkind x hx
  rw [hsame (by rw [hk]; exact variantKind_ne_unit _), hk]

def Symbols.DurationAt (syms : Symbols) (key : String) (repeats : Bool) (id : Nat) : Prop :=
  ∃ p d, syms.durationTriggers[p]? = some d ∧ d.key = durationKey key repeats ∧
    d.repeats = repeats ∧ id = asU16 p

theorem Symbols.DurationAt.mono {syms syms' : Symbols} (hg : syms.Grows syms') {key : String}
    {repeats : Bool} {id : Nat} (h : syms.DurationAt key repeats id) :
    syms'.DurationAt key repeats id := by
  obtain ⟨p, d, hd, hrest⟩ := h
  obtain ⟨l, hl⟩ := hg.durations
  refine ⟨p, d, ?_, hrest⟩
  rw [← hl, List.getElem?_append_left (List.getElem?_eq_some_iff.mp hd).1, hd]

/-- A trigger and what it was lowered to. -/
def Symbols.TriggerAt (syms : Symbols) : Trigger → TriggerIr → Prop
  | .event variant payload, .event id variant' payload' =>
      variant' = variant ∧ payload' = payload ∧ syms.EventAt variant payload id
  | .duration _ key repeats, .duration id => syms.DurationAt key repeats id
  | _, _ => False

/-- Events are lowered to events, timers to timers. -/
theorem Symbols.TriggerAt.inv {syms : Symbols} {t : Trigger} {t' : TriggerIr}
    (h : syms.TriggerAt t t') :
    (∃ variant payload id, t = .event variant payload ∧ t' = .event id variant payload ∧
      syms.EventAt variant payload id) ∨
    (∃ expr key repeats id, t = .duration expr key repeats ∧ t' = .duration id ∧
      syms.DurationAt key repeats id) := by
  cases t with
  | event variant payload =>
      cases t' with
      | event id variant' payload' =>
          obtain ⟨rfl, rfl, hat⟩ := h
          exact .inl ⟨_, _, id, rfl, rfl, hat⟩
      | duration id => exact h.elim
  | duration expr key repeats =>
      cases t' with
      | event id variant payload => exact h.elim
      | duration id => exact .inr ⟨expr, key, repeats, id, rfl, rfl, h⟩

theorem Symbols.TriggerAt.mono {syms syms' : Symbols} (hg : syms.Grows syms') {t : Trigger}
    {t' : TriggerIr} (h : syms.TriggerAt t t') : syms'.TriggerAt t t' := by
  obtain ⟨variant, payload, id, rfl, rfl, hat⟩ | ⟨expr, key, repeats, id, rfl, rfl, hat⟩ := h.inv
  · exact ⟨rfl, rfl, hat.mono hg⟩
  · exact Symbols.DurationAt.mono hg hat

/-! ## Rows by name -/

theorem position_eq_some {α : Type} {p : α → Bool} {l : List α} {i : Nat}
    (h : position p l = some i) : ∃ a, l[i]? = some a ∧ p a = true := by
  unfold position at h
  obtain ⟨hi, hp, -⟩ := List.findIdx?_eq_some_iff_getElem.mp h
  exact ⟨l[i], List.getElem?_eq_getElem hi, hp⟩

theorem position_eq_none {α : Type} {p : α → Bool} {l : List α} (h : position p l = none) :
    ∀ a ∈ l, p a = false := by
  unfold position at h
  simpa using List.findIdx?_eq_none_iff.mp h

/-- A name that has no row yet. -/
theorem not_mem_of_position {α : Type} {f : α → Ident} {l : List α} {i : Ident}
    (h : position (fun x => f x == i) l = none) : i ∉ l.map f := by
  rintro hmem
  obtain ⟨a, ha, rfl⟩ := List.mem_map.mp hmem
  simpa using position_eq_none h a ha

theorem nodup_map_concat {α : Type} {f : α → Ident} {l : List α} {a : α}
    (hnd : (l.map f).Nodup) (h : f a ∉ l.map f) : ((l ++ [a]).map f).Nodup := by
  rw [List.map_append, List.map_singleton]
  simpa using hnd.concat h

/-! ## Actions -/

theorem paramsMatch_iff {a b : List PayloadField} : paramsMatch a b = true ↔ a = b := by
  unfold paramsMatch
  induction a generalizing b with
  | nil => cases b <;> simp
  | cons x a ih =>
      cases b with
      | nil => simp
      | cons y b =>
          have hxy : x = y ↔ x.name = y.name ∧ x.ty = y.ty := by
            cases x
            cases y
            simp
          rw [List.cons.injEq, ← ih, hxy]
          simp only [Bool.and_eq_true, beq_iff_eq, List.length_cons, Nat.add_right_cancel_iff,
            List.zip_cons_cons, List.all_cons]
          tauto

/-- What an interning of an action does to the tables, and its answer. -/
structure Symbols.Answers (syms syms' : Symbols) (i : Ident)
    (use : Option (Ident × EventPayload)) (aid : Nat) : Prop where
  grows : syms.Grows syms'
  ok : syms'.Ok
  answer : syms'.ActionAt i use aid

/-- A new row for an action, bound at variants of the recorded kind. -/
theorem Symbols.Ok.concat_action {syms : Symbols} (hok : syms.Ok) {a : ActionIr}
    (hnew : a.name ∉ syms.actions.map (·.name))
    (hbound : ∀ bv ∈ a.boundVariants,
      ∃ e ∈ syms.eventVariants, e.name = bv.name ∧ e.kind = bv.kind.variantKind) :
    ({ syms with actions := syms.actions ++ [a] } : Symbols).Ok :=
  { hok with
    actions_nodup := nodup_map_concat hok.actions_nodup hnew
    bound := by
      intro b hb
      rcases List.mem_append.mp hb with hb | hb
      · exact hok.bound b hb
      · rw [List.mem_singleton.mp hb]
        exact hbound }

theorem Symbols.grows_concat_action (syms : Symbols) (a : ActionIr) :
    syms.Grows { syms with actions := syms.actions ++ [a] } :=
  ⟨.append ActionIr.Refines.refl _ _, .refl EventVariantIr.Refines.refl _, List.prefix_rfl⟩

theorem internActionUnit_answers {syms : Symbols} (hok : syms.Ok) {i : Ident}
    {actions : List ActionIr} {aid : Nat}
    (h : internActionUnit syms.actions i = .ok (actions, aid)) :
    syms.Answers { syms with actions } i none aid := by
  unfold internActionUnit at h
  split at h
  · rename_i p hp
    obtain ⟨a, ha, hname⟩ := position_eq_some hp
    simp only [ha] at h
    split at h
    · cases h
    · rename_i hparams
      cases h
      exact ⟨.refl syms, hok, p, a, ha, by simpa using hname, rfl, by simpa using hparams⟩
  · rename_i hp
    cases h
    exact ⟨syms.grows_concat_action _, hok.concat_action (not_mem_of_position hp) (by simp),
      syms.actions.length, { name := i, params := [], boundVariants := [] },
      List.getElem?_concat_length, rfl, rfl, rfl⟩

/-- One more variant for a bound action. -/
theorem Symbols.Ok.set_action {syms : Symbols} (hok : syms.Ok) {p : Nat} {a : ActionIr}
    {bv : BoundVariant} (ha : syms.actions[p]? = some a)
    (hbound : ∃ e ∈ syms.eventVariants, e.name = bv.name ∧ e.kind = bv.kind.variantKind) :
    ({ syms with actions := (syms.actions.set p
        { a with boundVariants := a.boundVariants ++ [bv] }) } : Symbols).Ok :=
  { hok with
    actions_nodup := by
      simp only
      rw [map_set_of_eq (f := fun a : ActionIr => a.name)
        (b := { a with boundVariants := a.boundVariants ++ [bv] }) ha rfl]
      exact hok.actions_nodup
    bound := by
      intro b hb x hx
      rcases List.mem_or_eq_of_mem_set hb with hb | rfl
      · exact hok.bound b hb x hx
      · rcases List.mem_append.mp hx with hx | hx
        · exact hok.bound a (List.mem_of_getElem? ha) x hx
        · rw [List.mem_singleton.mp hx]
          exact hbound }

theorem internActionWithParams_answers {syms : Symbols} (hok : syms.Ok) {i variant : Ident}
    {payload : EventPayload} {actions : List ActionIr} {aid : Nat}
    (hevent : ∃ e ∈ syms.eventVariants, e.name = variant ∧ e.kind = payload.kind.variantKind)
    (h : internActionWithParams syms.actions i payload.fields variant payload.kind =
      .ok (actions, aid)) :
    syms.Answers { syms with actions } i (some (variant, payload)) aid := by
  unfold internActionWithParams at h
  split at h
  · rename_i p hp
    obtain ⟨a, ha, hname⟩ := position_eq_some hp
    have hname : a.name = i := by simpa using hname
    simp only [ha] at h
    split at h
    · cases h
    · split at h
      · cases h
      · rename_i hmatch
        have hmatch : a.params = payload.fields := by simpa [paramsMatch_iff] using hmatch
        split at h
        · rename_i hany
          cases h
          refine ⟨.refl syms, hok, p, a, ha, hname, rfl, hmatch, ?_⟩
          -- the variant was bound before, with the kind it has
          obtain ⟨bv, hbv, hvar⟩ := List.any_eq_true.mp hany
          have hvar : bv.name = variant := by simpa using hvar
          obtain ⟨e, he, hen, hek⟩ := hok.bound a (List.mem_of_getElem? ha) bv hbv
          obtain ⟨e', he', hen', hek'⟩ := hevent
          have heq : e = e' := List.inj_on_of_nodup_map hok.events_nodup he he'
            (by rw [hen, hen', hvar])
          have hkind : bv.kind = payload.kind := variantKind_inj (by rw [← hek, heq, hek'])
          rwa [← hvar, ← hkind]
        · cases h
          have hlt : p < syms.actions.length := (List.getElem?_eq_some_iff.mp ha).1
          refine ⟨⟨.set ActionIr.Refines.refl ha ⟨rfl, rfl, List.subset_append_left _ _⟩,
            .refl EventVariantIr.Refines.refl _, List.prefix_rfl⟩, hok.set_action ha hevent,
            p, _, List.getElem?_set_self hlt, hname, rfl, hmatch, ?_⟩
          simp
  · rename_i hp
    cases h
    refine ⟨syms.grows_concat_action _, hok.concat_action (not_mem_of_position hp) ?_,
      syms.actions.length, _, List.getElem?_concat_length, rfl, rfl, rfl, by simp⟩
    simpa using hevent

/-! ## Events -/

theorem mergeVariant_refines {i : Ident} {e e' : EventVariantIr} {payload : Option EventPayload}
    (h : mergeVariant i e (payloadVariantKind payload) (payload.map fun p => p.fields.length) =
      .ok e') : e.Refines e' ∧ ∀ x, payload = some x → e'.kind = x.kind.variantKind := by
  unfold mergeVariant at h
  split at h
  · rename_i hk hk'
    cases h
    refine ⟨.refl e, ?_⟩
    rintro x rfl
    rw [payloadVariantKind_some] at hk'
    exact absurd hk' (variantKind_ne_unit _)
  · rename_i hk hk'
    cases h
    refine ⟨⟨rfl, fun hne => absurd hk hne⟩, ?_⟩
    rintro x rfl
    exact payloadVariantKind_some x
  · rename_i hk
    split at h
    · rename_i hsame
      have he : e' = e := by
        split at h
        · split at h
          · cases h
          · cases h
            rfl
        · cases h
          rfl
      subst he
      refine ⟨.refl e', ?_⟩
      rintro x rfl
      rw [hsame, payloadVariantKind_some]
    · split at h
      · rename_i hunit
        cases h
        refine ⟨.refl e, ?_⟩
        rintro x rfl
        rw [payloadVariantKind_some] at hunit
        exact absurd hunit (variantKind_ne_unit _)
      · cases h

theorem internEvent_answers {syms : Symbols} (hok : syms.Ok) {i : Ident}
    {payload : Option EventPayload} {eventVariants : List EventVariantIr} {id : Nat}
    (h : internEvent syms.eventVariants i payload = .ok (eventVariants, id)) :
    syms.Grows { syms with eventVariants } ∧ ({ syms with eventVariants } : Symbols).Ok ∧
      ({ syms with eventVariants } : Symbols).EventAt i payload id := by
  unfold internEvent at h
  simp only at h
  split at h
  · rename_i p hp
    obtain ⟨e, he, hname⟩ := position_eq_some hp
    have hname : e.name = i := by simpa using hname
    simp only [he] at h
    obtain ⟨e', hmerge, h⟩ := Except.bind_eq_ok.mp h
    cases h
    obtain ⟨href, hkind⟩ := mergeVariant_refines hmerge
    have hlt : p < syms.eventVariants.length := (List.getElem?_eq_some_iff.mp he).1
    have hgrown : Grown EventVariantIr.Refines syms.eventVariants
        (syms.eventVariants.set p e') := .set EventVariantIr.Refines.refl he href
    refine ⟨⟨.refl ActionIr.Refines.refl _, hgrown, List.prefix_rfl⟩, ?_,
      p, e', List.getElem?_set_self hlt, href.1.trans hname, rfl, hkind⟩
    refine { hok with events_nodup := ?_, bound := ?_ }
    · simp only
      rw [map_set_of_eq (f := fun e : EventVariantIr => e.name) he href.1]
      exact hok.events_nodup
    · intro a ha bv hbv
      obtain ⟨x, hx, hxn, hxk⟩ := hok.bound a ha bv hbv
      obtain ⟨y, hy, hyn, hsame⟩ := hgrown.mem hx
      exact ⟨y, hy, hyn.trans hxn, by rw [hsame (by rw [hxk]; exact variantKind_ne_unit _), hxk]⟩
  · rename_i hp
    cases h
    refine ⟨⟨.refl ActionIr.Refines.refl _, .append EventVariantIr.Refines.refl _ _,
      List.prefix_rfl⟩, ?_, syms.eventVariants.length, _, List.getElem?_concat_length, rfl, rfl, ?_⟩
    · refine { hok with events_nodup := nodup_map_concat hok.events_nodup ?_, bound := ?_ }
      · exact not_mem_of_position hp
      · intro a ha bv hbv
        obtain ⟨x, hx, hrest⟩ := hok.bound a ha bv hbv
        exact ⟨x, List.mem_append_left _ hx, hrest⟩
    · rintro x rfl
      exact payloadVariantKind_some x

/-! ## Timers -/

theorem durationKey_inj {key key' : String} {repeats repeats' : Bool}
    (h : durationKey key repeats = durationKey key' repeats') :
    key = key' ∧ repeats = repeats' := by
  -- read from the back, the two modes differ in their second letter
  have hrev := congrArg (fun s : String => s.toList.reverse) h
  unfold durationKey at hrev
  cases repeats <;> cases repeats' <;>
    simp only [String.toList_append, List.reverse_append, Bool.false_eq_true, ↓reduceIte] at hrev
  · exact ⟨String.toList_inj.mp (List.reverse_injective (by simpa using hrev)), rfl⟩
  · simp at hrev
  · simp at hrev
  · exact ⟨String.toList_inj.mp (List.reverse_injective (by simpa using hrev)), rfl⟩

theorem internDuration_answers {syms : Symbols} (hok : syms.Ok) (expr : Expr) (key : String)
    (repeats : Bool) :
    let r := internDuration syms.durationTriggers expr key repeats
    syms.Grows { syms with durationTriggers := r.1 } ∧
      ({ syms with durationTriggers := r.1 } : Symbols).Ok ∧
      ({ syms with durationTriggers := r.1 } : Symbols).DurationAt key repeats r.2 := by
  unfold internDuration
  simp only
  split
  · rename_i d hd
    obtain ⟨p, hp⟩ := List.mem_iff_getElem?.mp (List.mem_of_find?_eq_some hd)
    have hkey : d.key = durationKey key repeats := by simpa using List.find?_some hd
    obtain ⟨key', hkey'⟩ := hok.duration_key d (List.mem_of_getElem? hp)
    exact ⟨.refl syms, hok, p, d, hp, hkey, (durationKey_inj (hkey'.symm.trans hkey)).2,
      hok.duration_id p d hp⟩
  · rename_i hnone
    refine ⟨⟨.refl ActionIr.Refines.refl _, .refl EventVariantIr.Refines.refl _,
      List.prefix_append _ _⟩, ?_, syms.durationTriggers.length, _, List.getElem?_concat_length,
      rfl, rfl, rfl⟩
    refine { hok with durations_nodup := ?_, duration_id := ?_, duration_key := ?_ }
    · refine nodup_map_concat hok.durations_nodup ?_
      intro hmem
      obtain ⟨d, hd, hkey⟩ := List.mem_map.mp hmem
      exact absurd hkey (by simpa using List.find?_eq_none.mp hnone d hd)
    · intro p d hd
      rcases Nat.lt_or_ge p syms.durationTriggers.length with hp | hp
      · rw [List.getElem?_append_left hp] at hd
        exact hok.duration_id p d hd
      · rw [List.getElem?_append_right hp] at hd
        have hp' : p = syms.durationTriggers.length := by
          have := (List.getElem?_eq_some_iff.mp hd).1
          rw [List.length_singleton] at this
          omega
        rw [hp', Nat.sub_self, List.getElem?_cons_zero, Option.some.injEq] at hd
        rw [← hd, hp']
    · intro d hd
      rcases List.mem_append.mp hd with hd | hd
      · exact hok.duration_key d hd
      · rw [List.mem_singleton.mp hd]
        exact ⟨key, rfl⟩

/-! ## Triggers and targets -/

theorem lowerTrigger_answers {syms syms' : Symbols} (hok : syms.Ok) {owned owned' : List Nat}
    {t : Trigger} {trig : TriggerIr} (h : lowerTrigger syms owned t = .ok (syms', owned', trig)) :
    syms.Grows syms' ∧ syms'.Ok ∧ syms'.TriggerAt t trig := by
  unfold lowerTrigger at h
  split at h
  · obtain ⟨⟨events, id⟩, he, h⟩ := Except.bind_eq_ok.mp h
    cases h
    obtain ⟨hg, hok', hat⟩ := internEvent_answers hok he
    exact ⟨hg, hok', rfl, rfl, hat⟩
  · rename_i expr key repeats
    simp only at h
    cases h
    exact internDuration_answers hok expr key repeats

/-- The payload bound at a trigger, with its variant. -/
def Trigger.use : Trigger → Option (Ident × EventPayload)
  | .event variant (some payload) => some (variant, payload)
  | _ => none

/-- What a handler's target was classified as. -/
inductive Symbols.KindAt (syms : Symbols) (names : List Ident) (h : Handler) (trig : TriggerIr) :
    HandlerKindIr → Prop where
  | transition : h.target ∈ names → h.trigger.use = none →
      triggerRepeats syms.durationTriggers trig = false →
      syms.KindAt names h trig (.transition h.target none)
  | action {aid : Nat} : h.target ∉ names → syms.ActionAt h.target h.trigger.use aid →
      syms.KindAt names h trig (.action aid h.target)

theorem triggerRepeats_mono {syms syms' : Symbols} (hg : syms.Grows syms') {t : Trigger}
    {trig : TriggerIr} (hat : syms.TriggerAt t trig) :
    triggerRepeats syms'.durationTriggers trig = triggerRepeats syms.durationTriggers trig := by
  obtain ⟨variant, payload, id, rfl, rfl, -⟩ | ⟨expr, key, repeats, id, rfl, rfl, hat⟩ := hat.inv
  · rfl
  · obtain ⟨p, d, hd, -, -, rfl⟩ := hat
    obtain ⟨l, hl⟩ := hg.durations
    have hlt : asU16 p < syms.durationTriggers.length :=
      (asU16_le p).trans_lt (List.getElem?_eq_some_iff.mp hd).1
    have hget : syms'.durationTriggers[asU16 p]? = syms.durationTriggers[asU16 p]? := by
      rw [← hl, List.getElem?_append_left hlt]
    unfold triggerRepeats
    simp only [hget]

theorem Symbols.KindAt.mono {syms syms' : Symbols} (hg : syms.Grows syms') {names : List Ident}
    {h : Handler} {trig : TriggerIr} {kind : HandlerKindIr} (hat : syms.TriggerAt h.trigger trig)
    (hk : syms.KindAt names h trig kind) : syms'.KindAt names h trig kind := by
  cases hk with
  | transition hmem huse hrep =>
      exact .transition hmem huse (by rw [triggerRepeats_mono hg hat, hrep])
  | action hmem ha => exact .action hmem (ha.mono hg)

theorem classifyTarget_kind {syms syms' : Symbols} (hok : syms.Ok) {h : Handler}
    {trig : TriggerIr} {names : List Ident} {kind : HandlerKindIr}
    (hat : syms.TriggerAt h.trigger trig)
    (hc : classifyTarget syms h.target trig names = .ok (syms', kind)) :
    syms.Grows syms' ∧ syms'.Ok ∧ syms'.KindAt names h trig kind := by
  unfold classifyTarget at hc
  split at hc
  · rename_i hmem
    have hmem : h.target ∈ names := by simpa using hmem
    split at hc
    · cases hc
    · rename_i hrep
      have hrep := Bool.eq_false_iff.mpr hrep
      split at hc
      · cases hc
      · rename_i hno
        cases hc
        refine ⟨.refl syms, hok, .transition hmem ?_ hrep⟩
        obtain ⟨variant, payload, id, ht, rfl, -⟩ |
          ⟨expr, key, repeats, id, ht, rfl, -⟩ := hat.inv
        · rw [ht]
          cases payload with
          | none => rfl
          | some x => exact absurd rfl (hno _ _ x)
        · rw [ht]
          rfl
  · rename_i hmem
    have hmem : h.target ∉ names := by simpa using hmem
    obtain ⟨⟨actions, aid⟩, ha, hc⟩ := Except.bind_eq_ok.mp hc
    cases hc
    have hans : syms.Answers { syms with actions } h.target h.trigger.use aid := by
      obtain ⟨variant, payload, id, ht, rfl, hev⟩ | ⟨expr, key, repeats, id, ht, rfl, -⟩ := hat.inv
      · rw [ht]
        cases payload with
        | none => exact internActionUnit_answers hok ha
        | some x =>
            obtain ⟨p, e, he, hn, -, hkind⟩ := hev
            exact internActionWithParams_answers hok
              ⟨e, List.mem_of_getElem? he, hn, hkind x rfl⟩ ha
      · rw [ht]
        exact internActionUnit_answers hok ha
    exact ⟨hans.grows, hans.ok, .action hmem hans.answer⟩

end Hsmc
