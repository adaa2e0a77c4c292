import Hsmc.Link.Layout

/-
  The handlers of a parsed chart.

  `on(..) => a, b, C;` becomes one handler for each name of the list, numbered as they come
  (`Numbered`). The declarations of the chart are the bodies of its text in the same order
  (`parseStatechart_bodies`), each with the handlers its items list.
-/

namespace Hsmc

mutual

/-- The items of the states within an item, outer states first. -/
def Item.bodies : Item → List (List Item)
  | .state _ items => items :: bodiesWithin items
  | _ => []

def bodiesWithin : List Item → List (List Item)
  | [] => []
  | item :: items => item.bodies ++ bodiesWithin items

end

/-- The items of every state of a chart, the root first. -/
def bodies (items : List Item) : List (List Item) := items :: bodiesWithin items

/-- A trigger with its dedup key. -/
def TriggerItem.parsed : TriggerItem → Trigger
  | .event variant payload => .event variant payload
  | .duration expr repeats => .duration expr (exprToString expr) repeats

/-- What an `on` item lists, trigger by name, in order. -/
def Item.written : Item → List (Trigger × Ident)
  | .on trigger first rest => (first :: rest).map (trigger.parsed, ·)
  | _ => []

/-- Handlers with the indices from `k` on. -/
inductive Numbered : Nat → List (Trigger × Ident) → List Handler → Prop where
  | nil {k : Nat} : Numbered k [] []
  | cons {k : Nat} {trigger : Trigger} {target : Ident} {l : List (Trigger × Ident)}
      {hs : List Handler} : Numbered (k + 1) l hs →
      Numbered k ((trigger, target) :: l) (⟨trigger, target, k⟩ :: hs)

namespace Numbered

variable {k : Nat} {l l' : List (Trigger × Ident)} {hs hs' : List Handler}

theorem append (h : Numbered k l hs) (h' : Numbered (k + l.length) l' hs') :
    Numbered k (l ++ l') (hs ++ hs') := by
  induction h with
  | nil => simpa using h'
  | cons _ ih =>
      exact .cons (ih (by rwa [List.length_cons, ← Nat.add_assoc, Nat.add_right_comm] at h'))

theorem map_eq (h : Numbered k l hs) : hs.map (fun h => (h.trigger, h.target)) = l := by
  induction h with
  | nil => rfl
  | cons _ ih => rw [List.map_cons, ih]

theorem le_of_mem (h : Numbered k l hs) : ∀ x ∈ hs, k ≤ x.declIndex := by
  induction h with
  | nil => simp
  | cons _ ih =>
      intro x hx
      rcases List.mem_cons.mp hx with rfl | hx
      · exact Nat.le_refl _
      · exact Nat.le_of_succ_le (ih x hx)

/-- The numbers go up. -/
theorem increasing (h : Numbered k l hs) : hs.Pairwise fun x y => x.declIndex < y.declIndex := by
  induction h with
  | nil => exact .nil
  | cons h ih => exact .cons h.le_of_mem ih

end Numbered

/-! ## The parser -/

theorem parseTrigger_eq {t : TriggerItem} {t' : Trigger} (h : parseTrigger t = .ok t') :
    t' = t.parsed := by
  cases t with
  | event variant payload => cases h; rfl
  | duration expr repeats =>
      unfold parseTrigger at h
      simp only at h
      split at h <;> cases h
      rfl

/-- From `p` to `p'` the parser took these children and handlers. -/
structure Parses (l : List (Trigger × Ident)) (cs : List StateDecl) (p p' : Parsing) : Prop where
  children : p'.children = p.children ++ cs
  declIndex : p'.declIndex = p.declIndex + l.length
  handlers : ∃ hs, p'.body.handlers = p.body.handlers ++ hs ∧ Numbered p.declIndex l hs

/-- An item that lists nothing and declares no state. -/
theorem Parses.other {p p' : Parsing} (hc : p'.children = p.children)
    (hd : p'.declIndex = p.declIndex) (hh : p'.body.handlers = p.body.handlers) :
    Parses [] [] p p' :=
  ⟨by rw [hc, List.append_nil], hd, [], by rw [hh, List.append_nil], .nil⟩

theorem Parses.trans {l l' : List (Trigger × Ident)} {cs cs' : List StateDecl}
    {p p' p'' : Parsing} (h : Parses l cs p p') (h' : Parses l' cs' p' p'') :
    Parses (l ++ l') (cs ++ cs') p p'' := by
  obtain ⟨hs, hhs, hn⟩ := h.handlers
  obtain ⟨hs', hhs', hn'⟩ := h'.handlers
  rw [h.declIndex] at hn'
  refine ⟨by rw [h'.children, h.children, List.append_assoc], ?_, hs ++ hs', ?_, hn.append hn'⟩
  · rw [h'.declIndex, h.declIndex, List.length_append, Nat.add_assoc]
  · rw [hhs', hhs, List.append_assoc]

/-- The parser begins with nothing. -/
theorem Parses.fresh {l : List (Trigger × Ident)} {cs : List StateDecl} {p : Parsing}
    (h : Parses l cs {} p) : Numbered 0 l p.body.handlers ∧ p.children = cs := by
  obtain ⟨hs, hhs, hn⟩ := h.handlers
  rw [List.nil_append] at hhs
  exact ⟨by rwa [hhs], by rw [h.children, List.nil_append]⟩

theorem placeAll_append (parent : Nat) : ∀ (next : Nat) (cs cs' : List StateDecl),
    placeAll parent next (cs ++ cs') =
      placeAll parent next cs ++ placeAll parent (next + (placeAll parent next cs).length) cs'
  | next, [], cs' => by simp [placeAll]
  | next, c :: cs, cs' => by
      rw [List.cons_append, placeAll, placeAll, placeAll_append parent _ cs cs', List.append_assoc,
        List.length_append, Nat.add_assoc]

theorem pushTargets_parses (trigger : Trigger) : ∀ (targets : List Ident) (p : Parsing),
    Parses (targets.map (trigger, ·)) [] p (pushTargets trigger p targets)
  | [], p => .other rfl rfl rfl
  | target :: targets, p => by
      have hfirst : Parses [(trigger, target)] [] p { p with
          body := { p.body with handlers := p.body.handlers ++ [⟨trigger, target, p.declIndex⟩] }
          declIndex := p.declIndex + 1 } :=
        ⟨by simp, rfl, [⟨trigger, target, p.declIndex⟩], rfl, .cons .nil⟩
      exact hfirst.trans (pushTargets_parses trigger targets _)

/-- What a declaration takes from its items. -/
def Lists (items : List Item) (p : Placed) : Prop :=
  Numbered 0 (items.flatMap Item.written) p.decl.body.handlers

/-- The handlers of a state have the triggers of its `on` declarations. -/
theorem Lists.trigger_iff {its : List Item} {p : Placed} (h : Lists its p) (t : Trigger) :
    (∃ x ∈ p.decl.body.handlers, x.trigger = t) ↔
      ∃ t' first rest, Item.on t' first rest ∈ its ∧ t'.parsed = t := by
  have hmap : (∃ x ∈ p.decl.body.handlers, x.trigger = t) ↔
      ∃ i, (t, i) ∈ its.flatMap Item.written := by
    rw [← h.map_eq]
    simp only [List.mem_map, Prod.mk.injEq]
    exact ⟨fun ⟨x, hx, ht⟩ => ⟨x.target, x, hx, ht, rfl⟩, fun ⟨_, x, hx, ht, _⟩ => ⟨x, hx, ht⟩⟩
  rw [hmap]
  constructor
  · rintro ⟨i, hi⟩
    obtain ⟨item, hitem, hi⟩ := List.mem_flatMap.mp hi
    cases item with
    | on t' first rest =>
        obtain ⟨_, -, he⟩ := List.mem_map.mp hi
        exact ⟨t', first, rest, hitem, (Prod.mk.inj he).1⟩
    | _ => cases hi
  · rintro ⟨t', first, rest, hitem, rfl⟩
    exact ⟨first, List.mem_flatMap.mpr ⟨_, hitem, List.mem_map.mpr ⟨first, by simp, rfl⟩⟩⟩

mutual

theorem parseItem_parses : ∀ (item : Item) {isRoot : Bool} {p p' : Parsing},
    parseItem isRoot p item = .ok p' → ∃ cs, Parses item.written cs p p' ∧
      ∀ parent next, List.Forall₂ Lists item.bodies (placeAll parent next cs)
  | .context ty, isRoot, p, p', h => by
      unfold parseItem at h
      split at h <;> cases h
      exact ⟨[], .other rfl rfl rfl, fun _ _ => .nil⟩
  | .events ty, isRoot, p, p', h => by
      unfold parseItem at h
      split at h <;> cases h
      exact ⟨[], .other rfl rfl rfl, fun _ _ => .nil⟩
  | .trace, isRoot, p, p', h => by
      unfold parseItem at h
      split at h
      · cases h
      · split at h <;> cases h
        exact ⟨[], .other rfl rfl rfl, fun _ _ => .nil⟩
  | .entry first rest, isRoot, p, p', h => by
      unfold parseItem at h
      cases h
      exact ⟨[], .other rfl rfl rfl, fun _ _ => .nil⟩
  | .exit first rest, isRoot, p, p', h => by
      unfold parseItem at h
      cases h
      exact ⟨[], .other rfl rfl rfl, fun _ _ => .nil⟩
  | .default child, isRoot, p, p', h => by
      unfold parseItem at h
      cases h
      exact ⟨[], .other rfl rfl rfl, fun _ _ => .nil⟩
  | .terminate event, isRoot, p, p', h => by
      unfold parseItem at h
      cases h
      exact ⟨[], .other rfl rfl rfl, fun _ _ => .nil⟩
  | .on trigger first rest, isRoot, p, p', h => by
      unfold parseItem at h
      obtain ⟨t, ht, h⟩ := Except.bind_eq_ok.mp h
      cases h
      obtain rfl := parseTrigger_eq ht
      exact ⟨[], pushTargets_parses trigger.parsed (first :: rest) p, fun _ _ => .nil⟩
  | .during fnName fields, isRoot, p, p', h => by
      unfold parseItem at h
      cases h
      exact ⟨[], .other rfl rfl rfl, fun _ _ => .nil⟩
  | .state name items, isRoot, p, p', h => by
      unfold parseItem at h
      obtain ⟨inner, hinner, h⟩ := Except.bind_eq_ok.mp h
      cases h
      obtain ⟨cs, hp, hcs⟩ := parseItems_parses items hinner
      refine ⟨[.mk name inner.body inner.children], ⟨rfl, rfl, [], by simp, .nil⟩, ?_⟩
      intro parent next
      obtain ⟨hn, hchildren⟩ := hp.fresh
      rw [placeAll, placeAll, List.append_nil, hchildren, StateDecl.place]
      exact .cons hn (hcs next (next + 1))
  | .other name, isRoot, p, p', h => by
      unfold parseItem at h
      cases h

theorem parseItems_parses : ∀ (items : List Item) {isRoot : Bool} {p p' : Parsing},
    parseItems isRoot p items = .ok p' → ∃ cs, Parses (items.flatMap Item.written) cs p p' ∧
      ∀ parent next, List.Forall₂ Lists (bodiesWithin items) (placeAll parent next cs)
  | [], isRoot, p, p', h => by
      unfold parseItems at h
      cases h
      exact ⟨[], .other rfl rfl rfl, fun _ _ => .nil⟩
  | item :: items, isRoot, p, p', h => by
      unfold parseItems at h
      obtain ⟨p₁, h₁, h⟩ := Except.bind_eq_ok.mp h
      obtain ⟨cs, hp, hcs⟩ := parseItem_parses item h₁
      obtain ⟨cs', hp', hcs'⟩ := parseItems_parses items h
      refine ⟨cs ++ cs', hp.trans hp', fun parent next => ?_⟩
      rw [placeAll_append]
      exact List.rel_append (hcs parent next) (hcs' parent _)

end

/-- The declared states are the bodies of the text, and list their handlers. -/
theorem parseStatechart_lists {name : Ident} {items : List Item} {input : StatechartInput}
    (h : parseStatechart name items = .ok input) :
    List.Forall₂ Lists (bodies items) input.layout := by
  unfold parseStatechart at h
  obtain ⟨p, hp, h⟩ := Except.bind_eq_ok.mp h
  cases h
  obtain ⟨cs, hparses, hcs⟩ := parseItems_parses items hp
  obtain ⟨hn, hchildren⟩ := hparses.fresh
  rw [StatechartInput.layout_eq]
  simp only [hchildren]
  exact .cons hn (hcs 0 1)

end Hsmc
