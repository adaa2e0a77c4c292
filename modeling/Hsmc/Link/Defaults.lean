import Hsmc.Lib.Trail
import Hsmc.Link.Build

/-
  The colour walk of `validateDefaultGraph` decides whether the default graph has a cycle.

  * `walkDefaults_spec`: when the inner walk returns, every node on its chain ends.
  * `ends_of_validateDefaultGraph`: when the check passes, the default chain of every state ends.
  * `walkDefaults_error`: when the inner walk fails, it names a cycle.
  * `validateDefaultGraph_decides`: the check fails exactly for a cyclic graph, with a message
    that names a cycle.
-/

namespace Hsmc

/-- Between two turns of the outer loop: no node is gray, and the chain of a black one ends. -/
def Settled (states : List StateIr) (color : List Color) : Prop :=
  ∀ i : Nat, (color[i]? = some .gray → False) ∧
    (color[i]? = some .black → Ends (defaultChildOf states) i)

/-- What `walkDefaults` returns: the chain grows by nodes whose chains end, and these are the
    nodes it colours. -/
theorem walkDefaults_spec {states : List StateIr} : ∀ (fuel : Nat) {color color' : List Color}
    {chain chain' : List Nat} {cur : Nat},
    walkDefaults states fuel color chain cur = .ok (color', chain') →
    (∀ i : Nat, color[i]? = some .black → Ends (defaultChildOf states) i) →
    ∃ new, chain' = chain ++ new ∧ Ends (defaultChildOf states) cur ∧
      (∀ x ∈ new, Ends (defaultChildOf states) x) ∧ color'.length = color.length ∧
      (∀ i, i ∉ new → color'[i]? = color[i]?) ∧
      (color[cur]? = some .white → cur ∈ new)
  | 0, _, _, _, _, _, h, _ => by cases h
  | fuel + 1, color, color', chain, chain', cur, h, hblack => by
      unfold walkDefaults at h
      split at h
      · cases h
      · rename_i hcur
        cases h
        exact ⟨[], by simp, hblack cur hcur, by simp, rfl, by simp, by simp [hcur]⟩
      · cases h
      · simp only at h
        split at h
        · rename_i hcur next hnext
          have hblack' : ∀ i, (color.set cur .gray)[i]? = some .black →
              Ends (defaultChildOf states) i := by
            intro i hi
            rw [List.getElem?_set] at hi
            split at hi
            · split at hi <;> simp at hi
            · exact hblack i hi
          obtain ⟨new, hchain, hends, hnew, hlen, hcolor, -⟩ := walkDefaults_spec fuel h hblack'
          have hcurEnds : Ends (defaultChildOf states) cur := .of_some hnext hends
          refine ⟨cur :: new, by simp [hchain], hcurEnds, ?_, by simpa using hlen, ?_, by simp⟩
          · intro x hx
            rcases List.mem_cons.mp hx with rfl | hx
            · exact hcurEnds
            · exact hnew x hx
          · intro i hi
            rw [List.mem_cons, not_or] at hi
            rw [hcolor i hi.2, List.getElem?_set_ne (Ne.symm hi.1)]
        · rename_i hcur hnext
          cases h
          have hcurEnds : Ends (defaultChildOf states) cur := .of_none hnext
          refine ⟨[cur], rfl, hcurEnds, by simpa using hcurEnds, by simp, ?_, by simp⟩
          intro i hi
          rw [List.mem_singleton] at hi
          rw [List.getElem?_set_ne (Ne.symm hi)]

/-- What the outer loop does with the chain of a finished walk. -/
def blacken (color : List Color) (chain : List Nat) : List Color :=
  chain.foldl (fun color id => color.set id .black) color

@[simp] theorem length_blacken (color : List Color) (chain : List Nat) :
    (blacken color chain).length = color.length := by
  unfold blacken
  induction chain generalizing color with
  | nil => rfl
  | cons x chain ih => rw [List.foldl_cons, ih, List.length_set]

theorem getElem?_blacken {color : List Color} (chain : List Nat) (i : Nat) :
    (blacken color chain)[i]? =
      if i ∈ chain ∧ i < color.length then some Color.black else color[i]? := by
  unfold blacken
  induction chain generalizing color with
  | nil => simp
  | cons x chain ih =>
      rw [List.foldl_cons, ih, List.length_set]
      by_cases hi : i < color.length
      · by_cases hx : x = i
        · subst hx
          simp [hi]
        · have hx' : i ≠ x := Ne.symm hx
          simp [hi, hx, hx']
      · simp [hi]

/-- One turn of the outer loop keeps the colours settled and leaves its start black. -/
theorem colorFrom_spec {states : List StateIr} {color color' : List Color} {start : Nat}
    (hs : Settled states color) (h : colorFrom states color start = .ok color') :
    Settled states color' ∧ color'.length = color.length ∧
      (∀ i : Nat, color[i]? = some .black → color'[i]? = some .black) ∧
      (start < color.length → color'[start]? = some .black) := by
  unfold colorFrom at h
  split at h
  · rename_i hwhite
    rw [Except.bind_eq_ok] at h
    obtain ⟨⟨color₁, chain⟩, hw, h⟩ := h
    cases h
    obtain ⟨new, hchain, -, hnew, hlen, hcolor, hstart⟩ :=
      walkDefaults_spec _ hw (fun i => (hs i).2)
    rw [List.nil_append] at hchain
    subst hchain
    change _ ∧ (blacken color₁ chain).length = _ ∧ _ ∧ _
    have hget : ∀ i, (blacken color₁ chain)[i]? =
        if i ∈ chain ∧ i < color.length then some Color.black else color[i]? := by
      intro i
      rw [getElem?_blacken, hlen]
      by_cases hi : i ∈ chain
      · by_cases hi' : i < color.length
        · simp [hi, hi']
        · simp [hi', hlen]
      · simp [hi, hcolor i hi]
    refine ⟨?_, by rw [length_blacken, hlen], ?_, ?_⟩
    · intro i
      change ((blacken color₁ chain)[i]? = _ → _) ∧ ((blacken color₁ chain)[i]? = _ → _)
      rw [hget]
      by_cases hi : i ∈ chain ∧ i < color.length
      · rw [if_pos hi]
        exact ⟨by simp, fun _ => hnew i hi.1⟩
      · rw [if_neg hi]
        exact hs i
    · intro i hi
      change (blacken color₁ chain)[i]? = _
      rw [hget]
      split
      · rfl
      · exact hi
    · intro hlt
      change (blacken color₁ chain)[start]? = _
      rw [hget, if_pos ⟨hstart hwhite, hlt⟩]
  · rename_i hwhite
    cases h
    refine ⟨hs, rfl, fun _ h => h, ?_⟩
    intro hlt
    obtain ⟨col, hcol⟩ : ∃ col, color[start]? = some col := ⟨_, List.getElem?_eq_getElem hlt⟩
    cases col with
    | white => exact absurd hcol hwhite
    | gray => exact absurd hcol (hs start).1
    | black => exact hcol

/-- An accepted default graph has no cycle: the chain of every state ends. -/
theorem ends_of_validateDefaultGraph {ir : Ir} (h : validateDefaultGraph ir = .ok ()) (s : Nat) :
    Ends (defaultChildOf ir.states) s := by
  unfold validateDefaultGraph at h
  simp only at h
  rw [Except.bind_eq_ok] at h
  obtain ⟨color, h, -⟩ := h
  have hs₀ : Settled ir.states (List.replicate ir.states.length Color.white) := by
    intro i
    constructor <;> intro hi <;> simp [List.getElem?_replicate] at hi
  have hfinal := Except.foldlM_induction
    (P := fun color => Settled ir.states color ∧ color.length = ir.states.length)
    (fun a _ b b' hb h => ⟨(colorFrom_spec hb.1 h).1, (colorFrom_spec hb.1 h).2.1.trans hb.2⟩)
    ⟨hs₀, List.length_replicate⟩ h
  rcases Nat.lt_or_ge s ir.states.length with hlt | hge
  · refine (hfinal.1 s).2 ?_
    exact Except.foldlM_forall
      (P := fun color => Settled ir.states color ∧ color.length = ir.states.length)
      (Q := fun i color => i < ir.states.length → color[i]? = some .black)
      (fun a b b' hb h => ⟨(colorFrom_spec hb.1 h).1, (colorFrom_spec hb.1 h).2.1.trans hb.2⟩)
      (fun a b b' hb h hlt => (colorFrom_spec hb.1 h).2.2.2 (by rw [hb.2]; exact hlt))
      (fun x a b b' hb hx h hlt => (colorFrom_spec hb.1 h).2.2.1 x (hx hlt))
      ⟨hs₀, List.length_replicate⟩ h s (List.mem_range.mpr hlt) hlt
  · exact .of_none (by simp [defaultChildOf, hge])

/-! ## The message -/

/-- The message for a cycle. -/
def cycleText (states : List StateIr) (l : List Nat) : String :=
  let cycle := l.map (stateNameOf states)
  let pretty := " -> ".intercalate cycle ++ " -> " ++ cycle.headD ""
  s!"default-transition cycle detected: {pretty} (entering any state in this cycle would " ++
    "loop forever before reaching user code)"

/-- No other message of the walk has a `-` there. -/
theorem cycleText_get (states : List StateIr) (l : List Nat) :
    (cycleText states l).toList[7]? = some '-' := by
  have hany : ∀ p q r : String,
      ("default-transition cycle detected: " ++ p ++ q ++ r).toList[7]? = some '-' := by simp
  exact hany _ _ _

/-! ## The walk that fails -/

/-- In the inner walk: its chain leads to `cur` and holds exactly the gray nodes. -/
structure Walking (states : List StateIr) (color : List Color) (chain : List Nat) (cur : Nat) :
    Prop where
  length : color.length = states.length
  links : (chain ++ [cur]).IsChain fun x y => defaultChildOf states x = some y
  nodup : chain.Nodup
  gray : ∀ i : Nat, color[i]? = some .gray ↔ i ∈ chain

namespace Walking

variable {states : List StateIr} {color : List Color} {chain : List Nat} {cur : Nat}

theorem length_le (h : Walking states color chain cur) : chain.length ≤ states.length := by
  have hsub : chain ⊆ List.range states.length := by
    intro x hx
    have := (List.getElem?_eq_some_iff.mp ((h.gray x).mpr hx)).1
    exact List.mem_range.mpr (h.length ▸ this)
  simpa using h.nodup.length_le_of_subset hsub

theorem push {next : Nat} (h : Walking states color chain cur) (hw : color[cur]? = some .white)
    (hnext : defaultChildOf states cur = some next) :
    Walking states (color.set cur .gray) (chain ++ [cur]) next := by
  have hnew : cur ∉ chain := by
    intro hmem
    have := (h.gray cur).mpr hmem
    rw [hw] at this
    cases this
  refine ⟨by rw [List.length_set, h.length], ?_, ?_, fun i => ?_⟩
  · rw [List.append_assoc]
    refine List.isChain_split.mpr ⟨h.links, ?_⟩
    simpa using hnext
  · exact List.nodup_append.mpr ⟨h.nodup, List.nodup_singleton _, by
      simpa using fun a ha (he : a = cur) => hnew (he ▸ ha)⟩
  · have hlt := (List.getElem?_eq_some_iff.mp hw).1
    rw [List.getElem?_set, List.mem_append, List.mem_singleton, ← h.gray i]
    by_cases hi : cur = i
    · subst hi
      simp [hlt]
    · have hi' : i ≠ cur := Ne.symm hi
      simp [hi, hi']

/-- A gray node is on the chain, and from there on the chain is a cycle. -/
theorem cycle (h : Walking states color chain cur) (hg : color[cur]? = some .gray) :
    ∃ l, IsCycle (defaultChildOf states) l ∧
      cycleMessage states chain cur = cycleText states l := by
  have hmem := (h.gray cur).mp hg
  unfold cycleMessage position
  cases hp : chain.findIdx? (fun x => x == cur) with
  | none =>
      have := List.findIdx?_eq_none_iff.mp hp cur hmem
      simp at this
  | some i =>
      obtain ⟨hi, he, -⟩ := List.findIdx?_eq_some_iff_getElem.mp hp
      have hdrop : chain.drop i = cur :: chain.drop (i + 1) := by
        rw [List.drop_eq_getElem_cons hi, eq_of_beq he]
      refine ⟨chain.drop i, ⟨cur, ?_, ?_, ?_⟩, rfl⟩
      · rw [hdrop]
        rfl
      · exact (List.drop_sublist i chain).nodup h.nodup
      · have hsuffix : chain.drop i ++ [cur] <:+ chain ++ [cur] :=
          ⟨chain.take i, by rw [← List.append_assoc, List.take_append_drop]⟩
        exact h.links.suffix hsuffix

end Walking

/-- Within its fuel, the inner walk fails only on a cycle. -/
theorem walkDefaults_error {states : List StateIr}
    (hr : ∀ s t, defaultChildOf states s = some t → t < states.length) :
    ∀ (fuel : Nat) {color : List Color} {chain : List Nat} {cur : Nat} {msg : String},
    Walking states color chain cur → cur < states.length → states.length < fuel + chain.length →
    walkDefaults states fuel color chain cur = .error msg →
    ∃ l, IsCycle (defaultChildOf states) l ∧ msg = cycleText states l
  | 0, _, _, _, _, hw, _, hfuel, _ => by
      have := hw.length_le
      omega
  | fuel + 1, color, chain, cur, msg, hw, hlt, hfuel, h => by
      unfold walkDefaults at h
      split at h
      · rename_i hnone
        rw [List.getElem?_eq_none_iff, hw.length] at hnone
        omega
      · cases h
      · rename_i hgray
        obtain ⟨l, hl, hmsg⟩ := hw.cycle hgray
        cases h
        exact ⟨l, hl, hmsg⟩
      · rename_i hwhite
        simp only at h
        split at h
        · rename_i next hnext
          refine walkDefaults_error hr fuel (hw.push hwhite hnext) (hr cur next hnext) ?_ h
          rw [List.length_append, List.length_singleton]
          omega
        · cases h

theorem validateDefaultGraph_error {ir : Ir}
    (hr : ∀ s t, defaultChildOf ir.states s = some t → t < ir.states.length) {msg : String}
    (h : validateDefaultGraph ir = .error msg) :
    ∃ l, IsCycle (defaultChildOf ir.states) l ∧ msg = cycleText ir.states l := by
  unfold validateDefaultGraph at h
  simp only at h
  cases hf : (List.range ir.states.length).foldlM (colorFrom ir.states)
      (List.replicate ir.states.length Color.white) with
  | ok color =>
      rw [hf] at h
      cases h
  | error e =>
      rw [hf] at h
      cases h
      have hs₀ : Settled ir.states (List.replicate ir.states.length Color.white) := by
        intro i
        constructor <;> intro hi <;> simp [List.getElem?_replicate] at hi
      obtain ⟨start, hstart, color, ⟨hs, hlen⟩, he⟩ := Except.foldlM_error
        (P := fun color => Settled ir.states color ∧ color.length = ir.states.length)
        (fun a b b' hb h => ⟨(colorFrom_spec hb.1 h).1, (colorFrom_spec hb.1 h).2.1.trans hb.2⟩)
        ⟨hs₀, List.length_replicate⟩ hf
      unfold colorFrom at he
      split at he
      · have hwalk : Walking ir.states color [] start :=
          ⟨hlen, List.IsChain.singleton _, List.nodup_nil,
            fun i => ⟨fun h => ((hs i).1 h).elim, by simp⟩⟩
        cases hw : walkDefaults ir.states (ir.states.length + 1) color [] start with
        | ok r =>
            rw [hw] at he
            cases he
        | error e' =>
            rw [hw] at he
            cases he
            exact walkDefaults_error hr _ hwalk (List.mem_range.mp hstart) (by simp) hw
      · cases he

/-- The check terminates and accepts exactly the default graphs without a cycle. When it
    fails, it names the states of a cycle, and it fails in no other way. -/
theorem validateDefaultGraph_decides {ir : Ir}
    (hr : ∀ s t, defaultChildOf ir.states s = some t → t < ir.states.length) :
    (validateDefaultGraph ir = .ok () ↔ ∀ l, ¬ IsCycle (defaultChildOf ir.states) l) ∧
    ∀ msg, validateDefaultGraph ir = .error msg →
      (∃ l, IsCycle (defaultChildOf ir.states) l ∧ msg = cycleText ir.states l) ∧
      msg ∉ ["gray node must be on current chain", "default walk out of fuel",
        "index out of bounds"] := by
  refine ⟨⟨fun h => Ends.not_isCycle (ends_of_validateDefaultGraph h), fun h => ?_⟩, ?_⟩
  · cases hv : validateDefaultGraph ir with
    | ok r => rfl
    | error msg =>
        obtain ⟨l, hl, -⟩ := validateDefaultGraph_error hr hv
        exact absurd hl (h l)
  · intro msg h
    obtain ⟨l, hl, hmsg⟩ := validateDefaultGraph_error hr h
    refine ⟨⟨l, hl, hmsg⟩, fun hmem => ?_⟩
    have hget := cycleText_get ir.states l
    rw [← hmsg] at hget
    simp only [List.mem_cons, List.not_mem_nil, or_false] at hmem
    rcases hmem with rfl | rfl | rfl <;> simp at hget

/-- Two states, each the default of the other. -/
def swingIr : Ir where
  name := "Swing"
  eventsOmitted := false
  terminateEvent := none
  states := [{ id := 0, name := "A", parent := none, depth := 0, defaultChild := some 1 },
    { id := 1, name := "B", parent := none, depth := 0, defaultChild := some 0 }]
  symbols := {}

theorem validateDefaultGraph_decides_swing : validateDefaultGraph swingIr = .ok () ↔
    ∀ l, ¬ IsCycle (defaultChildOf swingIr.states) l := by
  have hr : ∀ s t, defaultChildOf swingIr.states s = some t → t < swingIr.states.length := by
    intro s t h
    match s with
    | 0 => cases h; decide
    | 1 => cases h; decide
    | s + 2 => simp [defaultChildOf, swingIr] at h
  exact (validateDefaultGraph_decides hr).1

end Hsmc
