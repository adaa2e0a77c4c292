import Hsmc.Link.Picture
import Hsmc.Safety.Names

/-
  `STATE_CHART` is the picture of the declarations.

  The source renders the arena of states by id; `StatechartInput.picture` follows the tree of
  the declarations. Each state is drawn once, in the order of the text, under its parent.
-/

namespace Hsmc

/-- Rendering the states of a chart with distinct names, by their ids, ends, indexes nothing out
    of range and gives the picture of the declarations. -/
theorem chart_pictured {input : StatechartInput} {c : Chart} {ir : Ir}
    (ha : Accepted input c ir) (hnd : input.stateNames.Nodup)
    (hact : ir.symbols.actions.length ≤ 65536)
    (hdur : ir.symbols.durationTriggers.length ≤ 65536) :
    emitStateChartString ir = .ok input.picture := by
  have hpos : 0 < c.nStates := by
    rw [(generate_spec ha.generated).nStates]
    exact ha.laid.pos
  obtain ⟨p, s, hp, hs, -, hr⟩ := ha.placed hpos
  have hroot : p = ⟨none, input.root⟩ := by
    rw [input.layout_eq] at hp
    exact (Option.some.inj hp).symm
  obtain ⟨s', hs', hkids⟩ := ha.offspring.exists_of_getElem? (i := 0) (a := (p, 0))
    (by rw [List.getElem?_zipIdx, hp]; rfl)
  rw [hs] at hs'
  cases hs'
  subst hroot
  have hplanted : PlantedAll input.layout 1 input.children :=
    ⟨0, [⟨none, input.root⟩], [], by rw [input.layout_eq, List.append_nil]; rfl, rfl⟩
  have hlen : (collectChildNames input.children).length ≤ ir.states.length := by
    rw [← ha.laid.states.length_eq, input.layout_eq, List.length_cons, ← map_name_placeAll,
      List.length_map]
    exact Nat.le_succ _
  obtain ⟨parts, hparts, hjoin⟩ := renderAll_picture ha hnd hact hdur input.children "" s
    input.body.defaultChild 0 hplanted hlen (by rw [hr.children, Nat.zero_add]; rfl)
    (fun hi => ha.default_iff hnd hr hi)
  have hkids : s.children = childIds 1 input.children := hkids
  unfold emitStateChartString renderChildren StatechartInput.picture
  rw [elementAt_eq_ok hs, Except.ok_bind_eq, hkids, hparts, Except.ok_bind_eq, Except.ok_bind_eq,
    hjoin, ha.laid.name]

theorem chart_pictured_lamp : emitStateChartString lampIr = .ok lamp.picture :=
  chart_pictured lamp_resolved (by decide) (by decide +kernel) (by decide +kernel)

example : lamp.picture =
    "Lamp\n├── [default] Off\n│   • on(Toggle) → On\n└── On\n    • entry: " ++
      "count\n    • on(Toggle) → Off\n    • on(after Duration) → Off\n" := by
  decide +kernel

end Hsmc
