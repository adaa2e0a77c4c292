import Hsmc.Safety.Armed

/-
  Charts whose timers always find room.

  `StepFits` speaks of one step of one run. `Chart.Roomy` speaks of the chart alone: on every
  path to the root there are at most as many timers as the table has room for. No step of such
  a chart drops a timer (`Core.Run.fit`), so in every run each timer of an active state is live
  until it fires for good (`timers_kept`).
-/

namespace Hsmc

open Machine

variable {Ev Ctx Val : Type} {qn : Nat} {input : StatechartInput} {c : Chart}
  {u : UserCode Ev Ctx Val}

def Chart.Roomy (c : Chart) : Prop :=
  ∀ s < c.nStates, ((c.pathToRoot s).flatMap c.ownedTimers).length ≤ c.maxTimers

instance (c : Chart) : Decidable c.Roomy :=
  inferInstanceAs (Decidable (∀ s < c.nStates, _ ≤ c.maxTimers))

/-- The live timers are no more than those of the active states. -/
theorem Core.TimersOk.length_le {tn : Nat} {a : Core tn} (h : a.TimersOk c) :
    a.timers.keys.length ≤ (a.active.flatMap c.ownedTimers).length := by
  let all := a.active.flatMap fun s => (c.ownedTimers s).map fun t => (s, t)
  have hall : all.length = (a.active.flatMap c.ownedTimers).length := by
    simp [all, List.length_flatMap]
  have hsub : a.timers.keys ⊆ all := fun x hx => by
    obtain ⟨hmem, hown⟩ := h.owned x hx
    exact List.mem_flatMap.mpr ⟨x.1, hmem, List.mem_map_of_mem hown⟩
  rw [← hall]
  exact (List.subperm_of_subset h.nodup hsub).length_le

theorem Core.Step.fits (S : c.Sound) (hroom : c.Roomy) {x : Act} {a b : Core c.maxTimers}
    (h : Core.Step c u x a b) (hn : a.Nested S) (hok : a.TimersOk c) :
    x.fits c a.timers.keys = true := by
  have hb := h.nested hn
  cases h with
  | @enter s st tt j acts _ hs _ =>
      -- the active states with `s` are the path of `s`
      obtain ⟨s', hs', hpath⟩ := hb.resolve_left (List.cons_ne_nil s st)
      have hpath : s :: st = S.tree.up s' := hpath
      obtain ⟨l, hl⟩ := S.tree.up_eq_cons s'
      obtain ⟨rfl, -⟩ := List.cons.inj (hpath.trans hl)
      have htotal := hroom s hs
      have hle := hok.length_le
      rw [S.pathToRoot_eq hs, ← hpath, List.flatMap_cons, List.length_append] at htotal
      simp only [Act.fits, decide_eq_true_eq]
      simp only at hle
      omega
  | leave _ | tick | fire _ => rfl

theorem Core.Run.fit (S : c.Sound) (hroom : c.Roomy) {acts : List Act} {a b : Core c.maxTimers}
    (h : Core.Run c u acts a b) (hn : a.Nested S) (hok : a.TimersOk c) :
    fit c acts a.timers.keys = true := by
  induction h with
  | refl => rfl
  | note _ _ ih => exact ih hn ⟨hok.nodup, hok.owned⟩
  | act hx _ ih =>
      have hfits := hx.fits S hroom hn hok
      unfold Hsmc.fit
      rw [hfits, Bool.true_and, ← fit_perm (hx.keys_perm S hn hok hfits)]
      exact ih (hx.nested hn) (hx.timersOk S hok)

/-- In every run of a roomy chart, every timer of an active state is live unless it is a
    one-shot that has fired since the state was entered. -/
theorem timers_kept (hc : statechartImpl input = .ok c) (hroom : c.Roomy)
    {m : ChartMachine c Ev Ctx qn} (h : Reachable c u m) :
    ∀ s ∈ c.activePath m.current, ∀ t ∈ c.ownedTimers s,
      c.durationRepeats t = true ∨ ¬ FiredSince m.journal s t → (s, t) ∈ m.timers.keys := by
  obtain ⟨S⟩ := sound hc
  have hI := (h.runsWith.invariant S (I := fun m => (m.core c).TimersOk c ∧ (m.core c).Armed c)
    (fun _ => ⟨Core.timersOk_initial, fun _ h => (nomatch h)⟩)
    (fun m m' hsame hI => by rw [hsame.core_eq]; exact hI) ?_).2
  · exact hI.2
  · intro m m' elapsed hv _ hs hI
    have hfit := hs.run.fit S hroom (hv.nested S) hI.1
    exact ⟨hs.timersOk S hI.1, hs.run.armed S (hv.nested S) hI.1 hfit hI.2⟩

theorem timers_kept_lamp : (2, 0) ∈ lampOn.timers.keys :=
  timers_kept lamp_accepted (by decide +kernel) lampOn_reachable 2 (by decide +kernel) 0
    (by decide +kernel) (Or.inr (fun h => absurd h.mem (by decide +kernel)))

end Hsmc
