import Hsmc.Link.Reach

/-
  Run to completion: every journal is a word of the grammar.

  `journal_grammar`: a machine that was never stepped has journaled nothing, one that runs has
  journaled its start-up and complete units, and a terminated one has a terminate unit after
  them and nothing else.
-/

open Computability

namespace Hsmc

open Machine

variable {Ev Ctx Val : Type} {qn tn : Nat} {c : Chart} {u : UserCode Ev Ctx Val}

/-- What a machine has journaled, by where it is in its life. -/
structure Grammatical (c : Chart) (m : Machine Ev Ctx qn tn) : Prop where
  fresh : m.terminated = false → m.current = none → m.journal = []
  running : m.terminated = false → m.current.isSome → m.journal ∈ runningWords c.chartHash
  terminated : m.terminated = true → m.journal ∈ runningWords c.chartHash * terminateUnit

theorem grammatical_of_running {m : Machine Ev Ctx qn tn} (ht : m.terminated = false)
    (hcur : m.current.isSome) (hj : m.journal ∈ runningWords c.chartHash) : Grammatical c m where
  fresh _ h := by rw [h] at hcur; cases hcur
  running _ _ := hj
  terminated h := by rw [ht] at h; cases h

/-- One more unit. -/
theorem runningWords_append {hash : Nat} {j j' : List TraceEvent} (hj : j ∈ runningWords hash)
    (h : Appends (timerUnit + eventUnit) j j') : j' ∈ runningWords hash := by
  have := Appends.mem_mul hj h
  unfold runningWords at this ⊢
  have hle : startWords hash * (timerUnit + eventUnit)∗ * (timerUnit + eventUnit) ≤
      startWords hash * (timerUnit + eventUnit)∗ := by
    rw [mul_assoc]
    exact mul_le_mul_right kstar_mul_le_kstar _
  exact hle this

theorem startWords_le (hash : Nat) : startWords hash ≤ runningWords hash := by
  intro w hw
  have := Language.append_mem_mul hw (Language.nil_mem_kstar (timerUnit + eventUnit))
  rwa [List.append_nil] at this

theorem StepSpec.grammatical {m m' : Machine Ev Ctx qn tn} {elapsed : Nat}
    (hs : StepSpec c u m elapsed m') (hg : Grammatical c m) : Grammatical c m' := by
  cases hs.outcome with
  | halted ht he => rw [he]; exact hg
  | started ht hcur ht' hcur' hj =>
      refine grammatical_of_running ht' hcur' (startWords_le _ ?_)
      obtain ⟨w, hw, hj⟩ := hj
      rw [hj, hg.fresh ht hcur]
      exact hw
  | fired s t tt ht hcur hpop hfire ht' hcur' hj =>
      exact grammatical_of_running ht' hcur'
        (runningWords_append (hg.running ht hcur) (hj.mono le_self_add))
  | idle ht hcur hpop hq he =>
      rw [he]
      exact grammatical_of_running (by simpa using ht) (by simpa using hcur)
        (by simpa using hg.running ht hcur)
  | handled ev queue ht hcur hpop hq hterm hhandle ht' hcur' hj =>
      exact grammatical_of_running ht' hcur'
        (runningWords_append (hg.running ht hcur) (hj.mono le_add_self))
  | terminated ev queue ht hcur hpop hq hterm ht' hcur' hq' hj =>
      exact ⟨by simp [ht'], by simp [ht'], fun _ => Appends.mem_mul (hg.running ht hcur) hj⟩

/-- Every journal is a word of the grammar. -/
theorem journal_grammar {input : StatechartInput} (hc : statechartImpl input = .ok c)
    {m : ChartMachine c Ev Ctx qn} (h : Reachable c u m) :
    Grammatical c m ∧ m.journal ∈ 1 + journalWords c.chartHash := by
  obtain ⟨S⟩ := sound hc
  have hg : Grammatical c m := by
    refine (h.runsWith.invariant S (I := Grammatical c) ?_ ?_ ?_).2
    · intro ctx
      exact ⟨fun _ _ => rfl, by simp [Machine.new], by simp [Machine.new]⟩
    · intro m m' hsame hg
      exact ⟨by rw [hsame.terminated, hsame.current, hsame.journal]; exact hg.fresh,
        by rw [hsame.terminated, hsame.current, hsame.journal]; exact hg.running,
        by rw [hsame.terminated, hsame.journal]; exact hg.terminated⟩
    · intro m m' elapsed _ _ hs hg
      exact hs.grammatical hg
  refine ⟨hg, ?_⟩
  unfold journalWords
  cases ht : m.terminated with
  | true =>
      refine Language.mem_one_add ?_
      obtain ⟨w, hw, w', hw', he⟩ := Language.mem_mul.mp (hg.terminated ht)
      rw [← he]
      exact Language.append_mem_mul hw (Language.mem_one_add hw')
  | false =>
      cases hcur : m.current with
      | none =>
          rw [hg.fresh ht hcur]
          exact Language.nil_mem_one_add
      | some s =>
          refine Language.mem_one_add ?_
          have := Language.append_mem_mul (hg.running ht (by rw [hcur]; rfl))
            (Language.nil_mem_one_add (L := terminateUnit))
          rwa [List.append_nil] at this

theorem journal_grammar_lamp :
    Grammatical lampChart lampOn ∧ lampOn.journal ∈ 1 + journalWords lampChart.chartHash :=
  journal_grammar lamp_accepted lampOn_reachable

end Hsmc
