import Hsmc.Lib.Words
import Hsmc.Runtime.Journal

/-
  The grammar of the journal, as languages over `TraceEvent`.

  Each level is bracketed by its own begin and end events: blocks (`enterBlock`, `exitBlock`),
  transitions made of blocks, and units made of handler actions and at most one transition. A
  journal is the start-up, then units, then at most one terminate unit (`journalWords`).
-/

open Computability

namespace Hsmc

/-- The one-letter word. -/
def evt (e : TraceEvent) : Language TraceEvent := {[e]}

theorem mem_evt (e : TraceEvent) : [e] ∈ evt e := Set.mem_singleton _

theorem eq_of_mem_evt {e : TraceEvent} {w : List TraceEvent} (h : w ∈ evt e) : w = [e] :=
  Set.mem_singleton_iff.mp h

/-- What one action emits. -/
def emits : Language TraceEvent := (⨆ v, evt (.emitQueued v) + evt (.emitFailed v))∗

/-- Actions run for state `s`, each with its emits. -/
def actions (s : Nat) (kind : ActionKind) : Language TraceEvent :=
  ((⨆ a, evt (.actionInvoked s a kind)) * emits)∗

def enterBlock (s : Nat) : Language TraceEvent :=
  evt (.enterBegan s) * actions s .entry * (⨆ t, ⨆ ns, evt (.timerArmed s t ns))∗ *
    (⨆ d, evt (.duringStarted s d))∗ * evt (.entered s)

def exitBlock (s : Nat) : Language TraceEvent :=
  evt (.exitBegan s) * (⨆ d, evt (.duringCancelled s d))∗ * (⨆ t, evt (.timerCancelled s t))∗ *
    actions s .exit * evt (.exited s)

def enterBlocks : Language TraceEvent := (⨆ s, enterBlock s)∗

def exitBlocks : Language TraceEvent := (⨆ s, exitBlock s)∗

/-- A complete `default(..)` transition. -/
def defaultTransition : Language TraceEvent :=
  ⨆ src, ⨆ dst, evt (.transitionFired src dst .internal) * exitBlocks * enterBlocks *
    evt (.transitionComplete src dst)

/-- A complete transition of a handler, the default transitions after it included. -/
def transitionWords (reason : TransitionReason) : Language TraceEvent :=
  ⨆ src, ⨆ dst, evt (.transitionFired src dst reason) * (exitBlocks * enterBlocks) *
    defaultTransition∗ * evt (.transitionComplete src dst)

/-- The handler of state `s`: its actions, then at most one transition. -/
def handlerWords (s : Nat) (reason : TransitionReason) : Language TraceEvent :=
  actions s .handler * (1 + transitionWords reason)

def timerUnit : Language TraceEvent :=
  ⨆ s, ⨆ t, evt (.timerFired s t) * (1 + ⨆ ns, evt (.timerArmed s t ns)) *
    handlerWords s (.timer s t)

def eventUnit : Language TraceEvent :=
  ⨆ v, evt (.eventReceived v) *
    (evt (.eventDropped v) + ⨆ h, evt (.eventDelivered h v) * handlerWords h (.event v))

def terminateUnit : Language TraceEvent :=
  ⨆ v, evt (.eventReceived v) * evt (.terminateRequested v) * exitBlocks * evt .terminated

/-- The start-up of a chart with this hash. -/
def startWords (hash : Nat) : Language TraceEvent :=
  evt (.started hash) * enterBlock 0 * defaultTransition∗

/-- What a machine that runs has journaled. -/
def runningWords (hash : Nat) : Language TraceEvent :=
  startWords hash * (timerUnit + eventUnit)∗

/-- What a machine that was started has journaled. -/
def journalWords (hash : Nat) : Language TraceEvent := runningWords hash * (1 + terminateUnit)

/-! ## The letters of a word -/

theorem evt_le_letters {P : TraceEvent → Prop} {e : TraceEvent} (h : P e) :
    evt e ≤ Language.letters P := by
  intro w hw e' he'
  rw [eq_of_mem_evt hw, List.mem_singleton] at he'
  rw [he']
  exact h

theorem forall_mem_emits {w : List TraceEvent} (h : w ∈ emits) :
    ∀ e ∈ w, ∃ v, e = .emitQueued v ∨ e = .emitFailed v := by
  refine Language.forall_mem_kstar ?_ h
  intro w hw e he
  obtain ⟨v, hw⟩ := Language.mem_iSup.mp hw
  rcases hw with hw | hw <;> rw [eq_of_mem_evt hw, List.mem_singleton] at he
  · exact ⟨v, Or.inl he⟩
  · exact ⟨v, Or.inr he⟩

theorem forall_mem_actions {s : Nat} {kind : ActionKind} {w : List TraceEvent}
    (h : w ∈ actions s kind) : ∀ e ∈ w, (∃ a, e = .actionInvoked s a kind) ∨
      ∃ v, e = .emitQueued v ∨ e = .emitFailed v := by
  refine Language.forall_mem_kstar ?_ h
  intro w hw e he
  obtain ⟨w₁, h₁, w₂, h₂, rfl⟩ := Language.mem_mul.mp hw
  rcases List.mem_append.mp he with he | he
  · obtain ⟨a, h₁⟩ := Language.mem_iSup.mp h₁
    rw [eq_of_mem_evt h₁, List.mem_singleton] at he
    exact Or.inl ⟨a, he⟩
  · exact Or.inr (forall_mem_emits h₂ e he)

/-- What the blocks of states are made of. -/
def TraceEvent.inBlock : TraceEvent → Bool
  | .enterBegan _ | .entered _ | .exitBegan _ | .exited _ | .duringStarted .. | .duringCancelled ..
  | .timerArmed .. | .timerCancelled .. | .emitQueued _ | .emitFailed _ => true
  | .actionInvoked _ _ kind => kind ≠ .handler
  | _ => false

/-- The words of such events. -/
def inBlocks : Language TraceEvent := Language.letters fun e => e.inBlock = true

theorem evt_le_inBlocks {e : TraceEvent} (h : e.inBlock = true) : evt e ≤ inBlocks :=
  evt_le_letters h

theorem actions_le_inBlocks (s : Nat) {kind : ActionKind} (hk : kind ≠ .handler) :
    actions s kind ≤ inBlocks := by
  intro w hw e he
  rcases forall_mem_actions hw e he with ⟨a, rfl⟩ | ⟨v, rfl | rfl⟩
  · exact decide_eq_true hk
  · rfl
  · rfl

theorem enterBlock_le_inBlocks (s : Nat) : enterBlock s ≤ inBlocks :=
  Language.mul_le_letters
    (Language.mul_le_letters
      (Language.mul_le_letters
        (Language.mul_le_letters (evt_le_inBlocks rfl) (actions_le_inBlocks s (by decide)))
        (Language.kstar_le_letters (iSup_le fun _ => iSup_le fun _ => evt_le_inBlocks rfl)))
      (Language.kstar_le_letters (iSup_le fun _ => evt_le_inBlocks rfl)))
    (evt_le_inBlocks rfl)

theorem exitBlock_le_inBlocks (s : Nat) : exitBlock s ≤ inBlocks :=
  Language.mul_le_letters
    (Language.mul_le_letters
      (Language.mul_le_letters
        (Language.mul_le_letters (evt_le_inBlocks rfl)
          (Language.kstar_le_letters (iSup_le fun _ => evt_le_inBlocks rfl)))
        (Language.kstar_le_letters (iSup_le fun _ => evt_le_inBlocks rfl)))
      (actions_le_inBlocks s (by decide)))
    (evt_le_inBlocks rfl)

theorem enterBlocks_le_inBlocks : enterBlocks ≤ inBlocks :=
  Language.kstar_le_letters (iSup_le enterBlock_le_inBlocks)

theorem exitBlocks_le_inBlocks : exitBlocks ≤ inBlocks :=
  Language.kstar_le_letters (iSup_le exitBlock_le_inBlocks)

end Hsmc
