import Mathlib.Algebra.GroupWithZero.Nat
import Mathlib.Algebra.Order.BigOperators.Group.List
import Hsmc.Link.TimerOps

/-
  Durations that `u64` nanoseconds cannot hold.

  `start` and `decrement` keep the low 64 bits of a duration, so an entry counts down exactly in
  the truncated durations (`countdown`). `timer_on_time_iff` says for which durations that is on
  time.
-/

namespace Hsmc

namespace TimerOp

/-- The call neither restarts nor cancels the timer. -/
def Spares (s k : Nat) : TimerOp → Prop
  | .start s' k' _ | .cancelOne s' k' => (s', k') ≠ (s, k)
  | .cancelState s' => s' ≠ s
  | .decrement _ | .popExpired _ => True

/-- The time that a call lets pass. -/
def elapsed : TimerOp → Nat
  | .decrement e => e
  | _ => 0

end TimerOp

/-- The time that passes over some calls, in exact arithmetic. -/
def elapsedIn (ops : List TimerOp) : Nat := (ops.map TimerOp.elapsed).sum

/-- The time that the table sees pass. -/
def truncatedIn (ops : List TimerOp) : Nat := (ops.map fun op => asU64 op.elapsed).sum

namespace TimerTable

variable {n : Nat} {t : TimerTable n} {s k r : Nat}

/-- The timer is popped only once its duration has passed, and when it has passed the timer is
    expired, unless it was popped. -/
def OnTime (t : TimerTable n) (s k d : Nat) (ops : List TimerOp) : Prop :=
  (some (s, k) ∈ ((t.start s k d).applyAll ops).1 → d ≤ elapsedIn ops) ∧
    (d ≤ elapsedIn ops → some (s, k) ∈ ((t.start s k d).applyAll ops).1 ∨
      ⟨s, k, 0⟩ ∈ ((t.start s k d).applyAll ops).2.entries.items)

/-! ## Counting down -/

theorem countdown_apply (hnd : t.keys.Nodup) (he : ⟨s, k, r⟩ ∈ t.entries.items) {op : TimerOp}
    (hop : op.Spares s k) : ((t.apply op).1 = some (s, k) ∧ r = 0) ∨
      ((t.apply op).1 ≠ some (s, k) ∧
        ⟨s, k, r - asU64 op.elapsed⟩ ∈ (t.apply op).2.entries.items) := by
  have h0 : asU64 0 = 0 := rfl
  cases op with
  | start s' k' d =>
      exact .inr ⟨by simp [apply],
        mem_start_of_ne he (by simpa [TimerEntry.key] using hop.symm)⟩
  | cancelState s' => exact .inr ⟨by simp [apply], mem_cancelState.mpr ⟨he, hop.symm⟩⟩
  | cancelOne s' k' => exact .inr ⟨by simp [apply], mem_cancelOne.mpr ⟨he, hop.symm⟩⟩
  | decrement e => exact .inr ⟨by simp [apply], mem_decrement.mpr ⟨_, he, rfl⟩⟩
  | popExpired depth =>
      cases hpop : t.popExpired depth with
      | none =>
          rw [apply_popExpired_none hpop]
          exact .inr ⟨by simp, he⟩
      | some p =>
          obtain ⟨x, t'⟩ := p
          rw [apply_popExpired_some hpop]
          obtain ⟨hx, hmem⟩ := mem_popExpired hnd hpop
          by_cases hkey : x = (s, k)
          · subst hkey
            have heq := eq_of_key hnd he hx rfl
            cases heq
            exact .inl ⟨rfl, rfl⟩
          · exact .inr ⟨by simpa using hkey, (hmem _).mpr ⟨he, Ne.symm hkey⟩⟩

/-- A timer that is left alone counts down by the truncated time, until it is popped. -/
theorem countdown : ∀ (ops : List TimerOp) {t : TimerTable n} {r : Nat}, t.keys.Nodup →
    ⟨s, k, r⟩ ∈ t.entries.items → (∀ op ∈ ops, op.Spares s k) →
    (some (s, k) ∈ (t.applyAll ops).1 ∧ r ≤ truncatedIn ops) ∨
      (some (s, k) ∉ (t.applyAll ops).1 ∧
        ⟨s, k, r - truncatedIn ops⟩ ∈ (t.applyAll ops).2.entries.items)
  | [], t, r, _, he, _ => .inr ⟨by simp [applyAll], he⟩
  | op :: ops, t, r, hnd, he, hops => by
      obtain ⟨hop, hops⟩ := List.forall_mem_cons.mp hops
      have hsum : truncatedIn (op :: ops) = asU64 op.elapsed + truncatedIn ops := by
        simp [truncatedIn]
      rw [applyAll_cons, hsum]
      rcases countdown_apply hnd he hop with ⟨hx, rfl⟩ | ⟨hx, he'⟩
      · exact .inl ⟨by simp [hx], Nat.zero_le _⟩
      · rcases countdown ops (nodup_keys_apply hnd op) he' hops with ⟨hmem, hle⟩ | ⟨hno, hlast⟩
        · exact .inl ⟨List.mem_cons_of_mem _ hmem, by omega⟩
        · refine .inr ⟨?_, by rwa [← Nat.sub_sub]⟩
          rw [List.mem_cons]
          exact fun h => h.elim (fun h => hx h.symm) hno

theorem truncatedIn_le (ops : List TimerOp) : truncatedIn ops ≤ elapsedIn ops := by
  unfold truncatedIn elapsedIn
  exact List.sum_le_sum fun op _ => Nat.mod_le _ _

/-- Where every duration either fits, or truncated is still enough, the truncation does not
    show. -/
theorem le_truncatedIn_iff {d : Nat} {ops : List TimerOp}
    (h : ∀ op ∈ ops, op.elapsed < 2 ^ 64 ∨ d ≤ op.elapsed % 2 ^ 64) :
    d ≤ elapsedIn ops ↔ d ≤ truncatedIn ops := by
  refine ⟨fun hle => ?_, fun hle => hle.trans (truncatedIn_le ops)⟩
  by_cases hbig : ∃ op ∈ ops, d ≤ op.elapsed % 2 ^ 64
  · obtain ⟨op, hop, hd⟩ := hbig
    exact hd.trans (List.single_le_sum (fun _ _ => Nat.zero_le _) _
      (List.mem_map.mpr ⟨op, hop, rfl⟩))
  · have heq : truncatedIn ops = elapsedIn ops := by
      unfold truncatedIn elapsedIn
      congr 1
      refine List.map_congr_left fun op hop => Nat.mod_eq_of_lt ?_
      exact (h op hop).resolve_right fun hd => hbig ⟨op, hop, hd⟩
    rwa [heq]

theorem expired_iff_of_countdown {ops : List TimerOp} (hnd : t.keys.Nodup)
    (he : ⟨s, k, r⟩ ∈ t.entries.items) (hops : ∀ op ∈ ops, op.Spares s k) :
    (some (s, k) ∈ (t.applyAll ops).1 ∨ ⟨s, k, 0⟩ ∈ (t.applyAll ops).2.entries.items) ↔
      r ≤ truncatedIn ops := by
  rcases countdown ops hnd he hops with ⟨hmem, hle⟩ | ⟨hno, hlast⟩
  · exact iff_of_true (.inl hmem) hle
  · refine ⟨fun h => ?_, fun hle => .inr (by rwa [Nat.sub_eq_zero_of_le hle] at hlast)⟩
    have heq := eq_of_key (nodup_keys_applyAll ops hnd) (h.resolve_left hno) hlast rfl
    simp only [TimerEntry.mk.injEq, true_and] at heq
    omega

theorem le_truncatedIn_of_popped {ops : List TimerOp} (hnd : t.keys.Nodup)
    (he : ⟨s, k, r⟩ ∈ t.entries.items) (hops : ∀ op ∈ ops, op.Spares s k)
    (hpop : some (s, k) ∈ (t.applyAll ops).1) : r ≤ truncatedIn ops :=
  (expired_iff_of_countdown hnd he hops).mp (.inl hpop)

/-! ## Popping everything -/

/-- Enough pops leave no expired entry. -/
theorem expired_of_pops (depth : List Nat) : ∀ (j : Nat) {t : TimerTable n},
    t.expired.length ≤ j →
    (t.applyAll (List.replicate j (.popExpired depth))).2.expired = []
  | 0, t, h => List.eq_nil_of_length_eq_zero (Nat.le_zero.mp h)
  | j + 1, t, h => by
      rw [List.replicate_succ, applyAll_cons]
      cases hpop : t.popExpired depth with
      | none =>
          rw [apply_popExpired_none hpop]
          exact expired_of_pops depth j (by simp [popExpired_eq_none_iff.mp hpop])
      | some p =>
          obtain ⟨x, t'⟩ := p
          rw [apply_popExpired_some hpop]
          have hlen := length_expired_popExpired hpop
          exact expired_of_pops depth j (t := t') (by omega)

/-- A timer is popped once its time has passed and the table is popped as often as it has
    places. -/
theorem popped_after (hnd : t.keys.Nodup) (he : ⟨s, k, r⟩ ∈ t.entries.items) (hr : r < 2 ^ 64) :
    some (s, k) ∈ (t.applyAll (.decrement r :: List.replicate n (.popExpired []))).1 := by
  have hspares : ∀ op ∈ TimerOp.decrement r :: List.replicate n (.popExpired []),
      op.Spares s k := by
    intro op hop
    rcases List.mem_cons.mp hop with rfl | hop
    · trivial
    · rw [List.eq_of_mem_replicate hop]
      trivial
  have htrunc : truncatedIn (.decrement r :: List.replicate n (.popExpired [])) = r := by
    have hmod : asU64 r = r := Nat.mod_eq_of_lt hr
    have h0 : asU64 0 = 0 := rfl
    simp [truncatedIn, TimerOp.elapsed, hmod, h0]
  rcases countdown _ hnd he hspares with ⟨hmem, -⟩ | ⟨-, hlast⟩
  · exact hmem
  · have hnone := expired_of_pops [] n (t := t.decrement r)
      ((List.length_filter_le _ _).trans (t.decrement r).entries.length_le)
    have hexp := mem_expired.mpr ⟨hlast, by rw [htrunc, Nat.sub_self]⟩
    rw [applyAll_cons, show (t.apply (.decrement r)).2 = t.decrement r from rfl, hnone] at hexp
    cases hexp

/-- Letting time pass answers nothing and keeps the keys. -/
theorem applyAll_decrements (e : Nat) : ∀ (j : Nat) (t : TimerTable n),
    (t.applyAll (List.replicate j (.decrement e))).1 = List.replicate j none ∧
      (t.applyAll (List.replicate j (.decrement e))).2.keys = t.keys
  | 0, t => ⟨rfl, rfl⟩
  | j + 1, t => by
      obtain ⟨hanswers, hkeys⟩ := applyAll_decrements e j (t.decrement e)
      rw [List.replicate_succ, applyAll_cons]
      exact ⟨congrArg (none :: ·) hanswers, hkeys.trans (keys_decrement t e)⟩

/-! ## The durations that are on time -/

section

variable {d : Nat} {A : Set Nat}

theorem onTime_of_truncated {ops : List TimerOp} (hnd : t.keys.Nodup) (hroom : t.Room s k)
    (hd : d < 2 ^ 64) (hops : ∀ op ∈ ops, op.Spares s k)
    (he : ∀ op ∈ ops, op.elapsed < 2 ^ 64 ∨ d ≤ op.elapsed % 2 ^ 64) : t.OnTime s k d ops := by
  have hnd' := nodup_keys_start hnd s k d
  have hself := mem_start_self (d := d) hroom
  rw [show asU64 d = d from Nat.mod_eq_of_lt hd] at hself
  unfold OnTime
  rw [le_truncatedIn_iff he]
  exact ⟨le_truncatedIn_of_popped hnd' hself hops,
    (expired_iff_of_countdown hnd' hself hops).mpr⟩

/-- A table without a place for the timer never has it. -/
theorem room_of_onTime (h : t.OnTime s k d (List.replicate d (.decrement 1))) : t.Room s k := by
  by_contra hroom
  have hpass : d ≤ elapsedIn (List.replicate d (.decrement 1)) := by
    simp [elapsedIn, TimerOp.elapsed]
  have hlate := h.2 hpass
  rw [start_of_not_room hroom] at hlate
  obtain ⟨hanswers, hkeys⟩ := applyAll_decrements 1 d t
  rw [hanswers] at hlate
  rcases hlate with hmem | hmem
  · exact Option.some_ne_none _ (List.eq_of_mem_replicate hmem)
  · have hkey := key_mem_keys hmem
    rw [hkeys] at hkey
    exact hroom (.inl hkey)

/-- A duration that wraps is over before its time. -/
theorem lt_of_onTime (hnd : t.keys.Nodup) (hroom : t.Room s k)
    (h : t.OnTime s k d (.decrement (asU64 d) :: List.replicate n (.popExpired []))) :
    d < 2 ^ 64 := by
  have hlt : asU64 d < 2 ^ 64 := Nat.mod_lt _ (by decide)
  have helapsed : elapsedIn (.decrement (asU64 d) :: List.replicate n (.popExpired [])) =
      asU64 d := by
    simp [elapsedIn, TimerOp.elapsed]
  have hle := h.1 (popped_after (nodup_keys_start hnd s k d) (mem_start_self hroom) hlt)
  omega

/-- An elapsed time that wraps is not seen to pass. -/
theorem le_of_onTime (hnd : t.keys.Nodup) (hroom : t.Room s k) (hd : d < 2 ^ 64) {e : Nat}
    (h : t.OnTime s k d [.decrement e]) : e < 2 ^ 64 ∨ d ≤ e % 2 ^ 64 := by
  rcases Nat.lt_or_ge e (2 ^ 64) with hlt | hge
  · exact .inl hlt
  · right
    have hself := mem_start_self (d := d) hroom
    have hpass : d ≤ elapsedIn [.decrement e] := by
      simp only [elapsedIn, List.map_cons, List.map_nil, List.sum_singleton, TimerOp.elapsed]
      omega
    have hle := (expired_iff_of_countdown (nodup_keys_start hnd s k d) hself (by
      intro op hop
      rw [List.mem_singleton.mp hop]
      trivial)).mp (h.2 hpass)
    rw [show asU64 d = d from Nat.mod_eq_of_lt hd] at hle
    simpa [truncatedIn, TimerOp.elapsed, asU64] using hle

end

/-- Started for the duration `d`, a timer is on time over all calls that let times from `A` pass
    exactly when there is a place for it, `d` fits, and so does each time in `A` unless what is
    left of it is still at least `d`. -/
theorem timer_on_time_iff (before : List TimerOp) (s k d : Nat) {A : Set Nat}
    (hA : ∀ e, e < 2 ^ 64 → e ∈ A) :
    (∀ ops : List TimerOp, (∀ op ∈ ops, op.Spares s k ∧ op.elapsed ∈ A) →
      ((new : TimerTable n).applyAll before).2.OnTime s k d ops) ↔
    ((new : TimerTable n).applyAll before).2.Room s k ∧ d < 2 ^ 64 ∧
      ∀ e ∈ A, e < 2 ^ 64 ∨ d ≤ e % 2 ^ 64 := by
  have hnd := nodup_keys_applyAll before (nodup_keys_new (n := n))
  generalize ((new : TimerTable n).applyAll before).2 = t at hnd ⊢
  constructor
  · intro h
    have hroom : t.Room s k := room_of_onTime (h _ fun op hop => by
      rw [List.eq_of_mem_replicate hop]
      exact ⟨trivial, hA 1 (by decide)⟩)
    have hd : d < 2 ^ 64 := lt_of_onTime hnd hroom (h _ fun op hop => by
      rcases List.mem_cons.mp hop with rfl | hop
      · exact ⟨trivial, hA _ (Nat.mod_lt _ (by decide))⟩
      · rw [List.eq_of_mem_replicate hop]
        exact ⟨trivial, hA 0 (by decide)⟩)
    refine ⟨hroom, hd, fun e he => le_of_onTime hnd hroom hd (h _ fun op hop => ?_)⟩
    rw [List.mem_singleton.mp hop]
    exact ⟨trivial, he⟩
  · rintro ⟨hroom, hd, he⟩ ops hops
    exact onTime_of_truncated hnd hroom hd (fun op hop => (hops op hop).1)
      fun op hop => he _ (hops op hop).2

theorem timer_on_time_iff_short :
    (new : TimerTable 1).OnTime 0 0 50 [.decrement 30, .start 1 1 5, .decrement 20] := by
  have hall := (timer_on_time_iff (n := 1) [] 0 0 50 (A := {e | e < 2 ^ 64}) fun _ he => he).mpr
    ⟨by decide, by decide, fun _ he => .inl he⟩
  refine hall _ ?_
  simp [TimerOp.Spares, TimerOp.elapsed]

/-- A timer of `2 ^ 64` nanoseconds is over at once, and `2 ^ 64` nanoseconds do not move one
    of 5. -/
theorem timer_wraps : ¬ (new : TimerTable 1).OnTime 0 0 (2 ^ 64) [.popExpired [0]] ∧
    ¬ (new : TimerTable 1).OnTime 0 0 5 [.decrement (2 ^ 64)] := by
  refine ⟨fun h => absurd (h.1 (by decide)) (by decide), fun h => ?_⟩
  exact absurd (h.2 (by decide)) (by decide)

end TimerTable

end Hsmc
