import Hsmc.Link.Sound
import Hsmc.Macros.Asserts

/-
  What the checks on the emitted tables decide, and that every accepted chart passes them.

  * `TablesSound`: the predicate both checks stand for; `constAsserts_iff` and
    `checkPathTablesSound_iff` say so.
  * `Chart.Checked`: the facts every `get_unchecked` of the generated code relies on, the ones
    rustc establishes by the declared lengths of the tables included. Every chart that the macro
    accepts is checked.
-/

namespace Hsmc

/-! ## The predicate -/

/-- Ranges that lie in their blobs, and state ids below `n`. -/
structure TablesSound (pathRange : List (Nat × Nat × Nat)) (pathData : List Nat)
    (terminateRange : List (Nat × Nat)) (terminateData : List Nat)
    (defaultChild : List (Option Nat)) (n : Nat) : Prop where
  path_range : ∀ r ∈ pathRange, r.1 ≤ r.2.1 ∧ r.2.1 ≤ r.2.2 ∧ r.2.2 ≤ pathData.length
  terminate_range : ∀ r ∈ terminateRange, r.1 ≤ r.2 ∧ r.2 ≤ terminateData.length
  path_id : ∀ id ∈ pathData, id < n
  terminate_id : ∀ id ∈ terminateData, id < n
  default_id : ∀ d ∈ defaultChild, ∀ t, d = some t → t < n

theorem constAssert_eq_ok {cond : Bool} {msg : String} :
    constAssert cond msg = .ok () ↔ cond = true := by
  unfold constAssert
  cases cond <;> simp

theorem constAsserts_iff (c : Chart) : constAsserts c = .ok () ↔
    TablesSound c.pathRange c.pathData c.terminateRange c.terminateData c.defaultChild
      c.defaultChild.length := by
  unfold constAsserts
  simp only [Except.check_bind_eq_ok, Except.forM_eq_ok, constAssert_eq_ok, decide_eq_true_eq]
  constructor
  · rintro ⟨hpath, hterm, hdef, hpd, htd⟩
    refine ⟨hpath, hterm, hpd, htd, ?_⟩
    rintro d hd t rfl
    have := hdef _ hd
    simpa [constAssert_eq_ok] using this
  · rintro ⟨hpath, hterm, hpd, htd, hdef⟩
    refine ⟨hpath, hterm, ?_, hpd, htd⟩
    intro d hd
    cases d with
    | none => rfl
    | some t => simpa [constAssert_eq_ok] using hdef _ hd t rfl

theorem checkPathRangeInvariant_iff {dataLen : Nat} : ∀ {range : List (Nat × Nat × Nat)},
    checkPathRangeInvariant dataLen range = true ↔
      ∀ r ∈ range, r.1 ≤ r.2.1 ∧ r.2.1 ≤ r.2.2 ∧ r.2.2 ≤ dataLen
  | [] => by simp [checkPathRangeInvariant]
  | (s, m, e) :: range => by
      simp [checkPathRangeInvariant, @checkPathRangeInvariant_iff dataLen range, and_assoc]

theorem checkTerminateRangeInvariant_iff {dataLen : Nat} : ∀ {range : List (Nat × Nat)},
    checkTerminateRangeInvariant dataLen range = true ↔ ∀ r ∈ range, r.1 ≤ r.2 ∧ r.2 ≤ dataLen
  | [] => by simp [checkTerminateRangeInvariant]
  | (s, e) :: range => by
      simp [checkTerminateRangeInvariant, @checkTerminateRangeInvariant_iff dataLen range]

theorem checkStateIdsInBounds_iff {n : Nat} : ∀ {data : List Nat},
    checkStateIdsInBounds n data = true ↔ ∀ id ∈ data, id < n
  | [] => by simp [checkStateIdsInBounds]
  | id :: data => by simp [checkStateIdsInBounds, @checkStateIdsInBounds_iff n data]

theorem checkDefaultChildInBounds_iff {n : Nat} : ∀ {defaultChild : List (Option Nat)},
    checkDefaultChildInBounds n defaultChild = true ↔
      ∀ d ∈ defaultChild, ∀ t, d = some t → t < n
  | [] => by simp [checkDefaultChildInBounds]
  | none :: defaultChild => by
      simp [checkDefaultChildInBounds, @checkDefaultChildInBounds_iff n defaultChild]
  | some t :: defaultChild => by
      simp [checkDefaultChildInBounds, @checkDefaultChildInBounds_iff n defaultChild]

theorem checkPathTablesSound_iff {pathRange : List (Nat × Nat × Nat)} {pathData : List Nat}
    {terminateRange : List (Nat × Nat)} {terminateData : List Nat}
    {defaultChild : List (Option Nat)} {n : Nat} :
    checkPathTablesSound pathRange pathData terminateRange terminateData defaultChild n = true ↔
      TablesSound pathRange pathData terminateRange terminateData defaultChild n := by
  unfold checkPathTablesSound
  rw [Bool.and_eq_true, Bool.and_eq_true, Bool.and_eq_true, Bool.and_eq_true,
    checkPathRangeInvariant_iff, checkTerminateRangeInvariant_iff, checkStateIdsInBounds_iff,
    checkStateIdsInBounds_iff, checkDefaultChildInBounds_iff]
  exact ⟨fun ⟨⟨⟨⟨h₁, h₂⟩, h₃⟩, h₄⟩, h₅⟩ => ⟨h₁, h₂, h₃, h₄, h₅⟩,
    fun ⟨h₁, h₂, h₃, h₄, h₅⟩ => ⟨⟨⟨⟨h₁, h₂⟩, h₃⟩, h₄⟩, h₅⟩⟩

/-! ## The path tables of any state tree pass -/

variable {states : List StateIr}

theorem computeOne_lt (T : StateTree states) (hshallow : T.Shallow) {src dst : Nat}
    (hs : src < states.length) (hd : dst < states.length) {ep np : List Nat}
    (h : computeOne states src dst = .ok (ep, np)) :
    (∀ x ∈ ep, x < states.length) ∧ ∀ x ∈ np, x < states.length := by
  rw [computeOne_eq T hshallow hs hd] at h
  cases h
  refine ⟨fun x hx => T.up_lt hs (T.tree.mem_up_of_mem_segment hx), fun x hx => ?_⟩
  exact T.up_lt hd (T.tree.mem_up_of_mem_segment (List.mem_reverse.mp hx))

/-- Both blobs hold state ids. -/
def BlobsLt (n : Nat) (t : TransitionPathTables) : Prop :=
  (∀ x ∈ t.exitData, x < n) ∧ ∀ x ∈ t.enterData, x < n

theorem pushPair_blobs (T : StateTree states) (hshallow : T.Shallow) {pair : Nat × Nat}
    (hs : pair.1 < states.length) (hd : pair.2 < states.length) {t t' : TransitionPathTables}
    (ht : BlobsLt states.length t) (h : pushPair states t pair = .ok t') :
    BlobsLt states.length t' := by
  unfold pushPair at h
  obtain ⟨⟨ep, np⟩, hone, h⟩ := Except.bind_eq_ok.mp h
  obtain ⟨estart, -, h⟩ := Except.bind_eq_ok.mp h
  obtain ⟨eend, -, h⟩ := Except.bind_eq_ok.mp h
  obtain ⟨nstart, -, h⟩ := Except.bind_eq_ok.mp h
  obtain ⟨nend, -, h⟩ := Except.bind_eq_ok.mp h
  cases h
  obtain ⟨hep, hnp⟩ := computeOne_lt T hshallow hs hd hone
  exact ⟨List.forall_mem_append.mpr ⟨ht.1, hep⟩, List.forall_mem_append.mpr ⟨ht.2, hnp⟩⟩

theorem mem_pairsOf {n : Nat} {pair : Nat × Nat} (h : pair ∈ pairsOf n) :
    pair.1 < n ∧ pair.2 < n := by
  have := asU16_le n
  simp only [pairsOf, List.mem_flatMap, List.mem_map, List.mem_range] at h
  obtain ⟨src, hs, dst, hd, rfl⟩ := h
  exact ⟨by omega, by omega⟩

theorem mem_of_sliceOf {data seg : List Nat} {s e x : Nat} (h : sliceOf data s e = .ok seg)
    (hx : x ∈ seg) : x ∈ data := by
  have hsl := sliceOf_eq_ok.mp h
  rw [← hsl.eq] at hx
  exact List.mem_of_mem_drop (List.mem_of_mem_take hx)

theorem foldPair_ids {n : Nat} {t : TransitionPathTables} (ht : BlobsLt n t)
    {r : (Nat × Nat) × (Nat × Nat)} {acc acc' : List Nat × List (Nat × Nat × Nat)}
    (hacc : ∀ x ∈ acc.1, x < n) (h : foldPair t acc r = .ok acc') : ∀ x ∈ acc'.1, x < n := by
  unfold foldPair at h
  obtain ⟨start, -, h⟩ := Except.bind_eq_ok.mp h
  obtain ⟨exits, hexits, h⟩ := Except.bind_eq_ok.mp h
  obtain ⟨mid, -, h⟩ := Except.bind_eq_ok.mp h
  obtain ⟨enters, henters, h⟩ := Except.bind_eq_ok.mp h
  obtain ⟨stop, -, h⟩ := Except.bind_eq_ok.mp h
  cases h
  refine List.forall_mem_append.mpr ⟨List.forall_mem_append.mpr ⟨hacc, ?_⟩, ?_⟩
  · exact fun x hx => ht.1 x (mem_of_sliceOf hexits hx)
  · exact fun x hx => ht.2 x (mem_of_sliceOf henters hx)

theorem pathTables_ids (T : StateTree states) {data : List Nat} {range : List (Nat × Nat × Nat)}
    (h : pathTables states = .ok (data, range)) : ∀ x ∈ data, x < states.length := by
  have hn := length_le_of_pathTables h
  have hshallow := T.shallow_of_length (by omega)
  unfold pathTables at h
  obtain ⟨t, ht, h⟩ := Except.bind_eq_ok.mp h
  obtain ⟨⟨data', range'⟩, hfold, h⟩ := Except.bind_eq_ok.mp h
  obtain ⟨range'', -, h⟩ := Except.bind_eq_ok.mp h
  cases h
  have hblobs : BlobsLt states.length t := by
    refine Except.foldlM_induction (P := BlobsLt states.length) ?_ ⟨by simp, by simp⟩ ht
    intro pair hpair b b' hb hpush
    exact pushPair_blobs T hshallow (mem_pairsOf hpair).1 (mem_pairsOf hpair).2 hb hpush
  exact Except.foldlM_induction (P := fun acc : List Nat × List (Nat × Nat × Nat) =>
    ∀ x ∈ acc.1, x < states.length) (fun _ _ _ _ => foldPair_ids hblobs) (by simp) hfold

theorem pathTables_ranges {data : List Nat} {range : List (Nat × Nat × Nat)}
    (h : pathTables states = .ok (data, range)) :
    ∀ r ∈ range, r.1 ≤ r.2.1 ∧ r.2.1 ≤ r.2.2 ∧ r.2.2 ≤ data.length := by
  intro r hr
  obtain ⟨pair, -, ep, np, -, hexit, henter⟩ := (pathTables_forall₂ h).1.exists_of_mem_right hr
  exact ⟨hexit.le, henter.le, henter.le_length⟩

/-! ## So do the terminate tables -/

theorem computeTerminatePaths_done {data : List Nat} {range : List (Nat × Nat)}
    (h : computeTerminatePaths states = .ok (data, range)) :
    WalksDone states (List.range (asU16 states.length)) (data, range) := by
  have hnil : WalksDone states [] ([], []) := List.Forall₂.nil
  exact Except.foldlM_run (P := WalksDone states) (fun _ _ _ _ => pushTerminate_spec) hnil h

theorem pushTerminate_ids (T : StateTree states) {src : Nat} (hs : src < states.length)
    {acc acc' : List Nat × List (Nat × Nat)} (hacc : ∀ x ∈ acc.1, x < states.length)
    (h : pushTerminate states acc src = .ok acc') : ∀ x ∈ acc'.1, x < states.length := by
  unfold pushTerminate at h
  obtain ⟨start, -, h⟩ := Except.bind_eq_ok.mp h
  obtain ⟨path, hpath, h⟩ := Except.bind_eq_ok.mp h
  obtain ⟨stop, -, h⟩ := Except.bind_eq_ok.mp h
  cases h
  have hlev := T.level_lt hs
  rw [T.walkToRoot_eq _ _ (by omega)] at hpath
  cases hpath
  exact List.forall_mem_append.mpr ⟨hacc, fun x hx => T.up_lt hs hx⟩

theorem terminatePaths_ids (T : StateTree states) {data : List Nat} {range : List (Nat × Nat)}
    (h : computeTerminatePaths states = .ok (data, range)) : ∀ x ∈ data, x < states.length := by
  refine Except.foldlM_induction (P := fun acc : List Nat × List (Nat × Nat) =>
    ∀ x ∈ acc.1, x < states.length) ?_ (by simp) h
  intro src hsrc b b' hb hpush
  have := asU16_le states.length
  exact pushTerminate_ids T (by have := List.mem_range.mp hsrc; omega) hb hpush

theorem terminatePaths_ranges {data : List Nat} {range : List (Nat × Nat)}
    (h : computeTerminatePaths states = .ok (data, range)) :
    ∀ r ∈ range, r.1 ≤ r.2 ∧ r.2 ≤ data.length := by
  intro r hr
  obtain ⟨s, -, path, -, hsl⟩ := (computeTerminatePaths_done h).exists_of_mem_right hr
  exact ⟨hsl.le, hsl.le_length⟩

/-! ## A checked chart -/

/-- What the generated code's table accesses rely on: the assertions of the const block, the
    declared lengths of the arrays, and the state ids and event ids that the assertions do not
    look at. -/
structure Chart.Checked (c : Chart) : Prop where
  asserts : constAsserts c = .ok ()
  nStates_pos : 0 < c.nStates
  pathRange_length : c.pathRange.length = c.nStates * c.nStates
  terminateRange_length : c.terminateRange.length = c.nStates
  defaultChild_length : c.defaultChild.length = c.nStates
  dispatch_length : c.dispatch.length = c.nStates * c.nEvents
  dispatch_target : ∀ entry ∈ c.dispatch, ∀ t, entry.2.2 = some t → t < c.nStates
  timer_target : ∀ {s v g t}, c.handlerLookup s 1 v = some g → g.2 = some t → t < c.nStates
  eventId_lt : ∀ {name v}, c.eventVariantArms.lookup name = some v → v < c.nEvents

theorem Chart.Checked.tables {c : Chart} (hc : c.Checked) :
    TablesSound c.pathRange c.pathData c.terminateRange c.terminateData c.defaultChild
      c.nStates := by
  rw [← hc.defaultChild_length]
  exact (constAsserts_iff c).mp hc.asserts

section

variable {input : StatechartInput} {ir : Ir} {c : Chart}

theorem Accepted.tablesSound (ha : Accepted input c ir) :
    TablesSound c.pathRange c.pathData c.terminateRange c.terminateData c.defaultChild
      c.nStates := by
  have g := generate_spec ha.generated
  have T := ha.wf.tree.stateTree ha.wf.nonempty
  rw [g.nStates]
  refine ⟨pathTables_ranges g.paths, terminatePaths_ranges g.terminate,
    pathTables_ids T g.paths, terminatePaths_ids T g.terminate, ?_⟩
  rintro d hd t rfl
  rw [g.defaultChild] at hd
  obtain ⟨x, hx, he⟩ := List.mem_map.mp hd
  exact ha.wf.default_lt x hx t he

/-- The targets in the dispatch table are those of the handlers. -/
theorem Chart.Sound.dispatch_target (S : c.Sound) {entry : Nat × List Nat × Option Nat} {t : Nat}
    (h : entry ∈ c.dispatch) (ht : entry.2.2 = some t) : t < c.nStates := by
  obtain ⟨i, hi, he⟩ := List.mem_iff_getElem.mp h
  rw [S.dispatch_length] at hi
  have hpos : 0 < c.nEvents := Nat.pos_of_ne_zero (by rintro h0; simp [h0] at hi)
  have hs : i / c.nEvents < c.nStates := Nat.div_lt_of_lt_mul (by rwa [Nat.mul_comm] at hi)
  have hget := S.dispatch_get hs (Nat.mod_lt i hpos)
  rw [Nat.div_add_mod', List.getElem?_eq_getElem (by rwa [S.dispatch_length]), he,
    Option.some.injEq] at hget
  cases hf : (S.tree.up (i / c.nEvents)).findSome? fun h =>
      (c.handlerLookup h 0 (i % c.nEvents)).map fun g => (h, g.1, g.2) with
  | none =>
      rw [hf] at hget
      subst hget
      cases ht
  | some found =>
      rw [hf] at hget
      obtain ⟨x, -, hx⟩ := List.exists_of_findSome?_eq_some hf
      obtain ⟨g, hg, rfl⟩ := Option.map_eq_some_iff.mp hx
      subst hget
      exact S.handler_target_lt hg ht

theorem Accepted.tables_checked (ha : Accepted input c ir) : c.Checked := by
  have g := generate_spec ha.generated
  have S := ha.sound
  have hn := ha.nStates_le
  have hdefault : c.defaultChild.length = c.nStates := by
    rw [g.defaultChild, List.length_map, g.nStates]
  exact {
    asserts := (constAsserts_iff c).mpr (by rw [hdefault]; exact ha.tablesSound)
    nStates_pos := S.nStates_pos
    pathRange_length := by
      obtain ⟨-, -, -, hlen⟩ := pathTables_forall₂ g.paths
      rw [hlen, g.nStates]
    terminateRange_length := by
      have hlen := (computeTerminatePaths_done g.terminate).length_eq
      rw [List.length_range, asU16_of_lt (by omega)] at hlen
      rw [← hlen, g.nStates]
    defaultChild_length := hdefault
    dispatch_length := S.dispatch_length
    dispatch_target := fun _ h _ ht => S.dispatch_target h ht
    timer_target := S.handler_target_lt
    eventId_lt := S.eventId_lt }

theorem checked_of_statechartImpl (h : statechartImpl input = .ok c) : c.Checked := by
  obtain ⟨ir, ha⟩ := accepted_of_statechartImpl h
  exact ha.tables_checked

end

end Hsmc
