/-
Executions of a graph: what holds of them at every point, whatever the order of turns.

The waves of an execution are those of the schedule, by their numbers. Those that are past are over,
and the trace tells how each of their courses ended. An entry of the trace is that of a node of a
wave so far, and the entries stand in the order of the waves. Every execution can be brought to its
end.
-/
import Mathlib.Data.List.Perm.Basic
import Wavefront.Proofs.Graph.Runnable
import Wavefront.Proofs.Run.Log

set_option autoImplicit false

namespace Wavefront

namespace Wave

/-- How the courses of the wave ended, by the ids of their nodes. -/
def outcomes (w : Wave) : List (String × Ending) := w.endings.map fun p => (w.idAt p.1, p.2)

theorem map_fst_outcomes (w : Wave) : w.outcomes.map Prod.fst = w.settled.map w.idAt := by
  rw [outcomes, settled, List.map_map, List.map_map]
  rfl

/-- When note has been taken of every end, the outcomes are those of the nodes of the wave. -/
theorem outcomes_perm {w : Wave} (h : w.settled.Perm (List.range w.ids.length)) :
    (w.outcomes.map Prod.fst).Perm w.ids := by
  have hids : (List.range w.ids.length).map w.idAt = w.ids := by
    refine List.ext_getElem (by rw [List.length_map, List.length_range]) fun i hi hi' => ?_
    rw [List.getElem_map, List.getElem_range, idAt, List.getD_eq_getElem?_getD,
      List.getElem?_eq_getElem hi']
    rfl
  have hperm := h.map w.idAt
  rwa [hids, ← map_fst_outcomes] at hperm

/-- The first error of a wave is the first one among its outcomes. -/
theorem firstError?_eq (w : Wave) :
    w.firstError? = w.outcomes.findSome? fun p => p.2.error? p.1 := by
  rw [firstError?, outcomes, List.findSome?_map]
  rfl

end Wave

/-! ## The invariant -/

namespace Graph

/-- The width of the waves of a run. -/
abbrev width (o : Options) : Nat := max o.settings.concurrency.toNat 1

theorem width_pos (o : Options) : 0 < width o := Nat.lt_of_lt_of_le Nat.one_pos (Nat.le_max_right _ _)

/-- What holds of an execution at every point. -/
structure Traced (g : Graph) (o : Options) (e : Execution) : Prop where
  waves : e.waves = g.schedule.waves.drop e.past.length
  ids : ∀ (k : Nat) (w : Wave), e.allWaves[k]? = some w → w.ids = (g.wave k).map Node.id
  inLine : e.wave.InLine (width o)
  logged : e.wave.Logged o.observer
  settled : ∀ w ∈ e.past, w.settled.Perm (List.range w.ids.length)
  told : ∀ w ∈ e.past, ∀ p ∈ w.outcomes,
    ∃ entry ∈ e.wave.entries, entry.nodeId = p.1 ∧ entry.Tells o.observer p.1 p.2
  known : ∀ id ∈ e.wave.entries.map Entry.nodeId, ∃ k, k ≤ e.past.length ∧ g.InWave id k
  ordered : (e.wave.entries.map Entry.nodeId).Pairwise fun a b =>
    ∃ j k, g.InWave a j ∧ g.InWave b k ∧ j ≤ k

variable {g : Graph} {o : Options} {e : Execution}

/-- The waves of an execution are those that are past and the one that is under way. -/
theorem allWaves_getElem? {k : Nat} {w : Wave} :
    e.allWaves[k]? = some w ↔ e.past[k]? = some w ∨ k = e.past.length ∧ w = e.wave := by
  have hsome : none ≠ some w := (Option.some_ne_none w).symm
  rw [Execution.allWaves]
  rcases Nat.lt_trichotomy k e.past.length with hlt | rfl | hgt
  · rw [List.getElem?_append_left hlt]
    exact ⟨.inl, fun h => h.resolve_right fun hlast => Nat.ne_of_lt hlt hlast.1⟩
  · rw [List.getElem?_concat_length, List.getElem?_eq_none (Nat.le_refl _), Option.some_inj]
    exact ⟨fun h => .inr ⟨rfl, h.symm⟩, fun h => (h.resolve_left hsome).2.symm⟩
  · have hlast : (e.past ++ [e.wave]).length ≤ k := List.length_append ▸ hgt
    rw [List.getElem?_eq_none hlast, List.getElem?_eq_none (Nat.le_of_lt hgt)]
    exact ⟨fun h => absurd h hsome, fun h => absurd (h.resolve_left hsome).1 (Nat.ne_of_gt hgt)⟩

/-- No two nodes of a wave have the same id. -/
theorem nodup_wave (g : Graph) (k : Nat) : ((g.wave k).map Node.id).Nodup := by
  rw [wave, List.getD_eq_getElem?_getD]
  cases hk : ([] :: g.schedule.waves)[k]? with
  | none => exact List.nodup_nil
  | some nodes =>
    rcases List.mem_cons.1 (List.mem_of_getElem? hk) with rfl | hmem
    · exact List.nodup_nil
    · exact g.nodup_flatten_waves.sublist ((List.sublist_flatten_of_mem hmem).map Node.id)

variable [Schema.Validator]

/-- At the start nothing is past, nothing is traced, and the present wave is empty. -/
theorem traced_start (g : Graph) (context : Value) (mode : Mode) (o : Options) :
    g.Traced o (g.start context mode o) where
  waves := rfl
  ids k w hw := by
    cases k with
    | zero =>
      obtain rfl := Option.some.inj hw
      rfl
    | succ k => cases hw
  inLine := Wave.inLine_ofNodes _ _ _
  logged := Wave.logged_ofNodes List.nodup_nil List.nodup_nil fun _ hn => absurd hn List.not_mem_nil
  settled w hw := absurd hw List.not_mem_nil
  told w hw := absurd hw List.not_mem_nil
  known id hid := absurd hid List.not_mem_nil
  ordered := List.Pairwise.nil

namespace Traced

omit [Schema.Validator] in
theorem wave_ids (h : g.Traced o e) : e.wave.ids = (g.wave e.past.length).map Node.id :=
  h.ids e.past.length e.wave (allWaves_getElem?.2 (.inr ⟨rfl, rfl⟩))

omit [Schema.Validator] in
theorem mem_wave_ids (h : g.Traced o e) {id : String} :
    id ∈ e.wave.ids ↔ g.InWave id e.past.length := by
  rw [h.wave_ids, mem_map_wave]

omit [Schema.Validator] in
theorem idAt_eq (h : g.Traced o e) {k : Nat} {w : Wave} (hw : e.allWaves[k]? = some w) {i : Nat}
    {n : Node} (hn : (g.wave k)[i]? = some n) : w.idAt i = n.id :=
  Wave.idAt_eq (h.ids k w hw) hn

omit [Schema.Validator] in
/-- The outcomes of a wave that is past are those of the nodes of its number. -/
theorem mem_outcomes (h : g.Traced o e) {k : Nat} {w : Wave} (hw : e.past[k]? = some w)
    {id : String} : id ∈ w.outcomes.map Prod.fst ↔ g.InWave id k := by
  have hall : e.allWaves[k]? = some w := allWaves_getElem?.2 (.inl hw)
  rw [(Wave.outcomes_perm (h.settled w (List.mem_of_getElem? hw))).mem_iff, h.ids k w hall,
    mem_map_wave]

/-- What moves in a wave keeps the invariant. -/
theorem move (h : g.Traced o e) {v : Wave} (hmove : Wave.Move o.observer e.wave v) :
    g.Traced o { e with wave := v } := by
  obtain ⟨hlogged, hids, htouch⟩ := Wave.logged_move (width_pos o) h.logged h.inLine hmove
  constructor
  case waves => exact h.waves
  case inLine => exact Wave.inLine_move (width_pos o) h.inLine hmove
  case logged => exact hlogged
  case settled => exact h.settled
  case ids =>
    intro k w hw
    rcases allWaves_getElem?.1 hw with hpast | ⟨rfl, rfl⟩
    · exact h.ids k w (allWaves_getElem?.2 (.inl hpast))
    · exact hids.trans h.wave_ids
  case told =>
    intro w hw p hp
    obtain ⟨entry, hentry, hid, htells⟩ := h.told w hw p hp
    refine ⟨entry, htouch.mem hentry fun hmem => ?_, hid, htells⟩
    -- the nodes of past waves are not those of the wave that is under way
    obtain ⟨k, hk⟩ := List.mem_iff_getElem?.1 hw
    have hpast := (h.mem_outcomes hk).1 (List.mem_map_of_mem hp)
    have hnow := h.mem_wave_ids.1 (hid ▸ hmem)
    have hlt : k < e.past.length := (List.getElem?_eq_some_iff.1 hk).1
    have heq := hpast.unique hnow
    omega
  case known =>
    intro id hid
    rcases htouch.mem_ids hid with hid | hid
    · exact h.known id hid
    · exact ⟨e.past.length, Nat.le_refl _, h.mem_wave_ids.1 hid⟩
  case ordered =>
    rcases htouch.ids with heq | ⟨node, hnode, -, heq⟩
    · exact heq ▸ h.ordered
    · rw [heq, List.pairwise_append]
      refine ⟨h.ordered, List.pairwise_singleton _ _, fun a ha b hb => ?_⟩
      obtain ⟨j, hj, ha⟩ := h.known a ha
      obtain rfl := List.mem_singleton.1 hb
      exact ⟨j, e.past.length, ha, h.mem_wave_ids.1 hnode, hj⟩

omit [Schema.Validator] in
/-- The nodes of the next wave are those of the next number. -/
theorem wave_succ (h : g.Traced o e) {nodes : List Node} {waves : List (List Node)}
    (hwaves : e.waves = nodes :: waves) : g.wave (e.past.length + 1) = nodes := by
  rw [wave, List.getD_cons_succ, List.getD_eq_getElem?_getD, ← List.head?_drop,
    h.waves.symm.trans hwaves]
  rfl

omit [Schema.Validator] in
/-- The nodes of the next wave have no entries yet. -/
theorem not_mem_of_wave_succ (h : g.Traced o e) {n : Node} (hn : n ∈ g.wave (e.past.length + 1)) :
    n.id ∉ e.wave.entries.map Entry.nodeId := by
  intro hmem
  obtain ⟨k, hk, hwave⟩ := h.known n.id hmem
  have heq := hwave.unique (mem_wave.1 hn).2
  omega

/-- The beginning of the next wave keeps the invariant. -/
theorem next (h : g.Traced o e) {nodes : List Node} {waves : List (List Node)}
    (hover : e.wave.IsOver) (hwaves : e.waves = nodes :: waves) :
    g.Traced o
      { past := e.past ++ [e.wave]
        wave := .ofNodes o.settings e.wave.world nodes
        waves := waves } := by
  have hdrop := h.waves.symm.trans hwaves
  have hnodes := h.wave_succ hwaves
  have hperm : e.wave.settled.Perm (List.range e.wave.ids.length) := by
    rw [h.logged.length_ids]
    exact h.inLine.settled_perm hover
  -- the waves of the schedule are apart, so no node of the next one has an entry yet
  have hnew : ∀ n ∈ nodes, n.id ∉ e.wave.entries.map Entry.nodeId :=
    fun n hn => h.not_mem_of_wave_succ (hnodes.symm ▸ hn)
  have hlength : (e.past ++ [e.wave]).length = e.past.length + 1 := List.length_append
  constructor
  case inLine => exact Wave.inLine_ofNodes _ _ _
  case logged => exact Wave.logged_ofNodes (hnodes ▸ g.nodup_wave _) h.logged.nodup hnew
  case ordered => exact h.ordered
  case waves =>
    rw [hlength, ← List.tail_drop, hdrop]
    rfl
  case ids =>
    intro k w hw
    rcases allWaves_getElem?.1 hw with hpast | ⟨rfl, rfl⟩
    · exact h.ids k w hpast
    · rw [hlength, hnodes]
      rfl
  -- the wave that has just become past is over, so its courses have settled in some order
  case settled =>
    intro w hw
    rcases List.mem_append.1 hw with hw | hw
    · exact h.settled w hw
    · exact List.mem_singleton.1 hw ▸ hperm
  case told =>
    intro w hw p hp
    rcases List.mem_append.1 hw with hw | hw
    · exact h.told w hw p hp
    · obtain rfl := List.mem_singleton.1 hw
      obtain ⟨q, hq, rfl⟩ := List.mem_map.1 hp
      exact h.logged.told q hq
  case known =>
    intro id hid
    obtain ⟨k, hk, hwave⟩ := h.known id hid
    exact ⟨k, hlength ▸ Nat.le_succ_of_le hk, hwave⟩

end Traced

/-- The invariant holds at every point that an execution comes to. -/
theorem Reaches.traced {context : Value} {mode : Mode} (h : g.Reaches context mode o e) :
    g.Traced o e := by
  induction h with
  | refl => exact g.traced_start context mode o
  | tail _ hstep ih =>
    cases hstep with
    | move hmove => exact ih.move hmove
    | next hover hwaves => exact ih.next hover hwaves

/-! ## Executions come to their end -/

/-- Waves that run by their lines are an execution that comes to its end. -/
theorem steps_run {past : List Wave} {w : Wave} {waves : List (List Node)}
    (h : w.InLine (width o)) :
    Relation.ReflTransGen (Execution.Step o) ⟨past, w, waves⟩ (.run o past w waves) ∧
      (Execution.run o past w waves).IsOver := by
  -- a run takes the present wave to its end and enters the next one, until none is left
  induction waves generalizing past w with
  | nil =>
    have hover : (w.run o.observer).IsOver := Wave.isOver_run (width_pos o) h
    exact ⟨Execution.steps_of_moves (Wave.moves_run _ w), hover, rfl⟩
  | cons nodes waves ih =>
    have hover : (w.run o.observer).IsOver := Wave.isOver_run (width_pos o) h
    obtain ⟨hsteps, hover'⟩ :=
      @ih (past ++ [w.run o.observer]) _ (Wave.inLine_ofNodes o.settings (w.run o.observer).world nodes)
    refine ⟨?_, hover'⟩
    have hnext : Execution.Step o ⟨past, w.run o.observer, nodes :: waves⟩ _ := .next hover rfl
    exact (Execution.steps_of_moves (Wave.moves_run _ w)).trans (hsteps.head hnext)

/-- From every point on, an execution can come to its end. -/
theorem Traced.exists_isOver (h : g.Traced o e) :
    ∃ e', Relation.ReflTransGen (Execution.Step o) e e' ∧ e'.IsOver :=
  ⟨_, steps_run h.inLine⟩

/-- From every point on, the waves that are left can run by their lines. -/
theorem Reaches.run {past : List Wave} {w : Wave} {waves : List (List Node)} {context : Value}
    {mode : Mode} (h : g.Reaches context mode o ⟨past, w, waves⟩) :
    g.Reaches context mode o (.run o past w waves) ∧ (Execution.run o past w waves).IsOver := by
  have hline : w.InLine (width o) := h.traced.inLine
  exact ⟨Relation.ReflTransGen.trans h (steps_run hline).1, (steps_run hline).2⟩

/-- The execution by lines is one of the executions of a graph, and comes to its end. -/
theorem reaches_execution (g : Graph) (context : Value) (mode : Mode) (o : Options) :
    g.Reaches context mode o (g.execution context mode o) ∧
      (g.execution context mode o).IsOver :=
  steps_run (Wave.inLine_ofNodes _ _ _)

/-- Running some waves and some steps of the next one is an execution too. -/
theorem steps_pause {past : List Wave} {w : Wave} {waves : List (List Node)}
    (h : w.InLine (width o)) (steps n : Nat) :
    Relation.ReflTransGen (Execution.Step o) ⟨past, w, waves⟩ (.pause o steps n past w waves) := by
  induction n generalizing past w waves with
  | zero =>
    rw [Execution.pause.eq_def]
    exact Execution.steps_of_moves (Wave.moves_stepped _ steps w)
  | succ n ih =>
    cases waves with
    | nil => exact Execution.steps_of_moves (Wave.moves_stepped _ steps w)
    | cons nodes waves =>
      have hover : (w.run o.observer).IsOver := Wave.isOver_run (width_pos o) h
      have hnext : Execution.Step o ⟨past, w.run o.observer, nodes :: waves⟩ _ := .next hover rfl
      exact (Execution.steps_of_moves (Wave.moves_run _ w)).trans
        ((ih (Wave.inLine_ofNodes o.settings (w.run o.observer).world nodes)).head hnext)

theorem reaches_paused (g : Graph) (context : Value) (mode : Mode) (o : Options) (waves steps : Nat) :
    g.Reaches context mode o (g.paused context mode o waves steps) :=
  steps_pause (Wave.inLine_ofNodes _ _ _) steps waves

end Graph

end Wavefront
