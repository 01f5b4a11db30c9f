/-
What a host is told, and what stays in the trace.

An entry that has been settled is never changed again, whoever has the next turn. A host is told
that a node has started, or else what the entry of the node says of its end at that moment. So
whatever a host has been told of an end, it is what the trace says for the rest of the run.
-/
import Wavefront.Proofs.Run.Deeds
import Wavefront.Proofs.Run.Orderly

set_option autoImplicit false

namespace Wavefront

/-! ## Notices -/

/-- What the host has been told in a run. -/
def World.notices (w : World) : List Notice :=
  w.events.filterMap fun e =>
    match e.what with
    | .called _ _ => none
    | .told notice => some notice

/-- Work tells the host nothing. -/
theorem World.Worked.notices {w w' : World} (h : w.Worked w') : w'.notices = w.notices := by
  cases h with
  | rests => rfl
  | writes _ => rfl
  | calls c busy r => exact (List.filterMap_append ..).trans (List.append_nil _)

/-- What the host is told at the next turn of the course. -/
def Course.telling? : Course → Option Notice
  | notify notice _ => some notice
  | _ => none

variable [Schema.Validator]

/-- The host is told what the course tells in its turn, and nothing else. -/
theorem Course.notices_turn {c : Course} {observer : Observer} {course busy : Nat} {w : World}
    {timers : List Timer} {t : Turn Course} (ht : c.turn observer course busy w timers = some t) :
    t.world.notices = w.notices ++ c.telling?.toList := by
  cases turns_of_turn ht with
  | attempts _ => exact (Limit.worked_turn ht).notices.trans (List.append_nil _).symm
  | tells notice next => exact List.filterMap_append ..
  | upsets next _ => exact List.filterMap_append ..
  | _ => exact (List.append_nil _).symm

/-! ## Entries that are settled -/

/-- A turn changes no entry that has been settled, also not that of the course. -/
theorem Course.mem_turn_of_isSettled {c : Course} {node : String} {observer : Observer}
    {course busy : Nat} {w : World} {timers : List Timer} {t : Turn Course}
    (ht : c.turn observer course busy w timers = some t) (h : c.Logs observer node w.trace.entries)
    (hnodup : (w.trace.entries.map Entry.nodeId).Nodup) {e : Entry} (he : e ∈ w.trace.entries)
    (hsettled : e.IsSettled) : e ∈ t.world.trace.entries := by
  by_cases hnode : e.nodeId = node
  · cases h with
    | unbegun _ hnone => exact absurd (hnode ▸ List.mem_map_of_mem he) hnone
    | running _ he' hid hrunning =>
      -- the entry of the course is still running
      obtain ⟨j, hj⟩ := List.mem_iff_getElem?.1 he
      obtain rfl := index_unique hnodup hj he' (hnode.trans hid.symm)
      obtain rfl := Option.some.inj (hj.symm.trans he')
      exact absurd hrunning hsettled.status_ne_running
    | settled hc _ _ =>
      cases turns_of_turn ht with
      | tells _ _ => exact he
      | upsets _ _ => exact he
      | _ => exact hc.elim
  · obtain ⟨-, htouch⟩ := Course.logs_turn ht h
    exact htouch.mem he fun hmem => hnode (List.mem_singleton.1 hmem)

namespace Wave

variable {observer : Observer} {v w : Wave}

/-- A move changes no entry that has been settled. -/
theorem Logged.mem_of_isSettled (h : w.Logged observer) (hmove : Move observer w v) {e : Entry}
    (he : e ∈ w.entries) (hsettled : e.IsSettled) : e ∈ v.entries := by
  cases hmove.change with
  | acts _ hc hturn => exact Course.mem_turn_of_isSettled hturn (h.logs _ _ hc) h.nodup he hsettled
  -- a panic fails only an entry that is not settled
  | @ends i before after ending _ _ =>
    rw [entries, world_release]
    cases ending with
    | passed => exact he
    | failed _ => exact he
    | aborted message =>
      refine mem_modifyFirst he ?_
      rw [hsettled.isTerminal, Bool.not_true, Bool.and_false]
  | rests _ _ _ _ _ => exact he
  | enters _ _ _ => exact he
  | queues _ _ _ => exact he
  | misses _ _ => exact he
  | wakes _ _ => exact he
  | lapses _ _ => exact he
  | outside _ _ _ => exact he

end Wave

/-! ## Executions -/

namespace Graph

variable {g : Graph} {o : Options} {e e' : Execution} {context : Value} {mode : Mode}

/-- A settled entry stays as it is from one step to the next. -/
theorem Traced.mem_of_isSettled (h : g.Traced o e) (hstep : Execution.Step o e e') {entry : Entry}
    (hentry : entry ∈ e.wave.entries) (hsettled : entry.IsSettled) : entry ∈ e'.wave.entries := by
  cases hstep with
  | move hmove => exact h.logged.mem_of_isSettled hmove hentry hsettled
  | next _ _ => exact hentry

/-- A course that is about to tell the host something tells it that the node has started, or what
the entry of the node says. -/
theorem Reaches.isAsTold_of_notify (h : g.Reaches context mode o e) {i : Nat} {notice : Notice}
    {next : Course} (hc : e.wave.courses[i]? = some (.notify notice next)) :
    (∃ node, notice = .started node) ∨ ∃ entry ∈ e.wave.entries, entry.IsAsTold notice := by
  obtain ⟨_, _, hstarted | ⟨ending, rfl, hending⟩, -⟩ := h.exists_orderly hc
  · exact .inl hstarted
  · cases h.traced.logged.logs i _ hc with
    | unbegun hunbegun _ => exact hunbegun.elim
    | running hopen _ _ _ =>
      -- while its entry is running, a course ends by a panic only
      obtain ⟨message, heq⟩ := hopen
      exact absurd heq (hending message)
    | settled hclosed hentry _ => exact .inr ⟨_, hentry, hclosed.1⟩

/-- At every point of an execution the trace says what the host has been told of the ends of
nodes. -/
theorem Reaches.isAsTold (h : g.Reaches context mode o e) : ∀ notice ∈ e.wave.world.notices,
    (∃ node, notice = .started node) ∨ ∃ entry ∈ e.wave.entries, entry.IsAsTold notice := by
  induction h with
  | refl => exact fun notice hnotice => absurd hnotice List.not_mem_nil
  | @tail e e' hreach hstep ih =>
    have hreach : g.Reaches context mode o e := hreach
    have hkeeps : ∀ notice, (∃ node, notice = .started node) ∨
        (∃ entry ∈ e.wave.entries, entry.IsAsTold notice) →
        (∃ node, notice = .started node) ∨ ∃ entry ∈ e'.wave.entries, entry.IsAsTold notice := by
      rintro notice (hstarted | ⟨entry, hentry, htold⟩)
      · exact .inl hstarted
      · exact .inr ⟨entry, hreach.traced.mem_of_isSettled hstep hentry htold.isSettled, htold⟩
    intro notice hnotice
    -- only a turn tells the host anything, and before it the trace says so already
    rcases hstep.acts_or with ⟨i, c, v, ⟨_, hc, hturn⟩, rfl⟩ | ⟨-, hevents⟩
    · refine hkeeps notice ?_
      rcases List.mem_append.1 (Course.notices_turn hturn ▸ hnotice) with hold | hnew
      · exact ih notice hold
      · cases c with
        | notify told next =>
          obtain rfl := List.mem_singleton.1 hnew
          exact hreach.isAsTold_of_notify hc
        | _ => cases hnew
    · refine hkeeps notice (ih notice ?_)
      rwa [World.notices, hevents] at hnotice

end Graph

end Wavefront
