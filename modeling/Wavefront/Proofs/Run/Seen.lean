/-
What the nodes of an execution have seen.

At every point of an execution the work of a node is known from the work that its attempts begin
with and from the contexts that were there at its turns. These contexts came up one after the other,
since the wave began, and whatever the node waits for had been executed by then. This is all that is
used of a run where a statement is about what the tools of one node are called with; who else had
turns in between shows in the contexts only.
-/
import Wavefront.Proofs.Run.Deeds
import Wavefront.Proofs.Run.Executed
import Wavefront.Proofs.Run.Leads

set_option autoImplicit false

namespace Wavefront

/-! ## Turns -/

variable [Schema.Validator]

/-- A turn of work is a step in the context that is there. -/
theorem Work.step_of_turn {work work' : Work (Except Error Value)} {course busy : Nat} {w : World}
    {timers : List Timer} {t : Turn Advance} (ht : work.turn course busy w timers = some t)
    (hon : t.next = .on work') : Step w.context work work' := by
  cases turns_of_turn ht with
  | reads _ => exact Advance.on.inj hon ▸ .read _
  | writes _ _ _ => exact Advance.on.inj hon ▸ .write _ _ _
  | finishes _ _ => exact Advance.on.inj hon ▸ .answer _ _ _
  | collects _ hn => exact Advance.on.inj hon ▸ .advance _ fun _ hf => hf.collect hn
  | refuses _ _ _ => exact Advance.on.inj hon ▸ .advance _ fun _ hf => hf.setStage _ _
  | begins _ _ _ _ => exact Advance.on.inj hon ▸ .advance _ fun _ hf => hf.setStage _ _
  | returns _ _ _ _ _ => exact Advance.on.inj hon ▸ .advance _ fun _ hf => hf.setStage _ _
  | concludes _ _ _ => exact Advance.on.inj hon ▸ .advance _ fun _ hf => hf.setStage _ _
  -- after a panic there is no work to lead to
  | upsets _ _ _ _ _ => cases hon
  | panics _ _ _ => cases hon

namespace Course

/-- All attempts that are still to come begin with the work. -/
def Retries (work : Work (Except Error Value)) : Course → Prop
  | ended _ => True
  | permit next => next.Retries work
  | begin _ next => ∀ index, (next index).Retries work
  | notify _ next => next.Retries work
  | ask next => ∀ cancelled, (next cancelled).Retries work
  | inspect next => ∀ context, (next context).Retries work
  | attempt _ first next => first = work ∧ ∀ r, (next r).Retries work
  | settle _ _ next => next.Retries work
  | pause _ next => next.Retries work
  | paused next => next.Retries work

/-- A node begins before its first attempt, with its whole work to do. -/
theorem retries_ofNode (s : Settings) (n : Node) :
    (ofNode s n).Retries (n.task.work s n.id).run := fun _ =>
  attempts_induction (fun _ => trivial) (fun _ _ => trivial) (fun _ _ => trivial)
    (fun _ _ hnext => hnext) (fun _ hnext => hnext) (fun _ hnext => hnext)
    (fun _ hnext => ⟨rfl, hnext⟩) _ _

/-- The course is before an attempt, or within one whose work has come from the work by turns in
contexts that have been seen. -/
inductive Within (work : Work (Except Error Value)) (seen : List Value → Prop) : Course → Prop
  | before {c : Course} (h : c.Retries work) : Within work seen c
  | inside {limit : Limit} {w : Work (Except Error Value)}
      {next : Option (Except Error Value) → Course} {cs : List Value} (hw : work.Leads cs w)
      (hcs : seen cs) (hnext : ∀ r, (next r).Retries work) : Within work seen (.attempt limit w next)

variable {work : Work (Except Error Value)} {seen seen' : List Value → Prop} {c d : Course}

omit [Schema.Validator] in
/-- What has seen some contexts has seen them among more. -/
theorem Within.mono (h : c.Within work seen) (hseen : ∀ cs, seen cs → seen' cs) :
    c.Within work seen' := by
  cases h with
  | before h => exact .before h
  | inside hw hcs hnext => exact .inside hw (hseen _ hcs) hnext

omit [Schema.Validator] in
/-- An attempt that is under way has come as far as it is by contexts that were seen. -/
theorem Within.exists_leads (hnil : seen []) {limit : Limit} {w : Work (Except Error Value)}
    {next : Option (Except Error Value) → Course} (h : (attempt limit w next).Within work seen) :
    ∃ cs, work.Leads cs w ∧ seen cs ∧ ∀ r, (next r).Retries work := by
  cases h with
  | before h => exact ⟨[], h.1 ▸ .refl w, hnil, h.2⟩
  | inside hw hcs hnext => exact ⟨_, hw, hcs, hnext⟩

/-- A turn within a time limit sees the context that it finds. -/
theorem Within.limit_turn {limit : Limit} {w : Work (Except Error Value)}
    {next : Option (Except Error Value) → Course} {course busy : Nat} {world : World}
    {timers : List Timer} {t : Turn Course} {cs : List Value} (hw : work.Leads cs w)
    (hnext : ∀ r, (next r).Retries work) (hcs : seen cs) (hsee : seen (cs ++ [world.context]))
    (ht : limit.turn w next course busy world timers = some t) : t.next.Within work seen := by
  cases Limit.does_of_turn ht with
  | ends r => exact .before (hnext (some r))
  | works hturn => exact .inside (hw.tail (Work.step_of_turn hturn rfl)) hsee hnext
  | panics _ => exact .before trivial
  | limits _ _ => exact .inside hw hcs hnext
  | stops _ => exact .before (hnext none)

/-- A turn adds the context that is there to what has been seen. -/
theorem Within.turn (h : c.Within work seen) (hnil : seen []) {observer : Observer}
    {course busy : Nat} {world : World} {timers : List Timer} {t : Turn Course}
    (hsee : ∀ cs, seen cs → seen (cs ++ [world.context]))
    (ht : c.turn observer course busy world timers = some t) : t.next.Within work seen := by
  cases turns_of_turn ht with
  | attempts _ =>
    -- only the turn of an attempt adds to what has been seen
    obtain ⟨cs, hw, hcs, hnext⟩ := h.exists_leads hnil
    exact limit_turn hw hnext hcs (hsee cs hcs) ht
  | begin entry next =>
    obtain ⟨h⟩ := h
    exact .before (h _)
  | tells notice next =>
    obtain ⟨h⟩ := h
    exact .before h
  | upsets next _ => exact .before trivial
  | asks next =>
    obtain ⟨h⟩ := h
    exact .before (h _)
  | inspects next =>
    obtain ⟨h⟩ := h
    exact .before (h _)
  | settles index change next =>
    obtain ⟨h⟩ := h
    exact .before h
  | skips next =>
    obtain ⟨h⟩ := h
    exact .before h
  | pauses ms due next =>
    obtain ⟨h⟩ := h
    exact .before h

omit [Schema.Validator] in
/-- Waking a course sees the context that is there. -/
theorem Within.wake (h : c.Within work seen) (hnil : seen []) {context : Value}
    (hsee : ∀ cs, seen cs → seen (cs ++ [context])) (purpose : Purpose) :
    (c.wake purpose).Within work seen := by
  unfold Course.wake
  split
  · obtain ⟨h⟩ := h
    exact .before h
  · obtain ⟨cs, hw, hcs, hnext⟩ := h.exists_leads hnil
    exact .inside hw hcs hnext
  · rename_i number _ f next _
    obtain ⟨cs, hw, hcs, hnext⟩ := h.exists_leads hnil
    -- a call that wakes is a step of the work too, in the context that is there by then
    have hstep : Work.Step context (.gather f next) (.gather (f.wake number) next) :=
      .advance next fun _ hf => hf.wake number
    exact .inside (hw.tail hstep) (hsee cs hcs) hnext
  · exact h

end Course

/-! ## Moves -/

namespace Wave

/-- What a move makes of the course in some place: it stays as it is, gets its permit, is woken, or
has a turn. -/
inductive CourseMove (observer : Observer) (w : Wave) (i : Nat) (c : Course) : Course → Prop
  | same : CourseMove observer w i c c
  | enters {next : Course} (h : c = .permit next) : CourseMove observer w i c next
  | wakes (purpose : Purpose) : CourseMove observer w i c (c.wake purpose)
  | acts {t : Turn Course} (h : c.turn observer i w.busy w.world w.timers = some t) :
      CourseMove observer w i c t.next

variable {observer : Observer} {v w : Wave} {i : Nat} {d : Course}

/-- What a move does to a course, from the course as it is behind the move. -/
theorem exists_courseMove (h : Move observer w v) (hd : v.courses[i]? = some d) :
    ∃ c, w.courses[i]? = some c ∧ CourseMove observer w i c d := by
  have hlt : i < w.courses.length :=
    length_courses_move h ▸ (List.getElem?_eq_some_iff.1 hd).1
  have hc : w.courses[i]? = some w.courses[i] := List.getElem?_eq_getElem hlt
  refine ⟨w.courses[i], hc, ?_⟩
  rcases h.course_or hc with ⟨_, _, hturn⟩ | ⟨d', hd', hcase⟩
  · obtain rfl := Option.some.inj ((List.getElem?_set_self hlt).symm.trans hd)
    exact .acts hturn
  · obtain rfl := Option.some.inj (hd'.symm.trans hd)
    rcases hcase with hsame | hpermit | ⟨purpose, hwake⟩
    · exact hsame ▸ .same
    · exact .enters hpermit
    · exact hwake ▸ .wakes purpose

end Wave

/-! ## Executions -/

namespace Execution

/-- From one point of an execution to another these contexts come up, one after the other. -/
inductive Sees (o : Options) (start : Execution) : List Value → Execution → Prop
  | nothing : Sees o start [] start
  | step {cs : List Value} {e e' : Execution} (h : Sees o start cs e) (hstep : Step o e e') :
      Sees o start cs e'
  | sees {cs : List Value} {e : Execution} (h : Sees o start cs e) :
      Sees o start (cs ++ [e.wave.world.context]) e

end Execution

namespace Graph

variable {g : Graph} {o : Options} {e : Execution} {context : Value} {mode : Mode}

/-- Since the wave began that is under way, its courses have come as far as they are by what they
have seen. -/
structure Seen (g : Graph) (context : Value) (mode : Mode) (o : Options) (start e : Execution) :
    Prop where
  reaches : g.Reaches context mode o start
  past : start.past = e.past
  sees : Execution.Sees o start [] e
  within : ∀ (i : Nat) (c : Course), e.wave.courses[i]? = some c →
    ∃ n, (g.wave e.past.length)[i]? = some n ∧
      c.Within (n.task.work o.settings n.id).run fun cs => Execution.Sees o start cs e

/-- A move lets the nodes of a wave see the context that it leaves. -/
theorem Seen.move {start : Execution} (h : g.Seen context mode o start e) {v : Wave}
    (hmove : Wave.Move o.observer e.wave v) : g.Seen context mode o start { e with wave := v } := by
  have hgrow : ∀ cs, Execution.Sees o start cs e → Execution.Sees o start cs { e with wave := v } :=
    fun _ hcs => .step hcs (.move hmove)
  refine ⟨h.reaches, h.past, hgrow _ h.sees, fun i d hd => ?_⟩
  obtain ⟨c, hc, hcourse⟩ := Wave.exists_courseMove hmove hd
  obtain ⟨n, hn, hwithin⟩ := h.within i c hc
  refine ⟨n, hn, Course.Within.mono ?_ hgrow⟩
  cases hcourse with
  | same => exact hwithin
  -- a course that gets its permit is still before its first attempt
  | enters hpermit =>
    subst hpermit
    obtain ⟨hretries⟩ := hwithin
    exact .before hretries
  | wakes purpose => exact hwithin.wake h.sees (fun _ hcs => hcs.sees) purpose
  | acts hturn => exact hwithin.turn h.sees (fun _ hcs => hcs.sees) hturn

/-- At every point the courses have come as far as they are by what they have seen. -/
theorem Reaches.exists_seen (h : g.Reaches context mode o e) :
    ∃ start, g.Seen context mode o start e := by
  induction h with
  | refl =>
    refine ⟨_, .refl, rfl, .nothing, fun i c hc => ?_⟩
    cases hc
  | @tail e e' hreach hstep ih =>
    cases hstep with
    | move hmove =>
      obtain ⟨start, hstart⟩ := ih
      exact ⟨start, hstart.move hmove⟩
    | @next nodes waves hover hwaves =>
      -- the courses of the new wave have seen nothing yet, so it is where the new count starts
      refine ⟨_, hreach.tail (.next hover hwaves), rfl, .nothing, fun i c hc => ?_⟩
      rw [Wave.ofNodes, List.getElem?_map] at hc
      obtain ⟨n, hn, rfl⟩ := Option.map_eq_some_iff.1 hc
      refine ⟨n, ?_, .before (Course.retries_ofNode o.settings n)⟩
      rw [List.length_append, List.length_singleton, (Reaches.traced hreach).wave_succ hwaves]
      exact hn

end Graph

/-! ## Calls -/

/-- The calls that are under way in a course. -/
def Course.fanout? : Course → Option Fanout
  | attempt _ (.gather f _) _ => some f
  | _ => none

/-- The calls that are under way in the course in some place. -/
def Wave.fanoutAt? (w : Wave) (i : Nat) : Option Fanout := w.courses[i]?.bind Course.fanout?

omit [Schema.Validator] in
/-- A fan-out is under way only within an attempt. -/
theorem Course.eq_attempt_of_fanout? {c : Course} {f : Fanout} (h : c.fanout? = some f) :
    ∃ limit next rest, c = .attempt limit (.gather f next) rest := by
  unfold fanout? at h
  split at h
  · obtain rfl := Option.some.inj h
    exact ⟨_, _, _, rfl⟩
  · cases h

namespace Graph

variable {g : Graph} {o : Options} {e : Execution} {context : Value} {mode : Mode}

/-- Whatever calls are under way, they are those of the work of a node that has come to them by
turns in contexts that came up since its wave began, and by then all dependencies of the node had
been executed. -/
theorem Reaches.exists_calls (h : g.Reaches context mode o e) {i : Nat} {f : Fanout}
    (hf : e.wave.fanoutAt? i = some f) :
    ∃ start cs, g.Reaches context mode o start ∧ Execution.Sees o start cs e ∧
      ∃ n ∈ g.nodes, e.wave.idAt i = n.id ∧ (n.task.work o.settings n.id).Calls cs f ∧
        ∀ d ∈ n.deps, ∃ entry ∈ start.wave.entries, entry.nodeId = d ∧ entry.IsSettled := by
  obtain ⟨c, hc, hf⟩ := Option.bind_eq_some_iff.1 hf
  obtain ⟨limit, next, rest, rfl⟩ := Course.eq_attempt_of_fanout? hf
  obtain ⟨start, hseen⟩ := h.exists_seen
  obtain ⟨n, hn, hwithin⟩ := hseen.within i _ hc
  obtain ⟨cs, hleads, hcs, -⟩ := hwithin.exists_leads hseen.sees
  obtain ⟨hmem, hwave⟩ := mem_wave.1 (List.mem_of_getElem? hn)
  have hid : e.wave.idAt i = n.id := Wave.idAt_eq h.traced.wave_ids hn
  refine ⟨start, cs, hseen.reaches, hcs, n, hmem, hid, ⟨next, hleads⟩, fun d hd => ?_⟩
  -- what the node waits for is in an earlier wave, so it was settled when this one began
  obtain ⟨j, hj, hdep⟩ := hwave.dep_lt hmem hd
  rw [← hseen.past] at hj
  exact hseen.reaches.traced.exists_settled hj hdep

end Graph

end Wavefront
