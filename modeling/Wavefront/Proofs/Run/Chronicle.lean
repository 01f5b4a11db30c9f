/-
Chronicles: what every node has asked for in an execution and what it has been answered, in order.

A turn of a course leaves at most one mark. A chronicle of an execution has the marks of all turns,
each with the id of the node that had the turn; whatever else happens leaves none. So the marks of
one node are those of its course alone: a course plays them, and what others do between its turns
shows in the answers only.

The marks are what has come of the requests. The host has been told the notices of the chronicle, in
their order, and an entry that has been settled is in the trace as its mark says.
-/
import Wavefront.Proofs.Run.Executed
import Wavefront.Proofs.Run.Told

set_option autoImplicit false

namespace Wavefront

/-! ## Marks -/

/-- What a course has asked for at a turn, and what it has been answered. -/
inductive Mark where
  /-- An entry was appended to the trace, and this is its index. -/
  | begins (index : Nat)
  | tells (notice : Notice)
  | checks (cancelled : Bool)
  | inspects (context : Value)
  /-- An attempt came to its end: with a result of its work, or without one because its time was
  over. -/
  | answers (result : Option (Except Error Value))
  /-- The entry at an index was changed, and this is what it has become. -/
  | settles (index : Nat) (entry : Entry)
  | pauses (ms : Nat)

variable [Schema.Validator]

/-- What an attempt comes to at this turn, if it comes to its end: to the result of its work, or to
none if the work has to wait and there is no time left. -/
def Limit.answer? (limit : Limit) (work : Work (Except Error Value)) (course busy : Nat) (w : World)
    (timers : List Timer) : Option (Option (Except Error Value)) :=
  match work with
  | .done r => some (some r)
  | work =>
      if (work.turn course busy w timers).isNone ∧ (limit = .set 0 ∨ limit = .expired) then some none
      else none

/-- The mark that a turn leaves. -/
def Course.mark? (c : Course) (course busy : Nat) (w : World) (timers : List Timer) : Option Mark :=
  match c with
  | .ended _ | .permit _ | .paused _ => none
  | .begin _ _ => some (.begins w.trace.entries.length)
  | .notify notice _ => some (.tells notice)
  | .ask _ => some (.checks w.cancelled)
  | .inspect _ => some (.inspects w.context)
  | .attempt limit work _ => (limit.answer? work course busy w timers).map .answers
  | .settle index change _ =>
      w.trace.entries[index]?.map fun entry => .settles index (change w.moment entry)
  | .pause ms _ => some (.pauses ms)

/-- What the host is told by a mark. -/
def Mark.notice? : Mark → Option Notice
  | tells notice => some notice
  | _ => none

/-- A turn tells the host what its mark says. -/
theorem Course.bind_notice?_mark? (c : Course) (course busy : Nat) (w : World) (timers : List Timer) :
    (c.mark? course busy w timers).bind Mark.notice? = c.telling? := by
  cases c with
  | attempt limit work next =>
    rw [mark?]
    cases limit.answer? work course busy w timers <;> rfl
  | settle index change next =>
    rw [mark?]
    cases w.trace.entries[index]? <;> rfl
  | _ => rfl

/-! ## What a course plays -/

/-- A mark of settling is left by a course about to settle, and holds the entry as it is settled. -/
theorem Course.eq_settle_of_mark? {c : Course} {course busy : Nat} {w : World} {timers : List Timer}
    {index : Nat} {entry : Entry} (h : c.mark? course busy w timers = some (.settles index entry)) :
    ∃ change next old, c = .settle index change next ∧ w.trace.entries[index]? = some old ∧
      entry = change w.moment old := by
  cases c with
  | attempt limit work next =>
    obtain ⟨_, -, heq⟩ := Option.map_eq_some_iff.1 h
    cases heq
  | settle i change next =>
    obtain ⟨old, hold, heq⟩ := Option.map_eq_some_iff.1 h
    obtain ⟨rfl, rfl⟩ := Mark.settles.inj heq
    exact ⟨change, next, old, rfl, hold, rfl⟩
  | _ => cases h

section Answers

variable {limit : Limit} {work : Work (Except Error Value)} {course busy : Nat} {w : World}
  {timers : List Timer}

/-- As long as the work can have a turn, its attempt is not answered. -/
theorem Limit.answer?_of_turn (hdone : ∀ r, work ≠ .done r) {t : Turn Advance}
    (hturn : work.turn course busy w timers = some t) :
    limit.answer? work course busy w timers = none := by
  rw [answer?, hturn]
  · exact if_neg fun h => Bool.false_ne_true h.1
  · exact hdone

/-- Work that waits is answered only by its time limit, when no time is left or the time is over. -/
theorem Limit.answer?_of_turn_eq_none (hdone : ∀ r, work ≠ .done r)
    (hturn : work.turn course busy w timers = none) : limit.answer? work course busy w timers
      = if limit = .set 0 ∨ limit = .expired then some none else none := by
  rw [answer?, hturn]
  · simp only [Option.isNone_none, true_and]
  · exact hdone

/-- A turn of an attempt leaves it under way without a mark, answers it, or aborts its course. -/
theorem Limit.goesOn_of_turn {next : Option (Except Error Value) → Course} {t : Turn Course}
    (ht : limit.turn work next course busy w timers = some t) :
    (limit.answer? work course busy w timers = none ∧
        ∃ limit' work', t.next = .attempt limit' work' next) ∨
      (∃ r, limit.answer? work course busy w timers = some r ∧ t.next = next r) ∨
      ∃ message, t.next = .abort message := by
  unfold Limit.turn at ht
  split at ht
  · obtain rfl := Option.some.inj ht
    exact .inr (.inl ⟨_, rfl, rfl⟩)
  -- the work is under way: it has a turn, it panics, or it waits and the time limit has its turn
  · rename_i hdone
    split at ht
    · rename_i hturn
      obtain rfl := Option.some.inj ht
      exact .inl ⟨answer?_of_turn hdone hturn, _, _, rfl⟩
    · obtain rfl := Option.some.inj ht
      exact .inr (.inr ⟨_, rfl⟩)
    · rename_i hturn
      rw [answer?_of_turn_eq_none hdone hturn]
      split at ht
      · split at ht
        · rename_i hms
          obtain rfl := Option.some.inj ht
          exact .inr (.inl ⟨none, if_pos (.inl (congrArg Limit.set hms)), rfl⟩)
        · rename_i hms
          obtain rfl := Option.some.inj ht
          refine .inl ⟨if_neg ?_, _, _, rfl⟩
          -- a limit that is just being set has not expired
          rintro (heq | heq)
          · exact hms (Limit.set.inj heq)
          · cases heq
      · cases ht
      · obtain rfl := Option.some.inj ht
        exact .inr (.inl ⟨none, if_pos (.inr rfl), rfl⟩)

end Answers

namespace Course

variable {observer : Observer} {node : String}

omit [Schema.Validator] in
/-- An entry that its node has done with is settled. -/
theorem IsClosed.isSettled {e : Entry} {c : Course} (h : c.IsClosed observer node e) :
    e.IsSettled := by
  cases c with
  | ended ending => exact Entry.Tells.isSettled h
  | notify notice next => exact h.1.isSettled
  | _ => exact h.elim

omit [Schema.Validator] in
/-- A course that is about to settle an entry has it in the trace. -/
theorem Logs.exists_of_settle {entries : List Entry} {index : Nat} {change : Moment → Entry → Entry}
    {next : Course} (h : (settle index change next).Logs observer node entries) :
    ∃ entry, entries[index]? = some entry ∧
      ∀ now, (change now entry).nodeId = node ∧ (change now entry).IsSettled := by
  cases h with
  | unbegun hc _ => exact hc.elim
  | @running _ entry hc hentry hid _ =>
    obtain ⟨rfl, hchange⟩ := hc
    refine ⟨entry, hentry, fun now => ?_⟩
    obtain ⟨hkeeps, hclosed⟩ := hchange now entry hid
    exact ⟨hkeeps, hclosed.isSettled⟩
  | settled hc _ _ => exact hc.elim

/-- The next thing is answered by a turn, whatever the course has been through: it neither waits nor
has ended, and it makes no attempt. -/
def isPlain : Course → Bool
  | ended _ | permit _ | attempt _ _ _ | paused _ => false
  | _ => true

omit [Schema.Validator] in
/-- A course that waits for nothing is woken in vain. -/
theorem wake_of_isPlain {c : Course} (h : c.isPlain = true) (purpose : Purpose) :
    c.wake purpose = c := by
  cases c with
  | attempt _ _ _ => cases h
  | paused _ => cases h
  | _ => cases purpose <;> rfl

omit [Schema.Validator] in
/-- Whoever is woken in an attempt is still in it. -/
theorem exists_wake_attempt (limit : Limit) (work : Work (Except Error Value))
    (next : Option (Except Error Value) → Course) (purpose : Purpose) :
    ∃ limit' work', (attempt limit work next).wake purpose = .attempt limit' work' next := by
  cases purpose with
  | pause => exact ⟨_, _, rfl⟩
  | limit => cases limit <;> exact ⟨_, _, rfl⟩
  | call number => cases work <;> exact ⟨_, _, rfl⟩

/-- In a run the course comes to another one, and leaves these marks on the way. Nothing is said of
what others do between its turns, but that its entry is in the trace as far as it has come. -/
inductive Plays (observer : Observer) (node : String) : Course → List Mark → Course → Prop
  | rests (c : Course) : Plays observer node c [] c
  | enters {next d : Course} {marks : List Mark} (h : Plays observer node next marks d) :
      Plays observer node (.permit next) marks d
  | wakes {c d : Course} {marks : List Mark} (purpose : Purpose)
      (h : Plays observer node (c.wake purpose) marks d) : Plays observer node c marks d
  | acts {c d : Course} {marks : List Mark} {course busy : Nat} {w : World} {timers : List Timer}
      {t : Turn Course} (hlogs : c.Logs observer node w.trace.entries)
      (hturn : c.turn observer course busy w timers = some t)
      (h : Plays observer node t.next marks d) :
      Plays observer node c ((c.mark? course busy w timers).toList ++ marks) d

namespace Plays

variable {c d e : Course} {ms ns : List Mark} {ending : Ending}

/-- What is played in two parts is played in one. -/
theorem trans (h : c.Plays observer node ms d) (h' : d.Plays observer node ns e) :
    c.Plays observer node (ms ++ ns) e := by
  induction h with
  | rests c => exact h'
  | enters _ ih => exact .enters (ih h')
  | wakes purpose _ ih => exact .wakes purpose (ih h')
  | acts hlogs hturn _ ih =>
    rw [List.append_assoc]
    exact .acts hlogs hturn (ih h')

/-- A turn adds its mark. -/
theorem turns (h : c.Plays observer node ms d) {course busy : Nat} {w : World} {timers : List Timer}
    {t : Turn Course} (hlogs : d.Logs observer node w.trace.entries)
    (hturn : d.turn observer course busy w timers = some t) :
    c.Plays observer node (ms ++ (d.mark? course busy w timers).toList) t.next := by
  rw [← List.append_nil (d.mark? course busy w timers).toList]
  exact h.trans (.acts hlogs hturn (.rests _))

/-- What else happens to a course adds none. -/
theorem idles (h : c.Plays observer node ms d)
    (hcase : e = d ∨ d = .permit e ∨ ∃ purpose, e = d.wake purpose) :
    c.Plays observer node ms e := by
  rw [← List.append_nil ms]
  refine h.trans ?_
  rcases hcase with rfl | rfl | ⟨purpose, rfl⟩
  · exact .rests _
  · exact .enters (.rests _)
  · exact .wakes purpose (.rests _)

/-- A course that has ended plays nothing more. -/
theorem of_ended (h : (ended ending).Plays observer node ms d) : ms = [] ∧ d = ended ending := by
  -- the induction is on the parts played, so the course they begin with has to be a variable
  generalize hc : ended ending = c at h
  induction h with
  | rests c => exact ⟨rfl, rfl⟩
  | enters _ _ => cases hc
  | wakes purpose _ ih =>
    subst hc
    have hwake : (ended ending).wake purpose = ended ending := by cases purpose <;> rfl
    rw [hwake] at ih
    exact ih rfl
  | acts _ hturn _ _ =>
    subst hc
    cases hturn

/-- A course that waits for a permit to its end plays as the course behind the permit. -/
theorem of_permit {next : Course} (h : (permit next).Plays observer node ms (.ended ending)) :
    next.Plays observer node ms (.ended ending) := by
  generalize hc : permit next = c at h
  generalize hd : ended ending = d at h
  induction h with
  | rests c => cases hc.trans hd.symm
  | enters h _ =>
    obtain rfl := Course.permit.inj hc
    exact h
  | @wakes c _ _ purpose _ ih =>
    subst hc
    refine ih ?_ hd
    cases purpose <;> rfl
  | acts _ hturn _ _ =>
    subst hc
    cases hturn

/-- A course that is paused and comes to its end plays as the course behind the pause. -/
theorem of_paused {next : Course} (h : (paused next).Plays observer node ms (.ended ending)) :
    next.Plays observer node ms (.ended ending) := by
  generalize hc : paused next = c at h
  generalize hd : ended ending = d at h
  induction h with
  | rests c => cases hc.trans hd.symm
  | enters _ _ => cases hc
  | @wakes c _ _ purpose h ih =>
    subst hc hd
    cases purpose with
    -- the other timers are not its own: it goes on waiting
    | pause => exact h
    | limit => exact ih rfl rfl
    | call number => exact ih rfl rfl
  | acts _ hturn _ _ =>
    subst hc
    cases hturn

/-- A course at a plain request goes on by a turn. -/
theorem exists_turn (h : c.Plays observer node ms (.ended ending)) (hplain : c.isPlain = true) :
    ∃ course busy w timers t rest, c.Logs observer node w.trace.entries ∧
      c.turn observer course busy w timers = some t ∧
      ms = (c.mark? course busy w timers).toList ++ rest ∧
      t.next.Plays observer node rest (.ended ending) := by
  generalize hd : ended ending = d at h
  induction h with
  | rests c =>
    subst hd
    cases hplain
  | enters _ _ => cases hplain
  -- waking changes no such course, so its first turn is still to come
  | wakes purpose _ ih =>
    rw [wake_of_isPlain hplain purpose] at ih
    exact ih hplain hd
  | acts hlogs hturn h _ =>
    subst hd
    exact ⟨_, _, _, _, _, _, hlogs, hturn, rfl, h⟩

/-- A course that opens its entry first leaves the mark of that. -/
theorem of_begin {entry : Moment → Entry} {next : Nat → Course}
    (h : (begin entry next).Plays observer node ms (.ended ending)) :
    ∃ index rest, ms = .begins index :: rest ∧
      (next index).Plays observer node rest (.ended ending) := by
  obtain ⟨_, _, w, _, _, rest, -, hturn, rfl, hrest⟩ :=
    h.exists_turn rfl
  obtain rfl := Option.some.inj hturn
  exact ⟨w.trace.entries.length, rest, rfl, hrest⟩

/-- A host that takes the notice lets the course go on. -/
theorem of_notify {notice : Notice} {next : Course}
    (h : (notify notice next).Plays observer node ms (.ended ending))
    (hordinary : ∀ message, ending ≠ .aborted message) :
    ∃ rest, ms = .tells notice :: rest ∧ next.Plays observer node rest (.ended ending) := by
  obtain ⟨_, _, w, _, _, rest, -, hturn, rfl, hrest⟩ :=
    h.exists_turn rfl
  refine ⟨rest, rfl, ?_⟩
  rw [turn] at hturn
  split at hturn
  · obtain rfl := Option.some.inj hturn
    exact hrest
  · obtain rfl := Option.some.inj hturn
    -- the observer panicked, so the course ends right there, and not as it was to end
    obtain ⟨-, heq⟩ := of_ended hrest
    exact absurd (Course.ended.inj heq) (hordinary _)

/-- A course that checks for cancellation leaves the mark of that, with what the check finds. -/
theorem of_ask {next : Bool → Course} (h : (ask next).Plays observer node ms (.ended ending)) :
    ∃ cancelled rest, ms = .checks cancelled :: rest ∧
      (next cancelled).Plays observer node rest (.ended ending) := by
  obtain ⟨_, _, w, _, _, rest, -, hturn, rfl, hrest⟩ :=
    h.exists_turn rfl
  obtain rfl := Option.some.inj hturn
  exact ⟨w.cancelled, rest, rfl, hrest⟩

/-- A course that inspects the context leaves the mark of that, with the context it finds. -/
theorem of_inspect {next : Value → Course}
    (h : (inspect next).Plays observer node ms (.ended ending)) :
    ∃ context rest, ms = .inspects context :: rest ∧
      (next context).Plays observer node rest (.ended ending) := by
  obtain ⟨_, _, w, _, _, rest, -, hturn, rfl, hrest⟩ :=
    h.exists_turn rfl
  obtain rfl := Option.some.inj hturn
  exact ⟨w.context, rest, rfl, hrest⟩

/-- The entry that is settled was there before. -/
theorem of_settle {index : Nat} {change : Moment → Entry → Entry} {next : Course}
    (h : (settle index change next).Plays observer node ms (.ended ending)) :
    ∃ now entry rest, ms = .settles index (change now entry) :: rest ∧
      next.Plays observer node rest (.ended ending) := by
  obtain ⟨_, _, w, _, _, rest, hlogs, hturn, rfl, hrest⟩ :=
    h.exists_turn rfl
  obtain rfl := Option.some.inj hturn
  obtain ⟨entry, hentry, -⟩ := hlogs.exists_of_settle
  refine ⟨w.moment, entry, rest, ?_, hrest⟩
  rw [mark?, hentry]
  rfl

/-- A pause is waited for, unless it takes no time. -/
theorem of_pause {ms' : Nat} {next : Course}
    (h : (pause ms' next).Plays observer node ms (.ended ending)) :
    ∃ rest, ms = .pauses ms' :: rest ∧ next.Plays observer node rest (.ended ending) := by
  obtain ⟨_, _, w, _, _, rest, -, hturn, rfl, hrest⟩ :=
    h.exists_turn rfl
  refine ⟨rest, rfl, ?_⟩
  rw [turn] at hturn
  split at hturn
  · obtain rfl := Option.some.inj hturn
    exact hrest
  · obtain rfl := Option.some.inj hturn
    exact hrest.of_paused

/-- Whatever its time limit and its work go through, an attempt is answered once. -/
theorem of_attempt {limit : Limit} {work : Work (Except Error Value)}
    {next : Option (Except Error Value) → Course}
    (h : (attempt limit work next).Plays observer node ms (.ended ending))
    (hordinary : ∀ message, ending ≠ .aborted message) :
    ∃ r rest, ms = .answers r :: rest ∧ (next r).Plays observer node rest (.ended ending) := by
  generalize hc : attempt limit work next = c at h
  generalize hd : ended ending = d at h
  -- limit and work change on the way, and what comes behind the attempt does not
  induction h generalizing limit work with
  | rests c => cases hc.trans hd.symm
  | enters _ _ => cases hc
  | @wakes c _ _ purpose _ ih =>
    subst hc
    obtain ⟨limit', work', heq⟩ := exists_wake_attempt limit work next purpose
    exact ih heq.symm hd
  | acts _ hturn h ih =>
    subst hc
    rcases Limit.goesOn_of_turn hturn with ⟨hnone, limit', work', heq⟩ | ⟨r, hsome, heq⟩ |
      ⟨message, heq⟩
    · rw [mark?, hnone]
      exact ih heq.symm hd
    · rw [mark?, hsome]
      subst hd
      rw [heq] at h
      exact ⟨r, _, rfl, h⟩
    · rw [heq] at h
      obtain ⟨-, hended⟩ := of_ended h
      exact absurd (Course.ended.inj (hd.trans hended)) (hordinary _)

end Plays

end Course

/-! ## Chronicles -/

/-- The marks of a node among those of all nodes. -/
def Mark.ofNode (id : String) (marks : List (String × Mark)) : List Mark :=
  marks.filterMap fun m => if m.1 = id then some m.2 else none

/-- What the host is told by marks. -/
def Mark.notices (marks : List (String × Mark)) : List Notice := marks.filterMap fun m => m.2.notice?

namespace Mark

variable {id : String} {marks : List (String × Mark)}

omit [Schema.Validator] in
theorem ofNode_append (id : String) (ms ns : List (String × Mark)) :
    ofNode id (ms ++ ns) = ofNode id ms ++ ofNode id ns := List.filterMap_append ..

omit [Schema.Validator] in
/-- A mark of the node itself is one of the marks of the node. -/
theorem ofNode_self (id : String) (m : Option Mark) :
    ofNode id (m.map (Prod.mk id)).toList = m.toList := by
  cases m with
  | none => rfl
  | some m => exact List.filterMap_cons_some (if_pos rfl)

omit [Schema.Validator] in
/-- A mark is one of a node's exactly if the chronicle has it with the id of the node. -/
theorem mem_ofNode {m : Mark} : m ∈ ofNode id marks ↔ (id, m) ∈ marks := by
  rw [ofNode, List.mem_filterMap]
  constructor
  · rintro ⟨⟨id', m'⟩, hmem, heq⟩
    rw [Option.ite_none_right_eq_some] at heq
    obtain ⟨rfl, heq⟩ := heq
    exact Option.some.inj heq ▸ hmem
  · exact fun hmem => ⟨_, hmem, if_pos rfl⟩

omit [Schema.Validator] in
theorem ofNode_of_ne (h : ∀ m ∈ marks, m.1 ≠ id) : ofNode id marks = [] :=
  List.filterMap_eq_nil_iff.2 fun m hm => if_neg (h m hm)

end Mark

/-- The mark that the turn of a course leaves, with the id of its node. -/
def Execution.mark? (e : Execution) (i : Nat) (c : Course) : Option (String × Mark) :=
  (c.mark? i e.wave.busy e.wave.world e.wave.timers).map (Prod.mk (e.wave.idAt i))

/-- The host has been told one notice more if the mark is one. -/
theorem Execution.notices_acts {o : Options} {e e' : Execution} {i : Nat} {c : Course}
    (hacts : e.Acts o i c e') :
    e'.wave.world.notices = e.wave.world.notices ++ Mark.notices (e.mark? i c).toList := by
  obtain ⟨v, ⟨-, -, hturn⟩, rfl⟩ := hacts
  rw [Course.notices_turn hturn, ← c.bind_notice?_mark? i e.wave.busy e.wave.world e.wave.timers, mark?]
  cases c.mark? i e.wave.busy e.wave.world e.wave.timers with
  | none => rfl
  | some m => cases m <;> rfl

namespace Graph

/-- The execution can come to this point in such a way that its turns leave these marks, in this
order. -/
inductive Chronicles (g : Graph) (context : Value) (mode : Mode) (o : Options) :
    List (String × Mark) → Execution → Prop
  | starts : Chronicles g context mode o [] (g.start context mode o)
  /-- A course has a turn. -/
  | acts {marks : List (String × Mark)} {e e' : Execution} {i : Nat} {c : Course}
      (h : Chronicles g context mode o marks e) (hacts : e.Acts o i c e') :
      Chronicles g context mode o (marks ++ (e.mark? i c).toList) e'
  /-- Something else happens. -/
  | rests {marks : List (String × Mark)} {e e' : Execution}
      (h : Chronicles g context mode o marks e) (hstep : Execution.Step o e e')
      (hrests : ∀ i c, ¬ e.Acts o i c e') : Chronicles g context mode o marks e'

variable {g : Graph} {o : Options} {e e' : Execution} {context : Value} {mode : Mode}
  {marks : List (String × Mark)}

/-- What a chronicle leads to is reached. -/
theorem Chronicles.reaches (h : g.Chronicles context mode o marks e) : g.Reaches context mode o e := by
  induction h with
  | starts => exact .refl
  | acts _ hacts ih => exact ih.tail hacts.step
  | rests _ hstep _ ih => exact ih.tail hstep

/-- Every way through an execution has its chronicle. -/
theorem Reaches.exists_chronicle (h : g.Reaches context mode o e) :
    ∃ marks, g.Chronicles context mode o marks e := by
  induction h with
  | refl => exact ⟨[], .starts⟩
  | @tail e e' _ hstep ih =>
    obtain ⟨marks, hmarks⟩ := ih
    by_cases hacts : ∃ i c, e.Acts o i c e'
    · obtain ⟨i, c, hacts⟩ := hacts
      exact ⟨_, hmarks.acts hacts⟩
    · exact ⟨marks, hmarks.rests hstep fun i c h => hacts ⟨i, c, h⟩⟩

/-- What the marks of an execution say. -/
structure Chronicled (g : Graph) (o : Options) (marks : List (String × Mark)) (e : Execution) :
    Prop where
  /-- The marks of a node are those that its course has played. -/
  plays : ∀ (k : Nat) (w : Wave), e.allWaves[k]? = some w → ∀ (i : Nat) (c : Course),
    w.courses[i]? = some c → ∃ n, (g.wave k)[i]? = some n ∧
      (Course.ofNode o.settings n).Plays o.observer n.id (Mark.ofNode n.id marks) c
  /-- No node of a wave to come has left a mark. -/
  known : ∀ m ∈ marks, ∃ k, k ≤ e.past.length ∧ g.InWave m.1 k
  /-- What has been settled is in the trace. -/
  settled : ∀ id index entry, (id, Mark.settles index entry) ∈ marks →
    entry ∈ e.wave.entries ∧ entry.nodeId = id ∧ entry.IsSettled
  /-- Where note has been taken of an end, the course has come to it. -/
  ended : ∀ w ∈ e.past, ∀ p ∈ w.endings, w.courses[p.1]? = some (.ended p.2)
  /-- The host has been told what the marks say. -/
  notices : e.wave.world.notices = Mark.notices marks

/-- The entry that a turn settles is in the trace behind it. -/
theorem Traced.entry_of_settles (h : g.Traced o e) {i : Nat} {c : Course} (hacts : e.Acts o i c e')
    {id : String} {index : Nat} {entry : Entry}
    (hmark : e.mark? i c = some (id, .settles index entry)) :
    entry ∈ e'.wave.entries ∧ entry.nodeId = id ∧ entry.IsSettled := by
  obtain ⟨v, ⟨-, hc, hturn⟩, rfl⟩ := hacts
  obtain ⟨_, hmark, heq⟩ := Option.map_eq_some_iff.1 hmark
  obtain ⟨rfl, rfl⟩ := Prod.mk.inj heq
  obtain ⟨change, next, old, rfl, hold, rfl⟩ := Course.eq_settle_of_mark? hmark
  obtain rfl := Option.some.inj hturn
  obtain ⟨old', hold', hchange⟩ := (h.logged.logs i _ hc).exists_of_settle
  obtain rfl := Option.some.inj (hold.symm.trans hold')
  refine ⟨List.mem_of_getElem? (i := index) ?_, hchange _⟩
  -- the trace behind the turn has the entry changed at its index
  change (e.wave.entries.modify index _)[index]? = _
  rw [List.getElem?_modify_eq, hold']
  rfl

/-- At the start there are no marks, and no courses that could have left any. -/
theorem chronicled_start (g : Graph) (context : Value) (mode : Mode) (o : Options) :
    g.Chronicled o [] (g.start context mode o) where
  plays k w hw i c hc := by
    rcases allWaves_getElem?.1 hw with hpast | ⟨-, rfl⟩
    · cases hpast
    · cases hc
  known m hm := absurd hm List.not_mem_nil
  settled _ _ _ hm := absurd hm List.not_mem_nil
  ended w hw := absurd hw List.not_mem_nil
  notices := rfl

namespace Chronicled

/-- A node of a wave so far has no part in the turn of a course in another place. -/
theorem ofNode_append_of_ne {i : Nat} {c : Course} {id : String} (h : e.wave.idAt i ≠ id) :
    Mark.ofNode id (marks ++ (e.mark? i c).toList) = Mark.ofNode id marks := by
  have hnone : Mark.ofNode id (e.mark? i c).toList = [] := by
    refine Mark.ofNode_of_ne fun m hm => ?_
    obtain ⟨_, -, rfl⟩ := Option.map_eq_some_iff.1 (Option.mem_toList.1 hm)
    exact h
  rw [Mark.ofNode_append, hnone, List.append_nil]

/-- A turn adds its mark to what the course has played. -/
theorem acts (h : g.Chronicled o marks e) (ht : g.Traced o e) {i : Nat} {c : Course}
    (hacts : e.Acts o i c e') : g.Chronicled o (marks ++ (e.mark? i c).toList) e' := by
  have hstep := hacts.step
  have hturned := hacts
  obtain ⟨v, @⟨before, after, t, hready, hc, hturn⟩, rfl⟩ := hturned
  obtain ⟨n, hn, hplays⟩ := h.plays e.past.length e.wave (allWaves_getElem?.2 (.inr ⟨rfl, rfl⟩)) i c hc
  have hid : e.wave.idAt i = n.id := Wave.idAt_eq ht.wave_ids hn
  have hwave : g.InWave (e.wave.idAt i) e.past.length :=
    hid ▸ (mem_wave.1 (List.mem_of_getElem? hn)).2
  have hlt : i < e.wave.courses.length := (List.getElem?_eq_some_iff.1 hc).1
  constructor
  case plays =>
    intro k w hw j d hd
    rcases allWaves_getElem?.1 hw with hpast | ⟨rfl, rfl⟩
    · obtain ⟨m, hm, hplayed⟩ := h.plays k w (allWaves_getElem?.2 (.inl hpast)) j d hd
      refine ⟨m, hm, ?_⟩
      rwa [ofNode_append_of_ne]
      -- the nodes of past waves are not those of the wave that is under way
      intro heq
      have hsame := (heq ▸ hwave).unique (mem_wave.1 (List.mem_of_getElem? hm)).2
      have hlt : k < e.past.length := (List.getElem?_eq_some_iff.1 hpast).1
      exact Nat.ne_of_gt hlt hsame
    · -- the marks of the course grow by this one, and those of the others stay as they are
      by_cases hj : j = i
      · subst hj
        rw [List.getElem?_set_self hlt] at hd
        obtain rfl := Option.some.inj hd
        refine ⟨n, hn, ?_⟩
        rw [Mark.ofNode_append, Execution.mark?, hid, Mark.ofNode_self]
        exact hplays.turns (hid ▸ ht.logged.logs j c hc) hturn
      · rw [List.getElem?_set_ne (Ne.symm hj)] at hd
        obtain ⟨m, hm, hplayed⟩ :=
          h.plays e.past.length e.wave (allWaves_getElem?.2 (.inr ⟨rfl, rfl⟩)) j d hd
        refine ⟨m, hm, ?_⟩
        rwa [ofNode_append_of_ne]
        have hne := ht.logged.idAt_ne (List.getElem?_eq_some_iff.1 hd).1 hlt (Ne.symm hj)
        rwa [Wave.idAt_eq ht.wave_ids hm] at hne
  case known =>
    intro m hm
    rcases List.mem_append.1 hm with hold | hnew
    · exact h.known m hold
    · obtain ⟨_, -, rfl⟩ := Option.map_eq_some_iff.1 (Option.mem_toList.1 hnew)
      exact ⟨e.past.length, Nat.le_refl _, hwave⟩
  case settled =>
    intro id index entry hm
    rcases List.mem_append.1 hm with hold | hnew
    · obtain ⟨hentry, hnode, hsettled⟩ := h.settled id index entry hold
      exact ⟨ht.mem_of_isSettled hstep hentry hsettled, hnode, hsettled⟩
    · exact ht.entry_of_settles hacts (Option.mem_toList.1 hnew)
  case ended => exact h.ended
  case notices =>
    rw [Execution.notices_acts hacts, h.notices, Mark.notices, Mark.notices, Mark.notices,
      List.filterMap_append]

/-- What is no turn leaves no mark. -/
theorem rests (h : g.Chronicled o marks e) (ht : g.Traced o e) (hstep : Execution.Step o e e')
    (hrests : ∀ i c, ¬ e.Acts o i c e') : g.Chronicled o marks e' := by
  have hsettled : ∀ id index entry, (id, Mark.settles index entry) ∈ marks →
      entry ∈ e'.wave.entries ∧ entry.nodeId = id ∧ entry.IsSettled := by
    intro id index entry hm
    obtain ⟨hentry, hnode, hsettled⟩ := h.settled id index entry hm
    exact ⟨ht.mem_of_isSettled hstep hentry hsettled, hnode, hsettled⟩
  have hnotices : e'.wave.world.notices = Mark.notices marks := by
    rcases hstep.acts_or with ⟨i, c, hacts⟩ | ⟨-, hevents⟩
    · exact absurd hacts (hrests i c)
    · rw [World.notices, hevents]
      exact h.notices
  cases hstep with
  | move hmove =>
    refine ⟨fun k w hw j d hd => ?_, h.known, hsettled, h.ended, hnotices⟩
    rcases allWaves_getElem?.1 hw with hpast | ⟨rfl, rfl⟩
    · exact h.plays k w (allWaves_getElem?.2 (.inl hpast)) j d hd
    · have hlt : j < e.wave.courses.length :=
        Wave.length_courses_move hmove ▸ (List.getElem?_eq_some_iff.1 hd).1
      have hc : e.wave.courses[j]? = some e.wave.courses[j] := List.getElem?_eq_getElem hlt
      obtain ⟨n, hn, hplays⟩ :=
        h.plays e.past.length e.wave (allWaves_getElem?.2 (.inr ⟨rfl, rfl⟩)) j _ hc
      -- the course has no turn, so it stays as it is, gets its permit or is woken
      rcases hmove.course_or hc with hacts | ⟨d', hd', hcase⟩
      · exact absurd ⟨_, hacts, rfl⟩ (hrests j _)
      · obtain rfl := Option.some.inj (hd'.symm.trans hd)
        exact ⟨n, hn, hplays.idles hcase⟩
  | @next nodes waves hover hwaves =>
    have hlength : (e.past ++ [e.wave]).length = e.past.length + 1 := List.length_append
    constructor
    case settled => exact hsettled
    case notices => exact hnotices
    case known =>
      intro m hm
      obtain ⟨k, hk, hwave⟩ := h.known m hm
      exact ⟨k, hlength ▸ Nat.le_succ_of_le hk, hwave⟩
    case ended =>
      intro w hw
      rcases List.mem_append.1 hw with hpast | hnow
      · exact h.ended w hpast
      · exact List.mem_singleton.1 hnow ▸ ht.inLine.ended
    case plays =>
      intro k w hw i c hc
      rcases allWaves_getElem?.1 hw with hall | ⟨rfl, rfl⟩
      · exact h.plays k w hall i c hc
      · rw [Wave.ofNodes, List.getElem?_map] at hc
        obtain ⟨n, hn, rfl⟩ := Option.map_eq_some_iff.1 hc
        rw [← ht.wave_succ hwaves] at hn
        refine ⟨n, hlength ▸ hn, ?_⟩
        rw [Mark.ofNode_of_ne]
        · exact .rests _
        · rintro m hm heq
          obtain ⟨k, hk, hwave⟩ := h.known m hm
          have hnow := (mem_wave.1 (List.mem_of_getElem? hn)).2
          have hsame := (heq ▸ hwave).unique hnow
          omega

end Chronicled

/-- Everywhere in an execution the marks of a node are those its course has played. -/
theorem Chronicles.chronicled (h : g.Chronicles context mode o marks e) :
    g.Chronicled o marks e := by
  induction h with
  | starts => exact g.chronicled_start context mode o
  | acts h hacts ih => exact ih.acts h.reaches.traced hacts
  | rests h hstep hrests ih => exact ih.rests h.reaches.traced hstep hrests

/-- Whatever came of a node, its course has played the marks of the node to that end. -/
theorem Chronicles.plays_of_mem_outcomes (h : g.Chronicles context mode o marks e) {id : String}
    {ending : Ending} (hmem : (id, ending) ∈ e.outcomes) :
    ∃ n ∈ g.nodes, n.id = id ∧ (Course.ofNode o.settings n).Plays o.observer id
      (Mark.ofNode id marks) (.ended ending) := by
  obtain ⟨l, hl, hp⟩ := List.mem_flatten.1 hmem
  obtain ⟨w, hw, rfl⟩ := List.mem_map.1 hl
  obtain ⟨⟨i, last⟩, hending, heq⟩ := List.mem_map.1 hp
  obtain ⟨rfl, hlast⟩ := Prod.mk.inj heq
  subst hlast
  obtain ⟨k, hk⟩ := List.mem_iff_getElem?.1 hw
  -- the wave that the outcome is of may be past or may be the present one
  have hended : w.courses[i]? = some (.ended last) := by
    rcases List.mem_append.1 hw with hpast | hnow
    · exact h.chronicled.ended w hpast _ hending
    · obtain rfl := List.mem_singleton.1 hnow
      exact h.reaches.traced.inLine.ended _ hending
  obtain ⟨n, hn, hplays⟩ := h.chronicled.plays k w hk i _ hended
  have hid : w.idAt i = n.id := h.reaches.traced.idAt_eq hk hn
  exact ⟨n, (mem_wave.1 (List.mem_of_getElem? hn)).1, hid.symm, hid ▸ hplays⟩

end Graph

end Wavefront
