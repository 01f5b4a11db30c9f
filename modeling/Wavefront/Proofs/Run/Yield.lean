/-
What work comes to: the value that it writes and ends with, whoever else has turns.

Work reads the context, makes its calls and writes what comes of them. If all that it can read is of
one kind, and every call returns the same value however often tools have been called before, then
what it writes is settled from the start, and so is what it ends with. A turn of such work either
leaves the context alone, or it is the one that writes. Nothing it does depends on how long its
calls take.
-/
import Mathlib.Data.List.Forall2
import Wavefront.Proofs.Run.Turn
import Wavefront.Task

set_option autoImplicit false

namespace Wavefront

/-! ## Fan-outs -/

variable [Schema.Validator]

/-- The call returns the value, whenever it is made. -/
def Call.Gives (c : Call) (v : Value) : Prop :=
  c.tool.check c.params = .ok () ∧ ∀ n, (c.tool.react n c.params c.scope).outcome = .returned v

/-- The call returns the value, or has returned it. -/
def Held.Gives (h : Held) (v : Value) : Prop :=
  match h.stage with
  | .fresh => h.call.Gives v
  | .running outcome | .awake outcome => outcome = .returned v
  | .ended result => result = .ok v

namespace Fanout

/-- The results will be these values, in the order of the calls. -/
structure Gives (f : Fanout) (vs : List Value) : Prop where
  width : 0 < f.width
  full : f.held = [] → f.untaken = []
  values : ∃ held untaken, List.Forall₂ Held.Gives f.held held ∧
    List.Forall₂ Call.Gives f.untaken untaken ∧ vs = f.results ++ (held ++ untaken)

/-- Calls that have not begun come to what they give. -/
theorem forall₂_fresh {calls : List Call} {vs : List Value} (h : List.Forall₂ Call.Gives calls vs) :
    List.Forall₂ Held.Gives (calls.map fun call => { call := call }) vs := by
  rw [List.forall₂_map_left_iff]
  exact h.imp fun _ _ hgives => hgives

omit [Schema.Validator] in
/-- A fan-out that holds nothing when it has been filled has nothing left. -/
theorem untaken_fill {f : Fanout} (hwidth : 0 < f.width) (h : f.fill.held = []) :
    f.fill.untaken = [] := by
  obtain ⟨hnil, htake⟩ := List.append_eq_nil_iff.1 h
  have hroom : f.width - f.held.length ≠ 0 := by
    rw [hnil, List.length_nil]
    omega
  have hnone : f.untaken = [] :=
    (List.take_eq_nil_iff.1 (List.map_eq_nil_iff.1 htake)).resolve_left hroom
  rw [fill, hnone, List.drop_nil]

omit [Schema.Validator] in
/-- What is collected is the value of the oldest call. -/
theorem oldest_of_collect {f : Fanout} {v : Value} (hn : f.next = .collect v) :
    ∃ call rest, f.held = ⟨call, .ended (.ok v)⟩ :: rest := by
  unfold next at hn
  split at hn
  · cases hn
  · cases hn
  -- of all demands only this one collects: the oldest call has ended with a value
  · rename_i u rest hheld
    obtain rfl := Demand.collect.inj hn
    exact ⟨_, rest, hheld⟩
  · split at hn
    · cases hn
    · split at hn <;> cases hn

omit [Schema.Validator] in
/-- A fan-out has ended when it holds nothing, or when its oldest call has failed. -/
theorem oldest_of_finish {f : Fanout} {r : Except Error (List Value)} (hn : f.next = .finish r) :
    (f.held = [] ∧ r = .ok f.results) ∨
      ∃ call e rest, f.held = ⟨call, .ended (.error e)⟩ :: rest ∧ r = .error e := by
  unfold next at hn
  split at hn
  -- nothing is held any more, or the oldest call has failed
  · rename_i hnil
    exact .inl ⟨hnil, (Demand.finish.inj hn).symm⟩
  · rename_i e rest hheld
    exact .inr ⟨_, e, rest, hheld, (Demand.finish.inj hn).symm⟩
  · cases hn
  · split at hn
    · cases hn
    · split at hn <;> cases hn

/-- Calls that are taken give what they gave before. -/
theorem Gives.fill {f : Fanout} {vs held untaken : List Value} (hwidth : 0 < f.width)
    (hheld : List.Forall₂ Held.Gives f.held held)
    (huntaken : List.Forall₂ Call.Gives f.untaken untaken)
    (hvs : vs = f.results ++ (held ++ untaken)) : f.fill.Gives vs where
  width := hwidth
  full := untaken_fill hwidth
  values := by
    refine ⟨held ++ untaken.take (f.width - f.held.length),
      untaken.drop (f.width - f.held.length), ?_, List.forall₂_drop _ huntaken, ?_⟩
    · exact List.rel_append hheld (forall₂_fresh (List.forall₂_take _ huntaken))
    · rw [List.append_assoc, List.take_append_drop]
      exact hvs

theorem gives_ofCalls (width : Nat) {calls : List Call} {vs : List Value}
    (h : List.Forall₂ Call.Gives calls vs) : (ofCalls width calls).Gives vs :=
  .fill (Nat.lt_of_lt_of_le Nat.one_pos (Nat.le_max_right width 1)) .nil h rfl

/-- A held call gives what it gave before when its stage has changed. -/
theorem forall₂_modify {held : List Held} {vs : List Value} (h : List.Forall₂ Held.Gives held vs)
    {change : Held → Held} {place : Nat}
    (hchange : ∀ (a : Held) (v : Value), held[place]? = some a → a.Gives v → (change a).Gives v) :
    List.Forall₂ Held.Gives (held.modify place change) vs := by
  induction h generalizing place with
  | nil =>
    rw [List.modify_nil]
    exact .nil
  | @cons a v held vs hav h ih =>
    cases place with
    | zero => exact .cons (hchange a v rfl hav) h
    | succ place => exact .cons hav (ih fun b u hb => hchange b u hb)

/-- What happens to one place keeps the values, if the place comes to the same. -/
theorem Gives.modify {f : Fanout} {vs : List Value} (h : f.Gives vs) {change : Held → Held}
    {place : Nat}
    (hchange : ∀ (a : Held) (v : Value), f.held[place]? = some a → a.Gives v → (change a).Gives v) :
    Gives { f with held := f.held.modify place change } vs := by
  obtain ⟨held, untaken, hheld, huntaken, hvs⟩ := h.values
  refine ⟨h.width, fun hnil => h.full ?_, held, untaken, forall₂_modify hheld hchange, huntaken, hvs⟩
  exact List.modify_eq_nil_iff.1 hnil

/-- Waking a call keeps the values. -/
theorem Gives.wake {f : Fanout} {vs : List Value} (h : f.Gives vs) (number : Nat) :
    (f.wake number).Gives vs := by
  refine h.modify fun a v _ hav => ?_
  obtain ⟨call, stage⟩ := a
  cases stage with
  | running outcome => exact hav
  | _ => exact hav

/-- Every place that is held comes to some value. -/
theorem exists_of_getElem? {held : List Held} {vs : List Value}
    (h : List.Forall₂ Held.Gives held vs) {place : Nat} {a : Held} (ha : held[place]? = some a) :
    ∃ v, a.Gives v := by
  obtain ⟨hplace, rfl⟩ := List.getElem?_eq_some_iff.1 ha
  have hlength := h.length_eq
  exact ⟨_, (List.forall₂_iff_get.1 h).2 place hplace (hlength ▸ hplace)⟩

/-- A fan-out whose calls all give values finishes with these. -/
theorem Gives.of_finish {f : Fanout} {vs : List Value} (h : f.Gives vs)
    {r : Except Error (List Value)} (hn : f.next = .finish r) : r = .ok vs := by
  obtain ⟨held, untaken, hheld, huntaken, hvs⟩ := h.values
  rcases oldest_of_finish hn with ⟨hnil, rfl⟩ | ⟨call, e, rest, hcons, -⟩
  · rw [hnil] at hheld
    rw [h.full hnil] at huntaken
    cases hheld
    cases huntaken
    rw [hvs, List.append_nil, List.append_nil]
  -- no call that gives a value has failed
  · rw [hcons] at hheld
    cases hheld with
    | cons hfirst _ => cases hfirst

/-- Collecting a value keeps the values. -/
theorem Gives.collect {f : Fanout} {vs : List Value} (h : f.Gives vs) {v : Value}
    (hn : f.next = .collect v) : (f.collect v).Gives vs := by
  obtain ⟨held, untaken, hheld, huntaken, hvs⟩ := h.values
  obtain ⟨call, rest, hcons⟩ := oldest_of_collect hn
  rw [hcons] at hheld
  cases hheld with
  | @cons _ u _ held hfirst hheld =>
    obtain rfl : v = u := Except.ok.inj hfirst
    have htail : List.Forall₂ Held.Gives f.held.tail held := by
      rw [hcons]
      exact hheld
    refine .fill h.width htail huntaken ?_
    rw [hvs, List.append_assoc]
    rfl

/-- A call gives its value at another stage too, if that comes to the same. -/
theorem Gives.setStage {f : Fanout} {vs : List Value} (h : f.Gives vs) {place : Nat} {a : Held}
    (ha : f.held[place]? = some a) {stage : Stage}
    (hstage : ∀ v, a.Gives v → (Held.mk a.call stage).Gives v) : (f.setStage place stage).Gives vs := by
  refine h.modify fun b v hb hv => ?_
  obtain rfl := Option.some.inj (ha.symm.trans hb)
  exact hstage v hv

/-- Every call that is held comes to some value. -/
theorem Gives.exists_of_held {f : Fanout} {vs : List Value} (h : f.Gives vs) {place : Nat} {a : Held}
    (ha : f.held[place]? = some a) : ∃ v, a.Gives v := by
  obtain ⟨_, _, hheld, _, _⟩ := h.values
  exact exists_of_getElem? hheld ha

end Fanout

/-! ## Work -/

/-- If all that is read is of one kind, the work writes the value at the path and ends with it. -/
def Work.Yields (reads : Value → Prop) (path : String) (v : Value) :
    Work (Except Error Value) → Prop
  | .done _ => False
  | .read next => ∀ c, reads c → (next c).Yields reads path v
  | .write at' value next => at' = path ∧ value = v ∧ next none = .done (.ok v)
  | .gather f next => ∃ vs, f.Gives vs ∧ (next (.ok vs)).Yields reads path v

/-- Work that needs less yields the same. -/
theorem Work.Yields.mono {reads others : Value → Prop} {path : String} {v : Value}
    {work : Work (Except Error Value)} (h : work.Yields reads path v) (hsub : ∀ c, others c → reads c) :
    work.Yields others path v := by
  induction work with
  | done r => exact h
  | read next ih => exact fun c hc => ih c (h c (hsub c hc))
  | write at' value next ih => exact h
  | gather f next ih =>
    obtain ⟨vs, hf, hnext⟩ := h
    exact ⟨vs, hf, ih _ hnext⟩

/-- A turn of work leaves the context alone, or it is the one that writes. -/
theorem Work.yields_turn {work : Work (Except Error Value)} {reads : Value → Prop} {path : String}
    {v : Value} (h : work.Yields reads path v) {course busy : Nat} {w : World}
    (hreads : reads w.context) {timers : List Timer} {t : Turn Advance}
    (ht : work.turn course busy w timers = some t) :
    (∃ work', t.next = .on work' ∧ work'.Yields reads path v ∧ t.world.context = w.context) ∨
      (t.world.context = (w.context.set path v).tree ∧
        ((w.context.set path v).fault = none → t.next = .on (.done (.ok v)))) := by
  cases turns_of_turn ht with
  | reads next => exact .inl ⟨_, rfl, h _ hreads, rfl⟩
  | writes at' value next =>
    obtain ⟨rfl, rfl, hnext⟩ := h
    refine .inr ⟨rfl, fun hfault => ?_⟩
    simp only [hfault, hnext]
  | finishes next hn =>
    obtain ⟨vs, hf, hnext⟩ := h
    obtain rfl := hf.of_finish hn
    exact .inl ⟨_, rfl, hnext, rfl⟩
  | collects next hn =>
    obtain ⟨vs, hf, hnext⟩ := h
    exact .inl ⟨_, rfl, ⟨vs, hf.collect hn, hnext⟩, rfl⟩
  -- the tool accepts the parameters of a call that gives a value, so it is not refused
  | refuses next hn hcheck =>
    obtain ⟨vs, hf, hnext⟩ := h
    obtain ⟨u, hu⟩ := hf.exists_of_held (Fanout.held_of_start hn)
    cases hcheck.symm.trans hu.1
  | begins next hn _ _ =>
    obtain ⟨vs, hf, hnext⟩ := h
    exact .inl ⟨_, rfl, ⟨vs, hf.setStage (Fanout.held_of_start hn) fun u hu => hu.2 _, hnext⟩, rfl⟩
  | returns next hn _ _ hresult =>
    obtain ⟨vs, hf, hnext⟩ := h
    refine .inl ⟨_, rfl, ⟨vs, hf.setStage (Fanout.held_of_start hn) fun u hu => ?_, hnext⟩, rfl⟩
    rw [World.reaction, hu.2] at hresult
    exact (Except.ok.inj hresult).symm
  -- nor does it panic, at once or after a while
  | upsets next hn _ _ hresult =>
    obtain ⟨vs, hf, hnext⟩ := h
    obtain ⟨u, hu⟩ := hf.exists_of_held (Fanout.held_of_start hn)
    rw [World.reaction, hu.2] at hresult
    cases hresult
  | @concludes _ _ _ outcome _ next hn hresult =>
    obtain ⟨vs, hf, hnext⟩ := h
    refine .inl ⟨_, rfl, ⟨vs, hf.setStage (Fanout.held_of_conclude hn) fun u hu => ?_, hnext⟩, rfl⟩
    obtain rfl : outcome = .returned u := hu
    exact (Except.ok.inj hresult).symm
  | @panics _ _ _ outcome _ next hn hresult =>
    obtain ⟨vs, hf, hnext⟩ := h
    obtain ⟨u, hu⟩ := hf.exists_of_held (Fanout.held_of_conclude hn)
    obtain rfl : outcome = .returned u := hu
    cases hresult

/-! ## Tasks -/

omit [Schema.Validator] in
/-- Doing nothing behind some work is no more work. -/
theorem Work.andThen_done {α : Type} (w : Work α) : w.andThen .done = w := by
  induction w with
  | done a => rfl
  | read next ih => exact congrArg Work.read (funext ih)
  | write path value next ih => exact congrArg (Work.write path value) (funext ih)
  | gather f next ih => exact congrArg (Work.gather f) (funext ih)

omit [Schema.Validator] in
/-- Three pieces of work in a row, put together either way. -/
theorem Work.andThen_assoc {α β γ : Type} (w : Work α) (f : α → Work β) (g : β → Work γ) :
    (w.andThen f).andThen g = w.andThen fun a => (f a).andThen g := by
  induction w with
  | done a => rfl
  | read next ih => exact congrArg Work.read (funext ih)
  | write path value next ih => exact congrArg (Work.write path value) (funext ih)
  | gather f next ih => exact congrArg (Work.gather f) (funext ih)

instance : LawfulMonad Work := .mk' Work Work.andThen_done (fun _ _ => rfl) Work.andThen_assoc

omit [Schema.Validator] in
/-- A sequence of actions begins with the first of them. -/
theorem Action.forEach_cons_bind {α β γ : Type} (f : α → Action β) (a : α) (rest : List α)
    (next : List β → Action γ) :
    Action.forEach f (a :: rest) >>= next
      = f a >>= fun b => Action.forEach f rest >>= fun bs => next (b :: bs) := by
  simp only [Action.forEach, bind_assoc, pure_bind]

/-- The tool takes the parameters and returns the value, whenever and wherever it is called. -/
def Tool.Answers (t : Tool) (params v : Value) : Prop :=
  t.check params = .ok () ∧ ∀ n scope, (t.react n params scope).outcome = .returned v

theorem Tool.Answers.gives {t : Tool} {params v : Value} (h : t.Answers params v) (scope : Value) :
    Call.Gives ⟨t, params, scope⟩ v := ⟨h.1, fun n => h.2 n scope⟩

namespace Task

/-- The scope that a tool is called in, in a context. -/
def scope (binding : Option (String × Value)) (c : Value) : Value :=
  match binding with
  | some (name, value) => c.bind name value
  | none => c

/-- The parameters that a tool is called with, in a context. -/
def params (c : Value) : Task → Value
  | toolCall _ input _ binding => (scope binding c).substitute input
  | _ => .null

/-- A call writes and returns what its tool answers, in all contexts that give it the same
parameters. -/
theorem yields_toolCall {tool : Tool} {p v : Value} (h : tool.Answers p v) (s : Settings)
    (node : String) (input : Value) (target : String) (binding : Option (String × Value)) :
    ((toolCall tool input target binding).work s node).run.Yields
      (fun d => (toolCall tool input target binding).params d = p) target v := by
  rintro d rfl
  exact ⟨[v], Fanout.gives_ofCalls 1 (.cons (h.gives (scope binding d)) .nil), rfl, rfl, rfl⟩

/-- Values read in a row are those of the one context that is read. -/
theorem yields_forEach_valueAt {c : Value} {reads : Value → Prop} {target : String} {v : Value}
    (hreads : ∀ d, reads d → d = c) {paths : List String} {next : List Value → Action Value}
    (h : (next (paths.map fun path => (c.resolve path).getD .null)).run.Yields reads target v) :
    (Action.forEach Action.valueAt paths >>= next).run.Yields reads target v := by
  induction paths generalizing next with
  | nil => exact h
  | cons path paths ih =>
    rw [Action.forEach_cons_bind]
    intro d hd
    obtain rfl := hreads d hd
    exact ih h

/-- A gathering of a list writes and returns the values at its paths. -/
theorem yields_aggregate (s : Settings) (node : String) (paths : List String) (target : String)
    (c : Value) :
    ((aggregate (.list paths) target).work s node).run.Yields (fun d => d = c) target
      (.array (paths.map fun path => (c.resolve path).getD .null)) := by
  have hwork : (aggregate (.list paths) target).work s node
      = Action.forEach Action.valueAt paths >>= fun vs => Action.conclude target (.array vs) := by
    simp only [work, Gathering.collect, bind_assoc, pure_bind]
  rw [hwork]
  exact yields_forEach_valueAt (fun d hd => hd) ⟨rfl, rfl, rfl⟩

/-- A loop over items that are known only now writes and returns the values of its calls, in the
order of the items. -/
theorem yields_dynamicLoop {step : LoopStep} {tool : Tool} {c : Value} {xs vs : List Value}
    (hitems : c.deref step.items = some (.array xs))
    (hgives : List.Forall₂ (fun x v => (step.callFor tool c x).Gives v) xs vs) (s : Settings)
    (node : String) :
    ((dynamicLoop step tool).work s node).run.Yields (fun d => d = c) step.outputKey (.array vs) := by
  rintro d rfl
  have hok : itemsOf node "over" step.items d = .ok xs := by rw [itemsOf, hitems]
  have hcalls : List.Forall₂ Call.Gives (xs.map (step.callFor tool d)) vs :=
    List.forall₂_map_left_iff.2 hgives
  have hyields : Work.Yields (fun e => e = d) step.outputKey (.array vs) (ExceptT.run (do
      let items ← MonadExcept.ofExcept (Except.ok xs)
      let results ← Action.gather (s.widthFor step.concurrency) (items.map (step.callFor tool d))
      Action.conclude step.outputKey (.array results))) :=
    ⟨vs, Fanout.gives_ofCalls _ hcalls, rfl, rfl, rfl⟩
  -- the items found are put back as the look-up that found them
  rw [← hok] at hyields
  exact hyields

end Task

end Wavefront
