/-
Loops and reduce steps map their items in order, all or nothing.

Calls are begun side by side and come to their ends in any order, but their results are collected in
the order of the items. What has been collected are always the values of the first items, and every
call that is held comes to the result of its own item. So a fan-out ends with all values in their
order, or with the error of the first item that has one, and which other items have failed by then
does not show. The array is written only when all values are there, in the last turn.

Nothing is assumed of the tool but that no call panics, and nothing of what others do: what a call
comes to may depend on all that happened before it.
-/
import Wavefront.Proofs.Run.Performance
import Wavefront.Schema.Reader

set_option autoImplicit false

namespace Wavefront

/-- If the turn began a call, the call comes to the result of its number. -/
def Deed.Answers [Schema.Validator] (results : List (Except Error Value)) (d : Deed) : Prop :=
  ∀ number call, d.begun = some (number, call) →
    ∃ r, results[number]? = some r ∧ d.found.answer call = .ok r

/-! ## Fan-outs -/

namespace Fanout

variable {f g : Fanout} {results : List (Except Error Value)} {calls : List Call}

/-- The first results are those that have been collected, and every call that is held comes to the
result of its number. -/
structure Collects (f : Fanout) (results : List (Except Error Value)) : Prop where
  width : 0 < f.width
  full : f.held = [] → f.untaken = []
  length : results.length = f.results.length + (f.held.length + f.untaken.length)
  collected : results.take f.results.length = f.results.map .ok
  tends : ∀ place h, f.held[place]? = some h → ∀ r, results[f.number place]? = some r → h.Tends r

/-- The oldest call, if it has ended, has come to the first result that has not been collected. -/
theorem Collects.getElem?_of_ended (h : f.Collects results) {call : Call}
    {result : Except Error Value} {rest : List Held} (hheld : f.held = ⟨call, .ended result⟩ :: rest) :
    results[f.results.length]? = some result := by
  have hlength := h.length
  rw [hheld, List.length_cons] at hlength
  have hlt : f.results.length < results.length := by omega
  have hfirst : f.held[0]? = some ⟨call, .ended result⟩ := by
    rw [hheld]
    rfl
  have htends : (Held.mk call (.ended result)).Tends results[f.results.length] :=
    h.tends 0 _ hfirst _ (List.getElem?_eq_getElem hlt)
  have hresult : result = results[f.results.length] := htends
  rw [List.getElem?_eq_getElem hlt, hresult]

/-- Of calls that are taken nothing has to be known. -/
theorem Collects.fill (hwidth : 0 < f.width)
    (hlength : results.length = f.results.length + (f.held.length + f.untaken.length))
    (hcollected : results.take f.results.length = f.results.map .ok)
    (htends : ∀ place h, f.held[place]? = some h → ∀ r, results[f.number place]? = some r → h.Tends r) :
    f.fill.Collects results where
  width := hwidth
  full := untaken_fill hwidth
  length := by
    rw [hlength]
    simp only [Fanout.fill, List.length_append, List.length_map, List.length_take, List.length_drop]
    omega
  collected := hcollected
  tends place h hplace r hr := by
    by_cases hlt : place < f.held.length
    · exact htends place h ((List.getElem?_append_left hlt).symm.trans hplace) r hr
    · -- a call that was only taken now has not begun
      have hfresh := List.mem_of_getElem?
        ((List.getElem?_append_right (Nat.le_of_not_lt hlt)).symm.trans hplace)
      obtain ⟨call, -, rfl⟩ := List.mem_map.1 hfresh
      exact trivial

/-- A fan-out begins with nothing collected and nothing held that has begun. -/
theorem collects_ofCalls (width : Nat) (hlength : results.length = calls.length) :
    (ofCalls width calls).Collects results := by
  refine .fill (Nat.lt_of_lt_of_le Nat.one_pos (Nat.le_max_right width 1)) ?_ rfl ?_
  · rw [hlength, List.length_nil, List.length_nil, Nat.zero_add, Nat.zero_add]
  · intro place h hplace
    cases hplace

/-- Of a held call everything may change but what it comes to. -/
theorem Collects.modify (h : f.Collects results) {place : Nat} {change : Held → Held}
    (hchange : ∀ a r, f.held[place]? = some a → results[f.number place]? = some r → a.Tends r →
      (change a).Tends r) :
    Collects { f with held := f.held.modify place change } results where
  width := h.width
  full hnil := h.full (List.modify_eq_nil_iff.1 hnil)
  length := by
    rw [List.length_modify]
    exact h.length
  collected := h.collected
  tends i b hb r hr := by
    rw [List.getElem?_modify] at hb
    obtain ⟨a, ha, rfl⟩ := Option.map_eq_some_iff.1 hb
    have htends := h.tends i a ha r hr
    split
    · rename_i heq
      subst heq
      exact hchange a r ha hr htends
    · exact htends

/-- The value that is collected is the first result that had not been. -/
theorem Collects.collect (h : f.Collects results) {v : Value} (hn : f.next = .collect v) :
    (f.collect v).Collects results := by
  obtain ⟨call, rest, hheld⟩ := oldest_of_collect hn
  have hfirst := h.getElem?_of_ended hheld
  have hlength := h.length
  rw [hheld, List.length_cons] at hlength
  refine .fill h.width ?_ ?_ fun place a ha r hr => ?_
  · simp only [hheld, List.length_append, List.length_singleton, List.tail_cons]
    omega
  · simp only [List.length_append, List.length_singleton]
    -- the value collected is the next one in the order of the items
    rw [List.take_add_one, h.collected, hfirst, List.map_append]
    rfl
  · -- every other call moves up a place, and keeps its number
    rw [List.getElem?_tail] at ha
    refine h.tends (place + 1) a ha r ?_
    have hnumber : f.number (place + 1) = (f.results ++ [v]).length + place := by
      rw [number, List.length_append, List.length_singleton]
      omega
    rw [hnumber]
    exact hr

variable [Schema.Validator]

/-- What happens to a fan-out whose calls come to their results. -/
theorem Collects.goes (h : f.Collects results) {d : Option Deed} (hgoes : f.Goes d g)
    (hd : ∀ e ∈ d, e.Answers results) : g.Collects results := by
  cases hgoes with
  | collects hn _ => exact h.collect hn
  | @begins place call stage found left hn _ hstage =>
    -- before this turn nothing was known of the call; now its deed says what it comes to
    refine h.modify fun a r ha hr _ => ?_
    obtain ⟨r', hr', hanswer⟩ := hd _ rfl _ _ rfl
    obtain rfl := Option.some.inj (hr'.symm.trans hr)
    obtain rfl := Option.some.inj ((held_of_start hn).symm.trans ha)
    exact hstage r' hanswer
  | @concludes place call outcome result hn hresult _ =>
    refine h.modify fun a r ha _ htends => ?_
    obtain rfl := Option.some.inj ((held_of_conclude hn).symm.trans ha)
    exact Except.ok.inj (hresult.symm.trans htends)
  | wakes place =>
    refine h.modify fun a r _ _ htends => ?_
    obtain ⟨call, stage⟩ := a
    cases stage <;> exact htends

omit [Schema.Validator] in
/-- The fan-out ends with all values in their order, or with the first error. -/
theorem Collects.of_finish (h : f.Collects results) {r : Except Error (List Value)}
    (hn : f.next = .finish r) :
    (∃ values : List Value, results = values.map .ok ∧ r = .ok values) ∨
      ∃ (values : List Value) (e : Error) (rest : List (Except Error Value)),
        results = values.map .ok ++ .error e :: rest ∧ r = .error e := by
  rcases oldest_of_finish hn with ⟨hnil, rfl⟩ | ⟨call, e, rest, hheld, rfl⟩
  · -- nothing is held, so nothing is left to be taken, and all results have been collected
    have hlength := h.length
    rw [hnil, h.full hnil, List.length_nil, List.length_nil] at hlength
    refine .inl ⟨f.results, ?_, rfl⟩
    rw [← h.collected]
    exact (List.take_of_length_le (Nat.le_of_eq hlength)).symm
  · obtain ⟨hlt, hfirst⟩ := List.getElem?_eq_some_iff.1 (h.getElem?_of_ended hheld)
    refine .inr ⟨f.results, e, results.drop (f.results.length + 1), ?_, rfl⟩
    rw [← h.collected, ← hfirst, List.getElem_cons_drop, List.take_append_drop]

/-- What a turn leaves are still calls of those it began with. -/
theorem Leaves.goes (h : f.Leaves calls) {d : Option Deed} (hgoes : f.Goes d g) : g.Leaves calls := by
  cases hgoes with
  | collects hn _ => exact h.collect hn
  | begins _ _ _ => exact h.setStage _ _
  | concludes _ _ _ => exact h.setStage _ _
  | wakes place => exact h.wake _

/-- A call that is begun is the one of its number. -/
theorem Leaves.getElem?_of_begins (h : f.Leaves calls) {d : Option Deed} (hgoes : f.Goes d g) :
    ∀ e ∈ d, ∀ number call, e.begun = some (number, call) → calls[number]? = some call := by
  intro e he number call hbegun
  cases hgoes with
  | @begins place c stage found left hn _ _ =>
    obtain rfl := Option.some.inj he
    obtain ⟨rfl, rfl⟩ := Prod.mk.inj (Option.some.inj hbegun)
    have hplace := held_of_start hn
    have hcall : f.calls[place]? = some c := by
      rw [Fanout.calls, List.getElem?_append_left, List.getElem?_map, hplace]
      · rfl
      · rw [List.length_map]
        exact (List.getElem?_eq_some_iff.1 hplace).1
    -- numbers count from the first call of all, places from the first one that is left
    rw [h, List.getElem?_drop] at hcall
    exact hcall
  | collects _ _ =>
    obtain rfl := Option.some.inj he
    cases hbegun
  | concludes _ _ _ =>
    obtain rfl := Option.some.inj he
    cases hbegun
  | wakes _ => cases he

end Fanout

/-! ## All values in their order, or the first error -/

/-- Where every item has a value, all values are the result. -/
theorem mapM_map_ok (values : List Value) :
    (values.map (.ok : Value → Except Error Value)).mapM id = .ok values := by
  induction values with
  | nil => rfl
  | cons v values ih =>
    rw [List.map_cons, List.mapM_cons, ih]
    rfl

/-- The error of the first item that has one is the result. -/
theorem mapM_map_ok_append_error (values : List Value) (e : Error)
    (rest : List (Except Error Value)) :
    (values.map Except.ok ++ Except.error e :: rest).mapM id = .error e := by
  induction values with
  | nil =>
    rw [List.map_nil, List.nil_append, List.mapM_cons]
    rfl
  | cons v values ih =>
    rw [List.map_cons, List.cons_append, List.mapM_cons, ih]
    rfl

/-! ## Carrying a mapping out -/

/-- The turn spared the context, and the call that it began, if it began one, is that of its
number. -/
def Deed.Serves (calls : List Call) (d : Deed) : Prop :=
  d.Spares ∧ ∀ number call, d.begun = some (number, call) → calls[number]? = some call

/-- Goes on with what a fan-out has come to: writes the array of the values, or fails. -/
def Action.concludeAll (target : String) : Except Error (List Value) → Work (Except Error Value)
  | .ok values => (Action.conclude target (.array values)).run
  | .error e => .done (.error e)

/-- A task that calls a tool for every item of a list has come to this by these turns. The calls are
those for the items, and the results are what they come to. -/
inductive Carries (target : String) (calls : List Call) (results : List (Except Error Value)) :
    List Deed → Work (Except Error Value) → Prop
  /-- The calls are under way. -/
  | gathers {ds : List Deed} {f : Fanout} (hds : ∀ d ∈ ds, d.Serves calls)
      (hcollects : f.Collects results) (hleaves : f.Leaves calls) :
      Carries target calls results ds (.gather f (Action.concludeAll target))
  /-- All calls have returned. -/
  | returned {ds : List Deed} {values : List Value} (hds : ∀ d ∈ ds, d.Serves calls)
      (hresults : results = values.map .ok) :
      Carries target calls results ds (Action.conclude target (.array values)).run
  /-- Their values have been written, or the write has stopped. -/
  | wrote {ds : List Deed} {values : List Value} {last : Deed} {r : Except Error Value}
      (hds : ∀ d ∈ ds, d.Serves calls) (hresults : results = values.map .ok)
      (hbegun : last.begun = none)
      (hwrite : last.left.context = (last.found.context.set target (.array values)).tree)
      (hnone : (last.found.context.set target (.array values)).fault = none → r = .ok (.array values))
      (hsome : ∀ fault, (last.found.context.set target (.array values)).fault = some fault →
        r = .error (.path fault)) :
      Carries target calls results (ds ++ [last]) (.done r)
  /-- A call has failed. -/
  | failed {ds : List Deed} {values : List Value} {e : Error} {rest : List (Except Error Value)}
      (hds : ∀ d ∈ ds, d.Serves calls) (hresults : results = values.map .ok ++ .error e :: rest) :
      Carries target calls results ds (.done (.error e))

namespace Carries

variable {target : String} {calls : List Call} {results : List (Except Error Value)}
  {ds es : List Deed} {d : Option Deed} {work v : Work (Except Error Value)}

/-- A turn of a mapping whose calls come to their results keeps it one. -/
theorem goes [Schema.Validator] (h : Carries target calls results ds work) (hgoes : work.Goes d v)
    (hd : ∀ e ∈ d, e.Answers results) : Carries target calls results (ds ++ d.toList) v := by
  -- a turn that is neither a write nor the beginning of a call
  have hmore : ∀ w : World, (∀ d ∈ ds, d.Serves calls) →
      ∀ d ∈ ds ++ (some (Deed.mk w w none)).toList, d.Serves calls := by
    intro w hds
    refine List.forall_mem_append.2 ⟨hds, List.forall_mem_singleton.2 ⟨rfl, ?_⟩⟩
    intro number call hbegun
    cases hbegun
  cases h with
  | @gathers _ f hds hcollects hleaves =>
    rcases hgoes.of_gather with ⟨g, hg, rfl⟩ | ⟨r, w, hn, rfl, rfl⟩
    · refine .gathers (List.forall_mem_append.2 ⟨hds, fun e he => ?_⟩) (hcollects.goes hg hd)
        (hleaves.goes hg)
      have he := Option.mem_toList.1 he
      exact ⟨hg.spares e he, hleaves.getElem?_of_begins hg e he⟩
    · rcases hcollects.of_finish hn with ⟨values, hresults, rfl⟩ | ⟨values, e, rest, hresults, rfl⟩
      · exact .returned (hmore w hds) hresults
      · exact .failed (hmore w hds) hresults
  | @returned _ values hds hresults =>
    obtain ⟨w, rfl, rfl⟩ := Work.Goes.of_write hgoes
    cases hfault : (w.context.set target (.array values)).fault with
    | none =>
      refine .wrote hds hresults rfl rfl (fun _ => rfl) fun fault hsome => ?_
      cases hfault.symm.trans hsome
    | some fault =>
      refine .wrote hds hresults rfl rfl (fun hnone => ?_) fun fault' hsome => ?_
      · cases hfault.symm.trans hnone
      · obtain rfl := Option.some.inj (hfault.symm.trans hsome)
        rfl
  | wrote _ _ _ _ _ _ => exact hgoes.of_done.elim
  | failed _ _ => exact hgoes.of_done.elim

/-- Any number of turns keep it one. -/
theorem performs [Schema.Validator] (h : Carries target calls results ds work)
    (hperforms : work.Performs es v)
    (hes : ∀ e ∈ es, e.Answers results) : Carries target calls results (ds ++ es) v := by
  induction hperforms generalizing ds with
  | refl _ =>
    rw [List.append_nil]
    exact h
  | head hgoes _ ih =>
    obtain ⟨hd, hes⟩ := List.forall_mem_append.1 hes
    rw [← List.append_assoc]
    exact ih (h.goes hgoes fun e he => hd e (Option.mem_toList.2 he)) hes

/-! ### What it comes to -/

/-- Every call that was begun is that of the item with its number. -/
theorem serves (h : Carries target calls results ds v) :
    ∀ d ∈ ds, ∀ number call, d.begun = some (number, call) → calls[number]? = some call := by
  cases h with
  | gathers hds _ _ => exact fun d hd => (hds d hd).2
  | returned hds _ => exact fun d hd => (hds d hd).2
  | failed hds _ => exact fun d hd => (hds d hd).2
  | wrote hds _ hbegun _ _ _ =>
    refine List.forall_mem_append.2 ⟨fun d hd => (hds d hd).2, List.forall_mem_singleton.2 ?_⟩
    intro number call hcall
    cases hbegun.symm.trans hcall

/-- Whatever is held comes to a result, so no call panics. -/
theorem goesOn [Schema.Validator] (h : Carries target calls results ds v) : (∃ r, v = .done r) ∨
    ∀ w : World, (Deed.mk w w v.begins?).Answers results → ∃ d u, v.Goes d u ∧ ∀ e ∈ d, e.found = w := by
  cases h with
  | wrote _ _ _ _ _ _ => exact .inl ⟨_, rfl⟩
  | failed _ _ => exact .inl ⟨_, rfl⟩
  | returned _ _ =>
    refine .inr fun w _ => Work.exists_goes (fun r hr => by cases hr) (fun f _ hf => by cases hf) ?_
    intro number call hbegins
    cases hbegins
  | @gathers _ f _ hcollects _ =>
    refine .inr fun w hw => Work.exists_goes (fun r hr => by cases hr) (fun g _ heq a ha => ?_) ?_
    · -- a call that is held has a number, and so a result that it tends to
      obtain ⟨rfl, -⟩ := Work.gather.inj heq
      obtain ⟨place, hplace⟩ := List.mem_iff_getElem?.1 ha
      have hlt : f.number place < results.length := by
        have hheld := (List.getElem?_eq_some_iff.1 hplace).1
        rw [hcollects.length, Fanout.number]
        omega
      exact ⟨_, hcollects.tends place a hplace _ (List.getElem?_eq_getElem hlt)⟩
    · intro number call hbegins
      obtain ⟨r, -, hr⟩ := hw number call hbegins
      exact ⟨r, hr⟩

variable {values : List Value} {r : Except Error Value}

/-- If all calls return values, the last turn writes them in their order. -/
theorem all (h : Carries target calls results ds (.done r)) (hvalues : results = values.map .ok) :
    ∃ earlier last, ds = earlier ++ [last] ∧ (∀ d ∈ earlier, d.Spares) ∧
      last.left.context = (last.found.context.set target (.array values)).tree ∧
      ((last.found.context.set target (.array values)).fault = none → r = .ok (.array values)) ∧
      ∀ fault, (last.found.context.set target (.array values)).fault = some fault →
        r = .error (.path fault) := by
  -- whether there is a first error, and which one, is told by `mapM`
  have hmapM : results.mapM id = .ok values := hvalues ▸ mapM_map_ok values
  generalize hv : Work.done r = v at h
  cases h with
  | gathers _ _ _ => cases hv
  | returned _ _ => cases hv
  | @wrote earlier others last _ hds hresults _ hwrite hnone hsome =>
    obtain rfl := Work.done.inj hv
    rw [hresults, mapM_map_ok] at hmapM
    obtain rfl := Except.ok.inj hmapM
    exact ⟨earlier, last, rfl, fun d hd => (hds d hd).1, hwrite, hnone, hsome⟩
  | failed _ hresults =>
    rw [hresults, mapM_map_ok_append_error] at hmapM
    cases hmapM

/-- If some call fails, nothing is written, and the first that fails decides. -/
theorem first {e : Error} {rest : List (Except Error Value)} (h : Carries target calls results ds v)
    (herror : results = values.map .ok ++ .error e :: rest) :
    (∀ d ∈ ds, d.Spares) ∧ ∀ r, v = .done r → r = .error e := by
  have hmapM : results.mapM id = .error e := herror ▸ mapM_map_ok_append_error values e rest
  cases h with
  | gathers hds _ _ => exact ⟨fun d hd => (hds d hd).1, fun r hr => by cases hr⟩
  -- had all values been collected, no item would have an error
  | returned _ hresults =>
    rw [hresults, mapM_map_ok] at hmapM
    cases hmapM
  | wrote _ hresults _ _ _ _ =>
    rw [hresults, mapM_map_ok] at hmapM
    cases hmapM
  | failed hds hresults =>
    rw [hresults, mapM_map_ok_append_error] at hmapM
    obtain rfl := Except.error.inj hmapM
    exact ⟨fun d hd => (hds d hd).1, fun r hr => (Work.done.inj hr).symm⟩

end Carries

/-! ## Loops and reduce steps -/

/-- What has become of a task that calls a tool for every item of a list, when it has been carried
out by these turns until it is `v`. The calls are those for the items, and the results are what they
come to. -/
structure Maps [Schema.Validator] (target : String) (calls : List Call)
    (results : List (Except Error Value))
    (ds : List Deed) (v : Work (Except Error Value)) : Prop where
  /-- The calls that have begun are those for the items. -/
  serves : ∀ d ∈ ds, ∀ number call, d.begun = some (number, call) → calls[number]? = some call
  /-- The task has ended, or it goes on in any world where the call that is next comes to its result. -/
  goesOn : (∃ r, v = .done r) ∨
    ∀ w : World, (Deed.mk w w v.begins?).Answers results → ∃ d u, v.Goes d u ∧ ∀ e ∈ d, e.found = w
  /-- It does not go on forever. -/
  stops : Acc (fun u' u => ∃ d, Work.Goes u d u') v
  /-- If all calls return values, the last turn writes the array of them in their order, and no other
  turn writes. The task returns that array, unless the write stops. -/
  all : ∀ values : List Value, results = values.map .ok → ∀ r, v = .done r →
    ∃ earlier last, ds = earlier ++ [last] ∧ (∀ d ∈ earlier, d.Spares) ∧
      last.left.context = (last.found.context.set target (.array values)).tree ∧
      ((last.found.context.set target (.array values)).fault = none → r = .ok (.array values)) ∧
      ∀ fault, (last.found.context.set target (.array values)).fault = some fault →
        r = .error (.path fault)
  /-- If not, no turn writes, and the task fails with the error of the first call that has one. -/
  first : ∀ (values : List Value) (e : Error) (rest : List (Except Error Value)),
    results = values.map .ok ++ .error e :: rest →
      (∀ d ∈ ds, d.Spares) ∧ ∀ r, v = .done r → r = .error e

section Maps

variable {target : String} {calls : List Call} {results : List (Except Error Value)}
  {ds : List Deed} {v : Work (Except Error Value)}

variable [Schema.Validator]

/-- A mapping that is carried out that way is one. -/
theorem Carries.maps (h : Carries target calls results ds v) : Maps target calls results ds v where
  serves := h.serves
  goesOn := h.goesOn
  stops := Work.acc_goes v
  all _ hvalues _ hr := Carries.all (hr ▸ h) hvalues
  first _ _ _ herror := h.first herror

/-- Before its first turn a mapping has done nothing. -/
theorem maps_nil_read (target : String) (calls : List Call) (results : List (Except Error Value))
    (next : Value → Work (Except Error Value)) : Maps target calls results [] (.read next) where
  serves d hd := absurd hd List.not_mem_nil
  goesOn := .inr fun w _ => Work.exists_goes (fun r hr => by cases hr) (fun f _ hf => by cases hf)
    fun number call hbegins => by cases hbegins
  stops := Work.acc_goes _
  all _ _ _ hr := by cases hr
  first _ _ _ _ := ⟨fun d hd => absurd hd List.not_mem_nil, fun r hr => by cases hr⟩

/-- Work that reads the context, makes the calls and writes the array of what they return. -/
theorem maps_of_read {c : Value} {width : Nat} {first : Value → Work (Except Error Value)}
    (hcalls : results.length = calls.length)
    (hfirst : first c = .gather (.ofCalls width calls) (Action.concludeAll target))
    (h : Work.Performs (.read first) ds v) (hcontext : ∀ d ∈ ds.head?, d.found.context = c)
    (hanswers : ∀ d ∈ ds, d.Answers results) : Maps target calls results ds v := by
  cases h with
  | refl _ => exact maps_nil_read target calls results first
  | head hgoes hrest =>
    -- the first turn reads the context; the calls are there from then on
    obtain ⟨w, rfl, rfl⟩ := hgoes.of_read
    obtain rfl : w.context = c := hcontext _ rfl
    rw [hfirst] at hrest
    have hbegins : Carries target calls results [⟨w, w, none⟩]
        (.gather (.ofCalls width calls) (Action.concludeAll target)) :=
      .gathers (List.forall_mem_singleton.2 ⟨rfl, fun number call hcall => by cases hcall⟩)
        (Fanout.collects_ofCalls width hcalls) (Fanout.leaves_ofCalls width calls)
    exact (hbegins.performs hrest fun e he => hanswers e (List.mem_cons_of_mem _ he)).maps

end Maps

namespace Task

/-- Of a task that calls a tool for every item of a list, the reference to the items and the call
for each of them in a context. -/
def mapping? : Task → Option (Value × (Value → Value → Call))
  | dynamicLoop step tool => some (step.items, step.callFor tool)
  | reduce step tool => some (step.input, step.callFor tool)
  | _ => none

/-- Given the items, what loops and reduce steps do is one fan-out and one write. -/
theorem run_fanOut {node field : String} {reference c : Value} {xs : List Value}
    (hitems : itemsOf node field reference c = .ok xs) (width : Nat) (call : Value → Call)
    (target : String) :
    (do
      let items ← MonadExcept.ofExcept (itemsOf node field reference c)
      let results ← Action.gather width (items.map call)
      Action.conclude target (.array results) : Action Value).run
      = .gather (.ofCalls width (xs.map call)) (Action.concludeAll target) := by
  rw [hitems]
  exact congrArg (Work.gather _) (funext fun r => by cases r <;> rfl)

/-- Loops and reduce steps are ordered maps, all or nothing. Whatever the width, whatever the call
for each item comes to, in whatever order the calls come to their ends, and whatever others do in
between. A reducer that is only named is called with the item as it is. -/
theorem maps_items [Schema.Validator] {t : Task} {reference : Value} {call : Value → Value → Call}
    (ht : t.mapping? = some (reference, call)) {c : Value} {xs : List Value}
    (hxs : c.deref reference = some (.array xs)) {results : List (Except Error Value)}
    (hlength : results.length = xs.length) {s : Settings} {node : String} {ds : List Deed}
    {v : Work (Except Error Value)} (h : (t.work s node).run.Performs ds v)
    (hcontext : ∀ d ∈ ds.head?, d.found.context = c) (hanswers : ∀ d ∈ ds, d.Answers results) :
    Maps t.target (xs.map (call c)) results ds v ∧
      ∀ step tool name, t = .reduce step tool → step.reducer = .named name →
        ∀ x, call c x = ⟨tool, .object [("item", x)], c⟩ := by
  have hitems : ∀ field, itemsOf node field reference c = .ok xs := fun field => by
    rw [itemsOf, hxs]
  have hcalls : results.length = (xs.map (call c)).length := by
    rw [hlength, List.length_map]
  cases t with
  | dynamicLoop step tool =>
    obtain ⟨rfl, rfl⟩ := Prod.mk.inj (Option.some.inj ht)
    have hrun := run_fanOut (hitems "over") (s.widthFor step.concurrency) (step.callFor tool c)
      step.outputKey
    refine ⟨maps_of_read hcalls hrun h hcontext hanswers, ?_⟩
    intro _ _ _ heq
    cases heq
  | reduce step tool =>
    obtain ⟨rfl, rfl⟩ := Prod.mk.inj (Option.some.inj ht)
    have hrun := run_fanOut (hitems "input") (s.widthFor step.concurrency) (step.callFor tool c)
      step.output
    refine ⟨maps_of_read hcalls hrun h hcontext hanswers, ?_⟩
    rintro step' tool' name heq hnamed x
    obtain ⟨rfl, rfl⟩ := Task.reduce.inj heq
    rw [ReduceStep.callFor, hnamed]
    rfl
  | toolCall _ _ _ _ => cases ht
  | aggregate _ _ => cases ht
  | conditional _ _ _ _ => cases ht

/-- A tool that returns its parameters, and needs longer for its first call than for the others. -/
def slowFirst : Tool where
  id := "slow"
  react n params _ := { outcome := .returned params, delayMs := if n = 1 then 20 else 10 }

/-- Maps two items side by side, of which one has the text of a template. -/
def mapsTwo : Task :=
  .reduce { id := "r", input := .string "xs", binder := "x", reducer := .named "slow", output := "o",
            concurrency := some 2 } slowFirst

def twoItems : List Value := [.string "{{xs}}", .bool true]

def hasTwo : Value := .object [("xs", .array twoItems)]

def twoResults : List (Except Error Value) := twoItems.map fun x => .ok (.object [("item", x)])

/-- The second call comes to its end before the first. -/
def playsTwo [Schema.Validator] : Option (List Deed × Work (Except Error Value)) :=
  Work.play (Options.world { planId := "p" } hasTwo .dag)
    (mapsTwo.work {} "r").run
    [none, none, none, some 1, none, some 0, none, none, none, none, none]

/-- The calls that it has begun, with their numbers and what they come to. -/
def answersTwo : List (Nat × Except String (Except Error Value)) :=
  [(0, .ok (.ok (.object [("item", .string "{{xs}}")]))), (1, .ok (.ok (.object [("item", .bool true)])))]

/-- The second call comes to its end before the first one, and the array is in the order of the
items. -/
theorem maps_items_secondFirst : ∃ ds v, (mapsTwo.work {} "r").run.Performs ds v ∧
    v.result? = some (.ok (.array (twoItems.map fun x => .object [("item", x)]))) ∧
    Maps "o" (twoItems.map fun x => ⟨slowFirst, .object [("item", x)], hasTwo⟩) twoResults ds v := by
  have hresult : playsTwo.map (fun p => p.2.result?)
      = some (some (.ok (.array (twoItems.map fun x => .object [("item", x)])))) := by cbv
  have hhead : playsTwo.map (fun p => p.1.head?.map fun d => d.found.context)
      = some (some hasTwo) := by cbv
  have hbegun : playsTwo.map (fun p => p.1.filterMap fun d => d.begun.map fun b =>
      (b.1, d.found.answer b.2)) = some answersTwo := by cbv
  obtain ⟨⟨ds, v⟩, hplay, hv⟩ := Option.map_eq_some_iff.1 hresult
  rw [hplay] at hhead hbegun
  have hperforms := Work.performs_of_play hplay
  have hcontext : ∀ d ∈ ds.head?, d.found.context = hasTwo := by
    intro d hd
    rw [Option.map_some, Option.mem_def.1 hd] at hhead
    exact Option.some.inj (Option.some.inj hhead)
  have hanswers : ∀ d ∈ ds, d.Answers twoResults := by
    intro d hd number call hcall
    have hmem : (number, d.found.answer call) ∈ answersTwo := by
      rw [← Option.some.inj hbegun]
      exact List.mem_filterMap.2 ⟨d, hd, by rw [hcall]; rfl⟩
    rcases List.mem_pair.1 hmem with heq | heq
    · obtain ⟨rfl, hanswer⟩ := Prod.mk.inj heq
      exact ⟨_, rfl, hanswer⟩
    · obtain ⟨rfl, hanswer⟩ := Prod.mk.inj heq
      exact ⟨_, rfl, hanswer⟩
  have hxs : hasTwo.deref (.string "xs") = some (.array twoItems) := by cbv
  have hmaps := maps_items (t := mapsTwo) rfl hxs rfl hperforms hcontext hanswers
  exact ⟨ds, v, hperforms, hv, hmaps.1⟩

end Task

end Wavefront
