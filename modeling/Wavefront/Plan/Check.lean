/-
Checking plan documents: `validate_plan`.

A document passes if its survey has no problem, no id comes up twice, every id that a step names is
one of those that came up, and waiting never goes in a circle, whether by what steps name or by what
is implied. Problems are reported in the order of the document, then unknown ids, then circles.
-/
import Wavefront.Plan.Survey

set_option autoImplicit false

namespace Wavefront

namespace Survey

/-- The issues among findings, with an issue for each id that has come up before, as `record_id`
reports it. `seen` holds the ids so far and where each was first. -/
def issuesOf (seen : List (String × String)) : List Finding → List Issue
  | [] => []
  | .issue i :: rest => i :: issuesOf seen rest
  | .id id path :: rest =>
      match seen.find? fun entry => entry.1 = id with
      | some (_, first) => ⟨fieldPath path "id", .duplicateId id first⟩ :: issuesOf seen rest
      | none => issuesOf ((id, path) :: seen) rest

/-- The ids that have come up. -/
def ids (s : Survey) : List String :=
  s.findings.filterMap fun
    | .id id _ => some id
    | .issue _ => none

/-- An issue for each id that a step names and that has not come up: the first part of
`check_dependencies`. -/
def unknownIssues (known : List String) (declared : List Declared) : List Issue :=
  declared.flatMap fun d =>
    d.dependsOn.zipIdx.filterMap fun (id, j) =>
      if id ∈ known then none
      else some ⟨itemPath d.path "depends_on" j, .unknownDependency id⟩

/-- What each step waits for, by id, as far as it has come up. Of two declarations of an id the
later counts. -/
def waits (known : List String) (declared : List Declared) : Digraph.Edges String :=
  -- the first entry for an id is the one that is found, so the last declaration goes first
  declared.reverse.map fun d => (d.id, (d.dependsOn ++ d.implied).filter (· ∈ known))

/-- The place of the declaration that counts for an id. -/
def placeOf (declared : List Declared) (id : String) : String :=
  ((declared.reverse.find? fun d => d.id = id).map (·.path)).getD ""

/-- An issue for each circle of waiting: the second part of `check_dependencies`. -/
def circleIssues (known : List String) (declared : List Declared) : List Issue :=
  (Digraph.cyclesFrom (waits known declared) (declared.map (·.id))).map fun cycle =>
    ⟨placeOf declared (cycle.headD "") ++ ".depends_on", .circularDependency cycle⟩

/-- The issues of the steps of a plan. -/
def issues (s : Survey) : List Issue :=
  issuesOf [] s.findings ++ unknownIssues s.ids s.declared ++ circleIssues s.ids s.declared

/-- Surveys the version of a plan. -/
def checkVersion : Option Value → List Issue
  | some (.string s) => if Text.allBlank s then [⟨"version", .badVersion⟩] else []
  | some (.number _) => []
  | some _ => [⟨"version", .badVersion⟩]
  | none => [⟨"version", .missing⟩]

/-- Surveys the mode of a plan; of its two names the first counts. -/
def checkMode (mode otherMode : Option Value) : List Issue :=
  match mode.or otherMode with
  | none => []
  | some (.string s) => if s ∈ modeNames then [] else [⟨"execution_mode", .badMode⟩]
  | some _ => [⟨"execution_mode", .badMode⟩]

/-- Surveys the steps of a plan. -/
def checkSteps : Option Value → List Issue
  | some (.array []) => [⟨"steps", .emptyPlan⟩]
  | some (.array items) => (surveySteps "steps" "" [] 0 items).survey.issues
  | some _ => [⟨"steps", .notSteps⟩]
  | none => [⟨"steps", .missing⟩]

end Survey

/-- The issues of a plan document, in the order in which they are reported: `validate_plan`. -/
def Plan.issues : Value → List Issue
  | .object fields =>
      Survey.checkVersion (Fields.get? "version" fields)
        ++ Survey.checkMode (Fields.get? "execution_mode" fields)
          (Fields.get? "executionMode" fields)
        ++ Survey.checkSteps (Fields.get? "steps" fields)
  | _ => [⟨"", .notPlan⟩]

/-- Refuses a document that has issues: `into_result`. -/
def Plan.check (document : Value) : Except Error Unit :=
  match Plan.issues document with
  | [] => .ok ()
  | issues => .error (.validation issues)

end Wavefront
