import Lookahead.Analysis.Closure
import Lookahead.Analysis.Error
import Lookahead.Resolving
import Lookahead.SymbolSet.Partition

/-! The automaton of a decision, state by state.

The start state holds the configurations before the first symbol. A state whose
configurations all predict one alternative decides for it, and a conflict is
resolved; any other state gets a transition on each range of symbols that its
configurations read alike. States with equal configurations are one. The state found
last is worked on next. -/
namespace Lookahead.Construction

/-- What an automaton is built from. -/
structure Plan where
  terrain : Terrain
  decision : Decision
  ruleName : String
  /-- The names of all rules, at their numbers. -/
  ruleNames : List String
  maxStates : Nat

/-- How far the construction has come. -/
structure Site where
  /-- The configurations of each state, and the state once it has been worked on. -/
  states : List (List Configuration × State)
  /-- The alternatives of the ambiguities found so far, each list once. -/
  ambiguities : List (List Ordinal)

abbrev Build := ExceptT AnalysisError (StateM Site)

/-- A closure that fails says which recursion went too deep. -/
def close (p : Plan) (result : Except RuleId (List Configuration)) : Build (List Configuration) :=
  match result with
  | .ok configs => pure configs
  | .error callee =>
    throw (.recursionOverflow p.ruleName p.decision.id (p.ruleNames[callee]?.getD "")
      p.terrain.maxRecursionDepth)

/-- Gives configurations the next number. -/
def addState (p : Plan) (configs : List Configuration) : Build StateId := do
  let site ← get
  if p.maxStates ≤ site.states.length then
    throw (.nonConvergence p.ruleName p.decision.id p.maxStates)
  set { site with states := site.states ++ [(configs, State.blank)] }
  return site.states.length

/-- The number of the state with these configurations, and whether it is new. -/
def stateFor (p : Plan) (configs : List Configuration) : Build (StateId × Bool) := do
  match (← get).states.findIdx? (·.1 == configs) with
  | some id => return (id, false)
  | none => return (← addState p configs, true)

/-- Decides between the alternatives of configurations. A new ambiguity is noted. -/
def resolve (p : Plan) (configs : List Configuration) : Build (Option Resolution) := do
  let resolution := Resolution.ofWays p.decision (configs.map fun c => (c.alt, c.conditions.context))
  if let some (.ambiguous _ alternatives) := resolution then
    modify fun site =>
      if site.ambiguities.contains alternatives then site
      else { site with ambiguities := site.ambiguities ++ [alternatives] }
  return resolution

/-- The resolution where only `alt` is left. Its gates have been tested on the way in,
except at the start. -/
def onlyOne (p : Plan) (id : StateId) (alt : Ordinal) (configs : List Configuration) :
    Resolution :=
  match Configuration.gateOf configs with
  | some gate =>
    if id = Automaton.start then .predicated [⟨alt, some gate, p.decision.exit? == some alt⟩]
    else .unique alt
  | none => .unique alt

/-- Adds a transition to those on lower symbols, which are listed downwards. Two that
touch and agree are one. -/
def join (t : Transition) : List Transition → List Transition
  | [] => [t]
  | last :: rest =>
    if last.target == t.target && last.gate == t.gate && last.hi.toNat + 1 == t.lo.toNat then
      { last with hi := t.hi } :: rest
    else t :: last :: rest

/-- Adds the transition on a range of symbols, if any configuration reads them.
`found` lists the new states, the latest first. -/
def follow (p : Plan) (configs : List Configuration) (range : SymbolRange)
    (transitions : List Transition) (found : List StateId) :
    Build (List Transition × List StateId) := do
  let reached ← close p (Closure.ofSteps p.terrain
    (Configuration.read p.terrain range.lo range.hi configs))
  if reached.isEmpty then return (transitions, found)
  let (target, isNew) ← stateFor p reached
  let transition : Transition := ⟨range.lo, range.hi, target, Configuration.gateOf reached⟩
  return (join transition transitions, if isNew then target :: found else found)

/-- The transitions on ascending ranges, listed downwards, and the new states. -/
def followAll (p : Plan) (configs : List Configuration) :
    List SymbolRange → List Transition → List StateId → Build (List Transition × List StateId)
  | [], transitions, found => pure (transitions, found)
  | range :: ranges, transitions, found => do
    let (transitions, found) ← follow p configs range transitions found
    followAll p configs ranges transitions found

/-- The sets of symbols that configurations read. -/
def symbolSets (p : Plan) (configs : List Configuration) : List SymbolSet :=
  configs.flatMap fun c => (p.terrain.network.edgesOf c.node).filterMap fun e =>
    match e with
    | .symbols set _ => some set
    | _ => none

/-- The state that configurations make, and the new states that it leads to. -/
def work (p : Plan) (id : StateId) (configs : List Configuration) :
    Build (State × List StateId) :=
  match Configuration.alternatives configs with
  | [] => pure (.blank, [])
  | [alt] => pure (⟨[], none, some (onlyOne p id alt configs)⟩, [])
  | _ => do
    if Configuration.isConflict configs then
      return (⟨[], none, ← resolve p configs⟩, [])
    let ends := configs.filter (·.accept)
    let accept ← if ends.isEmpty then pure none else resolve p ends
    let (transitions, found) ← followAll p configs
      (SymbolSet.partition (symbolSets p configs)) [] []
    return (⟨transitions.reverse, accept, none⟩, found)

/-- Works on the waiting states and on those that they lead to, `fuel` of them at the
most. Each state waits once, so as many as there may be states are enough. -/
def workAll (p : Plan) : (fuel : Nat) → (waiting : List StateId) → Build Unit
  | 0, _ => pure ()
  | _ + 1, [] => pure ()
  | fuel + 1, id :: waiting => do
    let configs := ((← get).states[id]?.map (·.1)).getD []
    let (state, found) ← work p id configs
    modify fun site => { site with states := site.states.modify id fun s => (s.1, state) }
    workAll p fuel (found ++ waiting)

/-- Builds all states. -/
def buildStates (p : Plan) : Build Unit := do
  let entries := p.terrain.network.entriesOf p.decision.id
  let configs ← close p (Closure.ofEntries p.terrain entries)
  let start ← addState p configs
  workAll p p.maxStates [start]

/-- How the construction ends, and what has been built by then. -/
def outcome (p : Plan) : Except AnalysisError Unit × Site := (buildStates p).run.run ⟨[], []⟩

/-- The automaton of what has been built. -/
def Site.automaton (site : Site) (p : Plan) : Automaton :=
  ⟨p.decision.id, p.decision.rule, p.ruleName, p.decision.kind, p.decision.altCount,
    site.states.map (·.2)⟩

/-- The automaton of a decision, or why there is none, and the lists of alternatives
between which nothing decides. -/
def run (p : Plan) : Except AnalysisError Automaton × List (List Ordinal) :=
  let (result, site) := outcome p
  (result.map fun _ => site.automaton p, site.ambiguities)

end Lookahead.Construction
