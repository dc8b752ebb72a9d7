import Lookahead.Analysis.Basic
import Lookahead.Recognition.Prediction

/-! Recognizing input by the rules of an analysed grammar.

Rules are followed as they stand, with a prediction at every decision. Nothing is
built: what shows is how far the input is read, what the host does, what is reported
and how it ends. An error leaves everything as it was when it arose.

A loop that did not move on ends. Calls go only so deep (`depthLimit`): recursion
that reads nothing would not end, and nothing else goes deeper unless the host lets
it. -/
namespace Lookahead

/-- The program around a recognizer: it tells what predicates are worth and performs
actions. Both may change its state. -/
structure Host (σ : Type) where
  test : Predicate → StateM σ Bool
  perform : Action → StateM σ Unit

/-- Why a recognizer stops. -/
inductive Stop where
  | error (e : RecognitionError)
  /-- Calls are nested too deeply. -/
  | tooDeep
  deriving DecidableEq, Repr

/-- How far recognition has come. -/
structure Progress (α σ : Type) where
  input : Stream α
  host : σ
  reports : List Report
  deriving DecidableEq

abbrev Recognize (α σ : Type) := ExceptT Stop (StateM (Progress α σ))

/-- An analysed grammar in its host. -/
structure Recognizer (σ : Type) where
  analysis : Analysis
  host : Host σ

namespace Recognizer
variable {α σ : Type} [Symbolic α] (r : Recognizer σ)

def report (report : Report) : Recognize α σ Unit :=
  modify fun p => { p with reports := p.reports ++ [report] }

def fail (e : RecognitionError) : Recognize α σ β := throw (.error e)

def index : Recognize α σ Nat := return (← get).input.index

/-- Has the host do something. -/
def inHost (act : StateM σ β) : Recognize α σ β :=
  modifyGet fun p =>
    let (result, host) := act.run p.host
    (result, { p with host := host })

/-- Chooses an alternative of a decision for the input ahead. -/
def predict (d : DecisionId) : Recognize α σ Ordinal := do
  match r.analysis.automaton? d with
  | none => fail (.unknownRule "")
  | some automaton =>
    let verdict ← inHost (automaton.predict r.host.test (← get).input)
    if let some report := verdict.report then Recognizer.report report
    match verdict.result with
    | .ok alt => return alt
    | .error e => fail e

/-- The alternative of a block to go on with. A block without a decision has one. -/
def choose (decision : Option DecisionId) : Recognize α σ Ordinal :=
  match decision with
  | some d => r.predict d
  | none => return 1

/-- Reads one symbol of a set. -/
def symbols (ruleName : String) (set : SymbolSet) : Recognize α σ Unit := do
  let input := (← get).input
  match input.symbol? 1 with
  | some x =>
    if set.contains x then modify fun p => { p with input := p.input.consume }
    else fail (.mismatchedSymbol ruleName set (some x) input.index)
  | none => fail (.mismatchedSymbol ruleName set none input.index)

/-- Goes on only if a predicate is true. -/
def predicate (ruleName : String) (id : PredicateId) : Recognize α σ Unit := do
  match r.analysis.grammar.predicates[id]? with
  | none => return
  | some p =>
    let value ← match r.analysis.staticValue id with
      | some value => pure value
      | none => inHost (r.host.test p)
    if !value then
      report (.failure ruleName p.text)
      fail (.failedPredicate ruleName p.text)

def action (id : ActionId) : Recognize α σ Unit :=
  match r.analysis.grammar.actions[id]? with
  | none => return
  | some a => inHost (r.host.perform a)

/-- Runs chosen alternatives until the block is left or one of them reads nothing, and
tells how many were run. Each further one has read something, so `fuel` need only
exceed the length of the input ahead. -/
def loop (choose : Recognize α σ Ordinal) (body : Ordinal → Option (Recognize α σ Unit)) :
    (fuel : Nat) → Recognize α σ Nat
  | 0 => return 0
  | fuel + 1 => do
    match body (← choose) with
    | none => return 0
    | some run =>
      let before ← index
      run
      if (← index) = before then return 1
      return (← loop choose body fuel) + 1

mutual
/-- Recognizes an element of a rule. `call` recognizes other rules. -/
def element (call : RuleId → Recognize α σ Unit) (ruleName : String) :
    Element → Recognize α σ Unit
  | .symbols set => symbols ruleName set
  | .call rule => call rule
  | .predicate id => r.predicate ruleName id
  | .action id => r.action id
  | .block .single decision alternatives => do
    (alternative call ruleName alternatives ((← r.choose decision) - 1)).getD (pure ())
  | .block .optional decision alternatives => do
    (alternative call ruleName alternatives ((← r.choose decision) - 1)).getD (pure ())
  | .block .star decision alternatives => do
    let fuel := (← get).input.ahead.length + 1
    discard <| loop (r.choose decision)
      (fun alt => alternative call ruleName alternatives (alt - 1)) fuel
  | .block .plus decision alternatives => do
    let fuel := (← get).input.ahead.length + 1
    let count ← loop (r.choose decision)
      (fun alt => alternative call ruleName alternatives (alt - 1)) fuel
    if count = 0 then fail (.earlyExit ruleName (decision.getD 0) (← index))

def sequence (call : RuleId → Recognize α σ Unit) (ruleName : String) :
    List Element → Recognize α σ Unit
  | [] => return
  | e :: es => do
    element call ruleName e
    sequence call ruleName es

/-- The alternative at a place, counted from 0 on. The one that leaves the block is
not listed. -/
def alternative (call : RuleId → Recognize α σ Unit) (ruleName : String) :
    List (Alternative Element) → Nat → Option (Recognize α σ Unit)
  | [], _ => none
  | ⟨_, es⟩ :: _, 0 => some (sequence call ruleName es)
  | _ :: as, n + 1 => alternative call ruleName as n
end

def block (call : RuleId → Recognize α σ Unit) (ruleName : String) (b : Block) :
    Recognize α σ Unit :=
  r.element call ruleName (.block b.kind b.decision b.alternatives)

/-- Recognizes a rule, with calls nested less than `depth` times. -/
def rule : (depth : Nat) → RuleId → Recognize α σ Unit
  | 0, _ => throw .tooDeep
  | depth + 1, id =>
    match r.analysis.grammar.rule? id with
    | none => return
    | some found => r.block (rule depth) found.name found.block

/-- How deeply calls may be nested that read nothing and that only the host ends. No result but
`tooDeep` depends on the number: where calls may go deeper, any other one stays as it is. -/
def hostDepth : Nat := 1000000

/-- How deeply calls may be nested with `ahead` symbols to read. Between two symbols
no rule calls itself, unless nothing ends it but the host. -/
def depthLimit (ahead : Nat) : Nat :=
  r.analysis.grammar.rules.length * (ahead + 1) + hostDepth

/-- Recognizes a rule at the present place. -/
def run (id : RuleId) : Recognize α σ Unit := do
  r.rule (r.depthLimit (← get).input.ahead.length) id

/-- Recognizes the rule with a name. -/
def invoke (name : String) : Recognize α σ Unit :=
  match r.analysis.grammar.ruleNamed? name with
  | none => fail (.unknownRule name)
  | some rule => r.run rule.id

end Recognizer
end Lookahead
