import Lookahead.Grammar.Basic

/-! The network of a grammar: its rules as nodes and edges.

Every rule has a node where it starts and one where it stops, and a path from one
to the other that returns from each call passes exactly what some derivation of the
rule does. A call edge leads into the called rule and names the node to return to.
Each alternative of a decision has a node of its own, where it is entered.

The nodes of rule `r` are `2 * r` and `2 * r + 1`; the inner nodes of all rules
follow, numbered as the rules are read. -/
namespace Lookahead

abbrev NodeId := Nat

inductive Edge where
  | silent (target : NodeId)
  /-- Performs an action, and does not say which one. -/
  | action (target : NodeId)
  /-- Passes one symbol of the set. -/
  | symbols (set : SymbolSet) (target : NodeId)
  | predicate (id : PredicateId) (target : NodeId)
  /-- Enters a rule; `follow` is where its end leads on. -/
  | call (rule : RuleId) (follow : NodeId)
  deriving DecidableEq, Repr

def Edge.matchesInput : Edge → Bool
  | symbols .. => true
  | _ => false

/-- An edge and the node that it leaves. -/
structure Link where
  source : NodeId
  edge : Edge
  deriving DecidableEq, Repr

namespace Network

/-- A part of a network. -/
structure Piece where
  /-- The first number that no node of the part has. -/
  next : NodeId
  links : List Link
  /-- Where the alternatives of decisions are entered. -/
  entries : List (DecisionId × NodeId)

/-- `p` and what is built after it. -/
def Piece.append (p q : Piece) : Piece := ⟨q.next, p.links ++ q.links, p.entries ++ q.entries⟩

/-- A piece of links that need no node. -/
def Piece.link (next : NodeId) (links : List Link) : Piece := ⟨next, links, []⟩

def entry (decision : Option DecisionId) (node : NodeId) : List (DecisionId × NodeId) :=
  match decision with
  | some d => [(d, node)]
  | none => []

/-- A way from each of `sources` to `target` that passes nothing. -/
def leave (decision : Option DecisionId) (source target next : NodeId) : Piece :=
  ⟨next + 1, [⟨source, .silent next⟩, ⟨next, .silent target⟩], entry decision next⟩

mutual
/-- The ways of an element from `source` to `target`. New nodes are numbered from
`next` on. -/
def element (source target next : NodeId) : Element → Piece
  | .symbols set => .link next [⟨source, .symbols set target⟩]
  | .call rule => .link next [⟨source, .call rule target⟩]
  | .predicate id => .link next [⟨source, .predicate id target⟩]
  | .action _ => .link next [⟨source, .action target⟩]
  | .block .single none [] => .link next [⟨source, .silent target⟩]
  | .block .single none (⟨_, es⟩ :: _) => sequence source target next es
  | .block .single (some d) alternatives =>
    branches (some d) [source] target next alternatives
  | .block .optional d alternatives =>
    let body := branches d [source] target next alternatives
    body.append (leave d source target body.next)
  | .block .star d alternatives =>
    let enter := Piece.link (next + 1) [⟨source, .silent next⟩]
    let body := branches d [next] next (next + 1) alternatives
    (enter.append body).append (leave d next target body.next)
  | .block .plus d alternatives =>
    let body := branches d [source, next] next (next + 1) alternatives
    body.append (leave d next target body.next)

/-- The ways of a sequence, with a node after each element. -/
def sequence (source target next : NodeId) : List Element → Piece
  | [] => .link next [⟨source, .silent target⟩]
  | e :: es =>
    let first := element source next (next + 1) e
    first.append (sequence next target first.next es)

/-- The ways of alternatives from each of `sources`. -/
def branches (decision : Option DecisionId) (sources : List NodeId) (target next : NodeId) :
    List (Alternative Element) → Piece
  | [] => .link next []
  | ⟨_, es⟩ :: as =>
    let enter : Piece :=
      ⟨next + 1, sources.map fun source => ⟨source, .silent next⟩, entry decision next⟩
    let first := enter.append (sequence next target (next + 1) es)
    first.append (branches decision sources target first.next as)
end

def start (rule : RuleId) : NodeId := 2 * rule

def stop (rule : RuleId) : NodeId := 2 * rule + 1

/-- The ways of a block. -/
def block (source target next : NodeId) (b : Block) : Piece :=
  element source target next (.block b.kind b.decision b.alternatives)

/-- The ways of rules that are numbered from `id` on. -/
def rules (id : RuleId) (next : NodeId) : List Rule → Piece
  | [] => .link next []
  | r :: rs =>
    let first := block (start id) (stop id) next r.block
    first.append (rules (id + 1) first.next rs)

end Network

structure Network where
  ruleCount : Nat
  /-- The edges that leave each node, in the order in which they were laid. -/
  edges : Array (List Edge)
  /-- Where each rule may lead on when it was not entered through a call. -/
  follows : Array (List NodeId)
  /-- The rules after whose end the input may end. -/
  accepting : List RuleId
  entries : List (DecisionId × NodeId)

namespace Network

/-- The edges of `links` that leave a node. -/
def edgesFrom (links : List Link) (node : NodeId) : List Edge :=
  (links.filter (·.source == node)).map (·.edge)

/-- The node to return to from a call of the rule. -/
def follow? (rule : RuleId) (l : Link) : Option NodeId :=
  match l.edge with
  | .call callee follow => if callee = rule then some follow else none
  | _ => none

/-- Any parser rule may be the whole of the input, and of the lexer rules the one
that chooses the next token. -/
def accepts (g : Grammar) (r : Rule) : Bool :=
  match r.kind with
  | .parser => true
  | .lexer => g.tokensRule? == some r.id

def ofGrammar (g : Grammar) : Network :=
  let count := g.rules.length
  let piece := rules 0 (2 * count) g.rules
  { ruleCount := count
    edges := ((List.range piece.next).map (edgesFrom piece.links)).toArray
    follows := ((List.range count).map fun r => piece.links.filterMap (follow? r)).toArray
    accepting := (g.rules.filter (accepts g)).map (·.id)
    entries := piece.entries }

def size (n : Network) : Nat := n.edges.size

def edgesOf (n : Network) (node : NodeId) : List Edge := n.edges[node]?.getD []

def followsOf (n : Network) (rule : RuleId) : List NodeId := n.follows[rule]?.getD []

/-- The rule that stops at a node. -/
def stopOf? (n : Network) (node : NodeId) : Option RuleId :=
  if node < 2 * n.ruleCount ∧ node % 2 = 1 then some (node / 2) else none

/-- Some edge from the node passes a symbol. -/
def matchesInput (n : Network) (node : NodeId) : Bool := (n.edgesOf node).any Edge.matchesInput

/-- Where the alternatives of a decision are entered, in their order. -/
def entriesOf (n : Network) (decision : DecisionId) : List NodeId :=
  (n.entries.filter (·.1 == decision)).map (·.2)

end Network
end Lookahead
