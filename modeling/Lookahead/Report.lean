import Lookahead.Grammar.Basic

/-! Reports: what is noticed on the way and changes nothing. -/
namespace Lookahead

inductive Report where
  /-- Nothing told the candidates apart, and `chosen` was taken. -/
  | ambiguity (decision : DecisionId) (chosen : Ordinal) (candidates : List Ordinal)
  /-- No predicate that could have led on was true. -/
  | failure (rule predicate : String)
  deriving DecidableEq, Repr

def Report.isAmbiguity : Report → Bool
  | ambiguity .. => true
  | failure .. => false

/-- Reports in the order in which they came. -/
structure ReportQueue where
  reports : List Report
  deriving Repr

namespace ReportQueue

def empty : ReportQueue := ⟨[]⟩

def push (q : ReportQueue) (r : Report) : ReportQueue := ⟨q.reports ++ [r]⟩

/-- All reports, and the queue without them. -/
def drain (q : ReportQueue) : List Report × ReportQueue := (q.reports, empty)

def ambiguities (q : ReportQueue) : List Report := q.reports.filter Report.isAmbiguity

def failures (q : ReportQueue) : List Report := q.reports.filter (!·.isAmbiguity)

def isEmpty (q : ReportQueue) : Bool := q.reports.isEmpty

end ReportQueue
end Lookahead
