import Motif.Chart.Report
import Motif.Session.Basic

/-!
# Work on charts

The requests of a session about its charts: parsing and matching, and the bookkeeping of single
charts.
-/

namespace Motif.Session

/-- Parses a text and adds its chart. -/
def parse (text : String) (maxDepth : Int) : Action Chart := do
  let chart ← (← getThe Session).registry.parse text maxDepth
  modify fun session => { session with charts := session.charts ++ [chart] }
  return chart

/-- Adds an empty chart of a text. The answer is the length of the text. -/
def addChart (text : String) : Action Int := do
  let chart := Chart.ofText text
  modify fun session => { session with charts := session.charts ++ [chart] }
  return chart.size

/-- Matches the pattern named on a chart. -/
def matchOn (index : Int) (target : Target) (start maxDepth : Int) : Action (Option Token) := do
  let _ ← chartPlace index
  let (_, pattern) ← resolve target
  let grammar := (← getThe Session).registry.grammar
  onChart index (Chart.tryPattern grammar pattern start maxDepth)

/-- Matches the pattern named in a text. -/
def matchText (target : Target) (text : String) (start maxDepth : Int) :
    Action (Option Token) := do
  let (_, pattern) ← resolve target
  (← getThe Session).registry.matchText pattern text start maxDepth

/-- Matches a node on a chart. Without a node there is nothing to match, unless there is no room for
matching anyway. -/
def matchNodeOn (index : Int) (node : Option Node) (start maxDepth : Int) :
    Action (Option Token) := do
  let grammar := (← getThe Session).registry.grammar
  match node with
  | some node => onChart index (Chart.tryNode grammar node start maxDepth)
  | none => if maxDepth < 0 then return none else throw .noText

/-- Enters a token into a chart, inside of which it must lie. -/
def addToken (index : Int) (token : Token) : Action Unit := do
  let chart ← chartAt index
  if 1 ≤ token.length && 0 ≤ token.start && token.stop ≤ chart.size then
    onChart index (Chart.add token)
  else throw (.request "token outside chart")

/-- Finds the holes of a chart and notes them in it. -/
def findHoles (index : Int) (kind : Kind) : Action (List Hole) := do
  let chart ← chartAt index
  let holes := chart.findHoles (← getThe Session).registry.grammar kind
  onChart index (modify fun chart => { chart with holes })
  return holes

/-- The tokens of a chart that are at least of a kind, each on one line. -/
def formatTokens (index : Int) (kind : Kind) : Action (List String) := do
  let chart ← chartAt index
  let registry := (← getThe Session).registry
  let formatOne (token : Token) : Except Fault (Option String) := do
    if ← Chart.isAtLeast registry kind token then
      return some (← Chart.formatToken registry token)
    else return none
  return (← chart.tokens.mapM fun token => formatOne token).filterMap id

end Motif.Session
