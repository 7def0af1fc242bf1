import Logo.Source.Fault
import Logo.Value.Printer

/-!
# Why a run fails

Every way in which a run, or a request about runs, can fail, with the kind it
belongs to and the message shown for it.
-/

namespace Logo
set_option autoImplicit false

inductive FaultKind where
  | structural | unbound | type | usage | resource | cancelled
  deriving DecidableEq, Repr

inductive Fault where
  -- the program does not fit together
  | notEnoughInputs (name : String)
  | unusedValue (v : Value)
  | noOutput (producer consumer : String)
  | unexpected (token : String)
  | missingCloseParen
  | tooMuchInsideParens
  | outsideProcedure (name : String)
  | unreadable (f : Source.Fault)
  -- names
  | unknownProcedure (name : String)
  | noValue (name : String)
  -- values of the wrong kind
  | notProcedure (name : String)
  | unsuitable (procedure : String) (v : Value)
  | expected (what : String) (v : Value)
  | zeroDivisor (procedure : String)
  | badTemplate (caller : String) (v : Value)
  -- requests that come at the wrong time
  | alreadyRunning | notRunning | alreadyPaused | notPaused | alreadyStopping
  -- limits
  | tooDeep (limit : Nat)
  /-- The run was stopped from outside. -/
  | stopped
  /-- Reported by a host function in its own words. -/
  | reported (kind : FaultKind) (message : String)

namespace Fault

def kind : Fault → FaultKind
  | notEnoughInputs _ | unusedValue _ | noOutput _ _ | unexpected _ | missingCloseParen
  | tooMuchInsideParens | outsideProcedure _ | unreadable _ => .structural
  | unknownProcedure _ | noValue _ => .unbound
  | notProcedure _ | unsuitable _ _ | expected _ _ | zeroDivisor _ | badTemplate _ _ => .type
  | alreadyRunning | notRunning | alreadyPaused | notPaused | alreadyStopping => .usage
  | tooDeep _ => .resource
  | stopped => .cancelled
  | reported kind _ => kind

def message : Fault → String
  | notEnoughInputs name => "not enough inputs to " ++ name
  | unusedValue v => "You don't say what to do with " ++ v.render
  | noOutput producer consumer => producer ++ " didn't output to " ++ consumer
  | unexpected token => "unexpected '" ++ token ++ "'"
  | missingCloseParen => "missing ')'"
  | tooMuchInsideParens => "too much inside ()"
  | outsideProcedure name => name ++ " can only be used inside a procedure"
  | unreadable f => f.message
  | unknownProcedure name => "I don't know how to " ++ name
  | noValue name => name ++ " has no value"
  | notProcedure name => name ++ " is not a procedure"
  | unsuitable procedure v => procedure ++ " doesn't like " ++ v.render ++ " as input"
  | expected what v => "expected " ++ what ++ ", got " ++ v.render
  | zeroDivisor procedure => procedure ++ " doesn't like 0 as input"
  | badTemplate caller v => caller ++ " can't use " ++ v.render ++ " as a template"
  | alreadyRunning => "a program is already running"
  | notRunning => "no program is running"
  | alreadyPaused => "the program is already paused"
  | notPaused => "the program is not paused"
  | alreadyStopping => "the program is already stopping"
  | tooDeep limit => "too many nested procedure calls (limit " ++ Decimal.digitString limit ++ ")"
  | stopped => "stopped"
  | reported _ message => message

end Fault

end Logo
