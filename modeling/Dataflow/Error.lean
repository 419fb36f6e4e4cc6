import Dataflow.Graph.Fault
import Dataflow.Text.Basic

/-!
# Errors of planning and rewriting

Errors are grouped by what is at fault: the settings, a schema, the plan, the graph under it, a
pattern, stored data, or the library itself. Every group lists its causes; the wording of a cause is
in the group's `message`. An error may be wrapped in the rule that met it or in a context.

A description of an operator, such as `Filter 'f'`, is text: it outlives the operator.
-/

namespace Dataflow

/-- What is wrong with the settings of an optimizer. -/
inductive ConfigFault where
  | zeroIterations
  | rescanPolicy (word : String)
  | failurePolicy (word : String)
  | blockNotMapping
  | unreadable (why : String)
  | other (text : String)
deriving DecidableEq, Repr, Inhabited

/-- What is wrong with a schema. -/
inductive SchemaFault where
  | unknownType (type field : String)
  | columnRange (operator : String) (column columns : Nat)
  | recordWidth (record : Nat) (location : String) (fields : Nat) (schema : String) (declared : Nat)
  | other (text : String)
deriving DecidableEq, Repr, Inhabited

/-- What is wrong with a script or the plan made from it. -/
inductive PlanFault where
  | emptyLocation
  | relativeDirectory (location directory : String)
  | aboveRoot (path : String)
  | script (why : String)
  | expression (why dump : String)
  | joinKeyCounts (operator : String)
  | joinInputCount (operator : String) (keyLists inputs : Nat)
  | emptyExpression
  | expressionRoots (count : Nat)
  | operandCount (node : String) (operands expected : Nat)
  | missingOperand (node : NodeId) (position : Nat)
  | conjunctionOperands (count : Nat)
  | unresolvedColumn (name : String)
  | feedsLoad (source target : String)
  | storeOutput (source target : String)
  | singleInput (operator : String)
  | notAStore (operator : String) (input : NodeId)
  | notALoad (operator : String) (output : NodeId)
  | manyInputs (operator : String) (inputs : Nat)
  | inputRange (operator : String) (input inputs : Nat)
  | other (text : String)
deriving DecidableEq, Repr, Inhabited

/-- What is wrong with a pattern or a use of its match. -/
inductive PatternFault where
  | empty
  | noSource
  | manySources (count : Nat)
  | cycle
  | unconnected
  | graph (fault : Graph.Fault)
  | noSuchNode (index : Nat)
  | other (text : String)
deriving DecidableEq, Repr, Inhabited

/-- An expectation of the library itself that did not hold. -/
inductive InvariantFault where
  | underivedSchema (needed user : NodeId)
  | notAFilter (operator : String)
  | notAConjunction
  | noEligibleFilter
  | inputSchemaVanished
  | outputSchemaUnknown
  | columnNotProduced (column : Nat)
  | uidNotConsumed (uid : Uid)
  | other (text : String)
deriving DecidableEq, Repr, Inhabited

/-- What is wrong with stored data. -/
inductive StorageFault where
  | noData (location : String)
  | noLocation
  | other (text : String)
deriving DecidableEq, Repr, Inhabited

/-- Why planning or rewriting failed. -/
inductive Error where
  | config (fault : ConfigFault)
  | schema (fault : SchemaFault)
  | duplicateColumn (name operator : String)
  | unknownColumn (name operator : String)
  | missingInput (operator : String) (position : Nat)
  | plan (fault : PlanFault)
  | graph (fault : Graph.Fault)
  | pattern (fault : PatternFault)
  | storage (fault : StorageFault)
  | invariant (fault : InvariantFault)
  /-- A rule met the error while it looked at the plan or changed it. -/
  | inRule (rule : String) (cause : Error)
  /-- A rule left a plan that is not valid. -/
  | brokenByRule (rule detail : String)
  /-- The error arose while something else was being done. -/
  | inContext (context : String) (cause : Error)
deriving DecidableEq, Repr, Inhabited

/-! ## Wording -/

def ConfigFault.message : ConfigFault → String
  | .zeroIterations => "max_iterations must be at least one iteration"
  | .rescanPolicy word => s!"unknown rescan policy: {word}"
  | .failurePolicy word => s!"unknown failure policy: {word}"
  | .blockNotMapping => "optimizer block must be a mapping"
  | .unreadable why => why
  | .other text => text

def SchemaFault.message : SchemaFault → String
  | .unknownType type field => s!"unknown type '{type}' for field '{field}'"
  | .columnRange operator column columns =>
    s!"{operator} projects column ${column} but its input has {columns} columns"
  | .recordWidth record location fields schema declared =>
    s!"record {record} at '{location}' has {fields} fields, schema {schema} declares {declared}"
  | .other text => text

def PlanFault.message : PlanFault → String
  | .emptyLocation => "empty location"
  | .relativeDirectory location directory =>
    s!"cannot resolve '{location}' against non-absolute directory '{directory}'"
  | .aboveRoot path => s!"path '{path}' escapes the root"
  | .script why => s!"script: {why}"
  | .expression why dump => s!"invalid expression ({why}): {dump}"
  | .joinKeyCounts operator => s!"{operator} has join key lists of different lengths"
  | .joinInputCount operator keyLists inputs =>
    s!"{operator} has key lists for {keyLists} inputs but {inputs} inputs"
  | .emptyExpression => "expression plan is empty"
  | .expressionRoots count => s!"expression plan has {count} roots"
  | .operandCount node operands expected =>
    s!"expression node {node} has {operands} operands, expected {expected}"
  | .missingOperand node position => s!"expression node {node} is missing operand {position}"
  | .conjunctionOperands count => s!"AND node has {count} operands"
  | .unresolvedColumn name =>
    s!"column '{name}' must be resolved before building an expression plan"
  | .feedsLoad source target => s!"{source} cannot feed {target}: loads only depend on stores"
  | .storeOutput source target => s!"{source} has no data output for {target}"
  | .singleInput operator => s!"{operator} accepts a single input"
  | .notAStore operator input => s!"{operator} depends on a non-store operator {input}"
  | .notALoad operator output => s!"{operator} feeds non-load operator {output}"
  | .manyInputs operator inputs => s!"{operator} has {inputs} inputs but accepts one"
  | .inputRange operator input inputs =>
    s!"{operator} reads input #{input} but has {inputs} inputs"
  | .other text => text

def PatternFault.message : PatternFault → String
  | .empty => "pattern is empty"
  | .noSource => "pattern has no source"
  | .manySources count => s!"pattern has {count} sources, expected one"
  | .cycle => "pattern contains a cycle"
  | .unconnected => "pattern is not connected to its source"
  | .graph fault => fault.message
  | .noSuchNode index => s!"match has no node #{index}"
  | .other text => text

def InvariantFault.message : InvariantFault → String
  | .underivedSchema needed user => s!"schema of {needed} needed by {user} is not derived (cycle?)"
  | .notAFilter operator => s!"{operator} is not a filter"
  | .notAConjunction => "predicate root is not AND"
  | .noEligibleFilter => "no eligible filter below ForEach"
  | .inputSchemaVanished => "ForEach input schema vanished"
  | .outputSchemaUnknown => "ForEach schema is unknown"
  | .columnNotProduced column => s!"column ${column} not in ForEach output"
  | .uidNotConsumed uid => s!"uid {uid} not in ForEach input"
  | .other text => text

def StorageFault.message : StorageFault → String
  | .noData location => s!"I/O-like error (mapped into core): no data at '{location}'"
  | .noLocation => "Invalid graph state: storage location not set"
  | .other text => s!"I/O-like error (mapped into core): {text}"

namespace Error

/-- The full text of an error. -/
def message : Error → String
  | .config fault => s!"Invalid configuration: {fault.message}"
  | .schema fault => s!"Schema error: {fault.message}"
  | .duplicateColumn name operator =>
    s!"Duplicate schema alias '{name}' in output of {operator}"
  | .unknownColumn name operator => s!"Unknown alias '{name}' referenced by {operator}"
  | .missingInput operator position =>
    s!"{operator} requires input #{position} but it is not connected"
  | .plan fault => s!"Planning error: {fault.message}"
  | .graph fault => fault.message
  | .pattern fault => s!"Malformed pattern: {fault.message}"
  | .storage fault => fault.message
  | .invariant fault => s!"Internal invariant failed: {fault.message}"
  | .inRule rule cause => s!"Rule '{rule}' failed: {cause.message}"
  | .brokenByRule rule detail => s!"Rule '{rule}' left the plan in an invalid state: {detail}"
  | .inContext context cause => s!"Error in {context}: {cause.message}"

/-! ## Who is to be told, and what to do -/

/-- Whether the author of a script can mend the error. A context changes nothing about that. -/
def isFrontend : Error → Bool
  | .inContext _ cause => cause.isFrontend
  | .schema _ | .duplicateColumn _ _ | .unknownColumn _ _ | .missingInput _ _ | .pattern _
  | .plan _ => true
  | _ => false

/-- Whether a settings fault is about iterations, going by its text. -/
def ConfigFault.aboutIterations (fault : ConfigFault) : Bool :=
  (Text.splitOnce "iteration".toList fault.message.toList).isSome

/-- Hints on how to mend the error. -/
def suggestions : Error → List String
  | .unknownColumn _ _ =>
    ["Check that the alias is spelled correctly",
      "Verify the field exists in the input schema"]
  | .duplicateColumn _ _ =>
    ["Rename one of the fields with an explicit alias",
      "Alias the inputs so fields are disambiguated as input::field"]
  | .config fault =>
    if ConfigFault.aboutIterations fault then
      ["Raise max_iterations or disable the looping rule"]
    else []
  | .inContext _ cause => cause.suggestions
  | _ => []

end Error

/-- The result of a planning step. -/
abbrev Result := Except Error

/-- The same outcome of a graph operation as an outcome of planning. -/
def Graph.orError {β : Type} : Except Graph.Fault β → Result β
  | .ok b => .ok b
  | .error fault => .error (.graph fault)

end Dataflow
