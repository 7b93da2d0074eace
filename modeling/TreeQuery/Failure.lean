import TreeQuery.Value

/-!
# Failures

Why an operation failed, by cause. `Failure.kind` sorts the causes into kinds, of which some are
special cases of others; a failure is caught by its kind. `Failure.text` is the wording.
-/

namespace TreeQuery

/-- Kinds of failure. -/
inductive Kind where
  | any
  | arithmetic | overflow | zeroDivision
  | lookup | missingKey | index | unresolved
  | value | unicode | unknownText | type | attr | name | assertion | memory | eof | os
  | runtime | notImplemented | recursion | stopIteration
  | load | moduleNotFound
  | malformed
  | query | expression | invalidExpression | evaluationFailed
  | engine | engineSyntax | engineEval | engineResult
  deriving DecidableEq, Repr

/-- Every kind. -/
def Kind.all : List Kind :=
  [any, arithmetic, overflow, zeroDivision, lookup, missingKey, index, unresolved, value, unicode,
    unknownText, type, attr, name, assertion, memory, eof, os, runtime, notImplemented, recursion,
    stopIteration, load, moduleNotFound, malformed, query, expression, invalidExpression,
    evaluationFailed, engine, engineSyntax, engineEval, engineResult]

/-- The kinds that a kind is directly a special case of. -/
def Kind.parents : Kind → List Kind
  | any => []
  | overflow | zeroDivision => [arithmetic]
  | missingKey | index | unresolved => [lookup]
  | unicode | unknownText => [value]
  | notImplemented | recursion => [runtime]
  | moduleNotFound => [load]
  | invalidExpression => [expression, value]
  | evaluationFailed => [expression, runtime]
  | engineSyntax => [engine, malformed]
  | engineEval | engineResult => [engine]
  | _ => [any]

/-- A kind and everything it is a special case of. The hierarchy is at most three steps deep. -/
def Kind.ancestors (k : Kind) : List Kind :=
  let up (ks : List Kind) := ks ++ ks.flatMap Kind.parents
  (up (up (up [k]))).eraseDups

def Kind.isA (k k' : Kind) : Bool :=
  k.ancestors.contains k'

/-- A node of an engine's view, known by the order in which views were made. -/
abbrev ViewId := Nat

/-- What a look-up did not find. -/
inductive Key where
  | value (v : Value)
  | view (id : ViewId)
  /-- The text before the first child of a view, or after the view. -/
  | slot (view : ViewId) (isTail : Bool)

/-- What a name was meant for. -/
inductive NameRole where
  | element | attr | instruction
  deriving DecidableEq, Repr

def NameRole.text : NameRole → String
  | element => "element name"
  | attr => "attribute name"
  | instruction => "processing instruction target"

inductive Failure where
  /-- A value that was to be shown can not be. -/
  | unshown (why : Unshown)
  /-- A namespace that can not be. -/
  | badNamespace (fault : Namespace.Fault)
  | cannotContain (parent child : String)
  | hasParent (shown : String)
  | ownDescendant
  | secondRoot
  | notChild (child parent : String)
  | badName (role : NameRole) (given : Option String)
  | prefixTaken (pfx uri owner : String)
  | bareAttribute
  /-- A text node whose value is not text, among values to be joined. -/
  | notText (index : Nat) (type : String)
  | noStep (shown : String)
  | detached (shown : String)
  | noText (shown : String)
  | emptyDocument
  | noContext (shown : String)
  | noView
  | unrepresentable (shown : String)
  | notNode (shown : String)
  | noMember (type member : String)
  | badFilter (shown : String)
  | expressionType (type : String)
  | emptyExpression
  | tooFewParts (got : Nat)
  | tooManyParts
  | notIterable (type : String)
  | notUnpackable (type : String)
  | unhashable (type : String)
  | prefixConflict (pfx uri uri' : String)
  | variableType (type : String)
  | badVariable (name : String)
  | unboundPrefix (pfx name : String)
  | variableConflict (uri name : String)
  | missing (key : Key)
  /-- Text that starts no token. -/
  | unknownText (text : String) (position : Nat)
  | tooManyDigits (count : Nat)
  | notImplemented
  | unresolved (uri name : String)
  | invalidExpression (expression : String) (cause : Option Failure)
  | evaluationFailed (message : String) (cause : Option Failure)
  | expressionError (message : String) (cause : Option Failure)
  /-- A failure that reports its root cause, which may be replaced later, in place of its own
  message. -/
  | query (message : String) (root chained : Option Failure)
  /-- A failure inside the engine, whose wording is the engine's own. -/
  | engine (kind : Kind)
  /-- A failure of a collaborator: a filter, a scripted engine, the loading of a factory. -/
  | raised (kind : Kind) (text : String)

namespace Failure

def kind : Failure → Kind
  | unshown .tooLong => .value
  | unshown _ => .type
  | badNamespace .notText | cannotContain .. | notText .. | noStep .. | detached ..
  | emptyDocument | noContext .. | noView | unrepresentable .. | notNode .. | badFilter ..
  | expressionType .. | notIterable .. | notUnpackable .. | unhashable ..
  | variableType .. => .type
  | badNamespace _ | hasParent .. | ownDescendant | secondRoot | notChild .. | badName ..
  | prefixTaken .. | bareAttribute | noText .. | emptyExpression | tooFewParts .. | tooManyParts
  | prefixConflict .. | badVariable .. | unboundPrefix .. | variableConflict ..
  | tooManyDigits .. => .value
  | noMember .. => .attr
  | missing .. => .missingKey
  | unknownText .. => .unknownText
  | notImplemented => .notImplemented
  | unresolved .. => .unresolved
  | invalidExpression .. => .invalidExpression
  | evaluationFailed .. => .evaluationFailed
  | expressionError .. => .expression
  | query .. => .query
  | engine k => k
  | raised k _ => k

def namespaceText : Namespace.Fault → String
  | .notText => "Namespace prefix and URI must be strings"
  | .colon p => "Namespace prefix '" ++ p ++ "' may not contain ':'"
  | .emptyUri p => "Namespace prefix '" ++ p ++ "' may not be bound to the empty URI"
  | .reserved => "The 'xml' prefix is reserved for " ++ xmlUri

def unshownText : Unshown → String
  | .tooLong =>
    "Exceeds the limit (4300 digits) for integer string conversion; " ++
      "use sys.set_int_max_str_digits() to increase the limit"
  | .noEntry => "not enough arguments for format string"
  | .moreEntries => "not all arguments converted during string formatting"

/-- A node as messages show it where no forest is at hand. -/
def nodeWord (_ : NodeId) : Except Unshown String := .ok "node"

/-- What a message has of a value: nothing if it can not be shown. -/
def wording (shown : Except Unshown String) : String := shown.toOption.getD ""

/-- The text of a key that holds no node. -/
def keyText : Key → String
  | .value v => wording (v.shown nodeWord)
  | .view _ => "view"
  | .slot _ t => "(view, " ++ Value.boolText t ++ ")"

def text : Failure → String
  | unshown why => unshownText why
  | badNamespace f => namespaceText f
  | cannotContain p c => p ++ " can not contain " ++ c
  | hasParent s => s ++ " already has a parent"
  | ownDescendant => "A node can not be its own descendant"
  | secondRoot => "A document can only have one root element"
  | notChild c p => c ++ " is not a child of " ++ p
  | badName role given => "'" ++ given.getD "None" ++ "' is not a valid " ++ role.text
  | prefixTaken p u owner =>
    "Prefix '" ++ p ++ "' is already bound to '" ++ u ++ "' on " ++ owner
  | bareAttribute => "An attribute namespace must have a prefix"
  | notText i t => "sequence item " ++ toString i ++ ": expected str instance, " ++ t ++ " found"
  | noStep s => "No XPath step for " ++ s
  | detached s => s ++ " is not attached to an element"
  | noText s => s ++ " has no text XPath can select"
  | emptyDocument => "Can not evaluate against a document with no root element"
  | noContext s => "Can not evaluate against " ++ s
  | noView => "A document with no root element has no view"
  | unrepresentable s => s ++ " is not in a tree lxml can represent"
  | notNode s => s ++ " is not a document node"
  | noMember t m => "'" ++ t ++ "' object has no attribute '" ++ m ++ "'"
  | badFilter s => s ++ " is not a usable result filter"
  | expressionType t => "XPath expression must be a string, not " ++ t
  | emptyExpression => "XPath expression must not be empty"
  | tooFewParts n => "not enough values to unpack (expected 2, got " ++ toString n ++ ")"
  | tooManyParts => "too many values to unpack (expected 2)"
  | notIterable t => "'" ++ t ++ "' object is not iterable"
  | notUnpackable t => "cannot unpack non-iterable " ++ t ++ " object"
  | unhashable t => "unhashable type: '" ++ t ++ "'"
  | prefixConflict p u u' =>
    "Namespace prefix '" ++ p ++ "' is bound to both '" ++ u ++ "' and '" ++ u' ++ "'"
  | variableType t =>
    "Variable name must be a string or a (namespace, name) tuple, not " ++ t
  | badVariable n => "'" ++ n ++ "' is not a valid variable name"
  | unboundPrefix p n => "Prefix '" ++ p ++ "' of variable '" ++ n ++ "' is not bound"
  | variableConflict u n => "Variable \x7b" ++ u ++ "\x7d" ++ n ++ " is bound more than once"
  | missing k => keyText k
  | unknownText t p => "Unknown text '" ++ t ++ "' at position " ++ toString p
  | tooManyDigits n =>
    "Exceeds the limit (4300 digits) for integer string conversion: value has " ++ toString n ++
      " digits; use sys.set_int_max_str_digits() to increase the limit"
  | notImplemented => ""
  | unresolved u n =>
    "Unable to resolve variable " ++ n ++ " in namespace '" ++ u ++ "' to a value."
  | invalidExpression e _ => "Unable to compile '" ++ e ++ "'. See cause."
  | evaluationFailed m _ => m
  | expressionError m _ => m
  | query m root _ =>
    match root with
    | some f => f.text
    | none => m
  | engine _ => ""
  | raised _ t => t

/-- What a failure reports as its cause. -/
def cause : Failure → Option Failure
  | invalidExpression _ c | evaluationFailed _ c | expressionError _ c => c
  | query _ root _ => root
  | _ => none

/-- The failure that a failure was made from. -/
def chained : Failure → Option Failure
  | query _ _ c => c
  | f => f.cause

/-- Whether a failure is of one of the kinds. -/
def isAny (kinds : List Kind) (f : Failure) : Bool :=
  kinds.any f.kind.isA

/-- Failures of the given kinds become failures to compile `expression`. -/
def whileCompiling (expression : String) (kinds : List Kind) (f : Failure) : Failure :=
  if f.isAny kinds then .invalidExpression expression (some f) else f

/-- Failures of the given kinds become failures to evaluate `expression`. -/
def whileEvaluating (expression : String) (kinds : List Kind) (f : Failure) : Failure :=
  if f.isAny kinds then
    .evaluationFailed ("Unable to evaluate '" ++ expression ++ "'. See cause.") (some f)
  else f

/-- The message of a wrapper that was given none. -/
def defaultQueryMessage : String := "Error occurred while processing a query."

def defaultEvaluationMessage : String := "Unable to evaluate expression. See cause."

/-- A wrapper chained to its root cause. -/
def wrap (message : Option String) (root : Option Failure) : Failure :=
  .query (message.getD defaultQueryMessage) root root

/-- Replaces the root cause of a wrapper; what it is chained to stays. -/
def withRoot (root : Option Failure) : Failure → Failure
  | query m _ c => .query m root c
  | f => f

/-- A failure of a kind made with arguments: one is its text, or the key that is missing; several
are shown as a tuple. -/
def ofArguments (k : Kind) (args : List Value) : Failure :=
  match k, args with
  | .missingKey, [v] => .missing (.value v)
  | k, [] => .raised k ""
  | k, [v] => .raised k (wording (v.toText nodeWord))
  | k, vs => .raised k (wording ((Value.tuple vs).shown nodeWord))

/-- A failure of a kind made with arguments and a cause. Kinds that have no cause ignore it. -/
def make (k : Kind) (args : List Value) (cause : Option Failure) : Failure :=
  let part (i : Nat) : String := wording ((args.getD i .none).toText nodeWord)
  let given := args.head?.filter (!·.isNone)
  match k with
  | .query => wrap (given.map fun _ => part 0) cause
  | .expression => .expressionError (part 0) cause
  | .invalidExpression => .invalidExpression (part 0) cause
  | .evaluationFailed =>
    .evaluationFailed (if args.isEmpty then defaultEvaluationMessage else part 0) cause
  | .unresolved => .unresolved (part 0) (part 1)
  | .unknownText => .unknownText (part 0) (((args.getD 1 .none).toInt?).getD 0).toNat
  | k => ofArguments k args

theorem isAny_mono {ks ks' : List Kind} {f : Failure} (hs : ks ⊆ ks') (h : f.isAny ks = true) :
    f.isAny ks' = true := by
  obtain ⟨k, hk, ha⟩ := List.any_eq_true.1 h
  exact List.any_eq_true.2 ⟨k, hs hk, ha⟩

theorem whileEvaluating_of_isAny {e : String} {ks : List Kind} {f : Failure}
    (h : f.isAny ks = true) :
    f.whileEvaluating e ks =
      .evaluationFailed ("Unable to evaluate '" ++ e ++ "'. See cause.") (some f) := by
  simp [whileEvaluating, h]

theorem whileCompiling_of_isAny {e : String} {ks : List Kind} {f : Failure}
    (h : f.isAny ks = true) :
    f.whileCompiling e ks = .invalidExpression e (some f) := by
  simp [whileCompiling, h]

end Failure

/-! ## What succeeds -/

section

variable {ε α β : Type} {x : Except ε α} {b : β}

theorem map_eq_ok {f : α → β} (h : x.map f = .ok b) : ∃ a, x = .ok a ∧ f a = b := by
  cases x with
  | error e => cases h
  | ok a =>
    cases h
    exact ⟨a, rfl, rfl⟩

theorem bind_eq_ok {f : α → Except ε β} (h : x.bind f = .ok b) : ∃ a, x = .ok a ∧ f a = .ok b := by
  cases x with
  | error e => cases h
  | ok a => exact ⟨a, rfl, h⟩

end

end TreeQuery
