import TreeQuery.Query.Basic
import TreeQuery.XPath.ContextUse
import TreeQuery.XPath.Splice

/-!
# Plans

An engine knows prefixes and variables from tables, has no prefixes on variables, and evaluates a
document at its root element. A plan says how an expression is changed for it: prefixed variables
get names of their own, prefixes that stand for no namespace are dropped, and what depends on the
context node is anchored at the root for a document.
-/

namespace TreeQuery

/-- The name by which the engine knows a referenced variable. -/
structure EngineVariable where
  pfx : Option String
  localName : String
  engineName : String
  deriving DecidableEq, Repr

/-- What an engine is asked to compile. -/
structure Request where
  text : String
  namespaces : List (String × String)
  deriving DecidableEq, Repr

structure Plan where
  expression : String
  /-- The referenced variables, each once, in the order of their first references. -/
  engineVariables : List EngineVariable
  renames : List XPath.Replacement
  names : List XPath.QualifiedName
  /-- The prefixes of names that the query does not bind, sorted. -/
  unbound : List String
  namespaces : List (String × String)
  /-- Insertions that make the expression start from the root. -/
  anchors : List XPath.Replacement
  selectsRoot : Bool
  selectsContext : Bool

namespace Plan

/-! ## Variables -/

/-- The name for the prefixed variable that is the `n`th of all variables. -/
def freshVariable (n : Nat) : String :=
  let ds := Nat.toDigits 10 n
  "__xpv" ++ String.ofList (List.replicate (2 - ds.length) '0' ++ ds)

def findVariable? (known : List EngineVariable) (pfx : Option String) (localName : String) :
    Option EngineVariable :=
  known.find? fun v => v.pfx == pfx && v.localName == localName

/-- Adds the variable of a reference unless it is known. -/
def addVariable (known : List EngineVariable) (r : XPath.VariableReference) :
    List EngineVariable :=
  match findVariable? known r.pfx r.name with
  | some _ => known
  | none =>
    known ++ [⟨r.pfx, r.name,
      if r.pfx.isNone then r.name else freshVariable known.length⟩]

def variablesOf (references : List XPath.VariableReference) : List EngineVariable :=
  references.foldl addVariable []

/-- The name by which the engine knows a reference. -/
def engineName (known : List EngineVariable) (r : XPath.VariableReference) : String :=
  ((findVariable? known r.pfx r.name).map (·.engineName)).getD r.name

def renamesOf (known : List EngineVariable) (references : List XPath.VariableReference) :
    List XPath.Replacement :=
  (references.filter (·.pfx.isSome)).map fun r =>
    ⟨r.start, r.stop, "$" ++ engineName known r⟩

/-! ## Prefixes -/

/-- Adds a prefix before those greater than it, unless it is there. -/
def insertPrefix (p : String) : List String → List String
  | [] => [p]
  | q :: qs => if p < q then p :: q :: qs else if p = q then q :: qs else q :: insertPrefix p qs

/-- The prefixes of names that neither the query nor the engine binds. -/
def unboundOf (bound : List Namespace) (names : List XPath.QualifiedName) : List String :=
  ((names.map (·.pfx)).filter fun p => p != "xml" && (Bindings.find? bound p).isNone).foldr
    insertPrefix []

/-! ## Anchors -/

/-- A call that would look at the document is given its root; a document has no language. -/
def anchorCall (c : XPath.ContextCall) : List XPath.Replacement :=
  if c.name = "lang" then
    [.insertion c.start "(false() and ", .insertion c.after ")"]
  else [.insertion c.inside "/"]

def anchorsOf (tokens : List XPath.Token) : List XPath.Replacement :=
  (XPath.relativePaths tokens).map (XPath.Replacement.insertion · "/") ++
    (XPath.contextCalls tokens).flatMap anchorCall

/-! ## Plans and requests -/

def make (expression : String) (bound : List Namespace) (tokens : List XPath.Token) : Plan :=
  let references := XPath.variableReferences tokens
  let names := XPath.qualifiedNames tokens
  { expression
    engineVariables := variablesOf references
    renames := renamesOf (variablesOf references) references
    names
    unbound := unboundOf bound names
    namespaces := (bound.filter fun n => n.pfx != "" && n.pfx != "xml").map fun n => (n.pfx, n.uri)
    anchors := anchorsOf tokens
    selectsRoot := XPath.selectsRoot tokens
    selectsContext := XPath.selectsContext tokens }

/-- A test for any name in no namespace. -/
def noNamespaceWildcard : String := "*[namespace-uri()='']"

/-- Drops the prefix of a name that is in no namespace. A function keeps its prefix. -/
def dropPrefix? (q : XPath.QualifiedName) : Option XPath.Replacement :=
  match q.use with
  | .name => some ⟨q.start, q.stop, q.localName⟩
  | .wildcard => some ⟨q.start, q.stop, noNamespaceWildcard⟩
  | .function => none

/-- Whether a prefix is resolved to no namespace. -/
def isDropped (resolved : List (String × String)) (pfx : String) : Bool :=
  resolved.lookup pfx == some ""

def replacements (p : Plan) (resolved : List (String × String)) (anchored : Bool) :
    List XPath.Replacement :=
  p.renames ++ (if anchored then p.anchors else []) ++
    (p.names.filter fun q => isDropped resolved q.pfx).filterMap dropPrefix?

/-- What the engine is asked to compile, given the URIs of the unbound prefixes. -/
def request (p : Plan) (resolved : List (String × String)) (anchored : Bool) : Request where
  text := XPath.splice p.expression (p.replacements resolved anchored)
  namespaces := p.namespaces ++ resolved.filter (·.2 != "")

/-- The unbound prefixes, all of them in no namespace. -/
def unresolved (p : Plan) : List (String × String) :=
  p.unbound.map fun x => (x, "")

end Plan

end TreeQuery
