import TreeQuery.Forest.Scope
import TreeQuery.Forest.Shown
import TreeQuery.Forest.Tree
import TreeQuery.Text.Name
import TreeQuery.Text.Uri
import TreeQuery.View.Basic

/-!
# Navigators

A navigator shows trees to an engine as views and remembers which node every view stands for. The
view of a tree is made as a whole, the first time one of its nodes is asked for. Adjacent text
nodes become one text of the view, which stands for the first of them that holds anything.

What has been remembered when making a view fails stays remembered.
-/

namespace TreeQuery

/-- A text of a view: the one before the first child of a view, or the one after a view. -/
structure Slot where
  view : ViewId
  isTail : Bool
  deriving DecidableEq, Repr

structure Navigator where
  /-- The view to evaluate against. -/
  context : Option ViewId := none
  /-- The URIs of the prefixes in scope at the context node. -/
  scope : List (String × String) := []
  views : List (NodeId × ViewId) := []
  nodes : List (ViewId × NodeId) := []
  /-- The text node that each text of a view stands for. -/
  texts : List (Slot × NodeId) := []
  documents : List ViewDocument := []
  /-- The next view to be made. -/
  next : ViewId := 0

/-- Adds an entry to an association list in the place of one for the same key. -/
def assign {α β : Type} [BEq α] (key : α) (value : β) (entries : List (α × β)) : List (α × β) :=
  (key, value) :: entries.filter (fun e => e.1 != key)

namespace Navigator

/-- Steps that change a navigator and may fail. What was changed before a failure stays. -/
abbrev M := ExceptT Failure (StateM Navigator)

/-- Forgets the context, the scope and every view. -/
def reset (n : Navigator) : Navigator := { next := n.next }

/-- Makes a view of a node and remembers it. -/
def remember (id : NodeId) : M ViewId := do
  let n ← get
  set { n with
    views := assign id n.next n.views
    nodes := assign n.next id n.nodes
    next := n.next + 1 }
  return n.next

/-! ## What a view can hold -/

def refuse {α : Type} : M α := throw (.engine .value)

def checkText (s : String) : M Unit :=
  if Text.isXmlText s then pure () else refuse

def checkName (s : String) : M Unit :=
  if Text.isName s.toList then pure () else refuse

/-- Whether one character directly follows another somewhere in a text. -/
def adjacent (c d : Char) : List Char → Bool
  | a :: b :: rest => (a == c && b == d) || adjacent c d (b :: rest)
  | _ => false

/-- A value as text of the view. -/
def asText : Value → M String
  | .text s => do checkText s; return s
  | .none => return ""
  | _ => throw (.engine .type)

/-! ## Elements -/

/-- The namespaces to declare on the view of an element: what it adds to the scope, the default
namespace last. -/
def declarations (introduced : List Namespace) : List (String × String) :=
  let bound := introduced.filter fun n => n != Namespace.xml && n.uri != ""
  let pairs := bound.map fun n => (n.pfx, n.uri)
  pairs.filter (·.1 != "") ++ pairs.filter (·.1 == "")

/-- Declares what the levels around do not already bind, and takes the first declaration of the
element's own URI for its name. -/
def declareAll (outer : List ViewLevel) (uri : String) (level : ViewLevel) :
    List (String × String) → M ViewLevel
  | [] => return level
  | (p, u) :: rest => do
    if !Text.Uri.isReference u then refuse
    if p != "" then checkName p
    checkText u
    let declared :=
      if lookupPrefix (level :: outer) p == some u then level.declared
      else level.declared ++ [(p, u)]
    let own := if level.own.isNone && u == uri then some (p, u) else level.own
    declareAll outer uri ⟨declared, own⟩ rest

/-- Finds a prefix for a URI, declaring one if there is none. -/
def settle (outer : List ViewLevel) (level : ViewLevel) (forAttribute : Bool) (uri : String) :
    ViewLevel × String :=
  match prefixOf? (level :: outer) forAttribute uri with
  | some p => (level, p)
  | none =>
    let p := freshPrefix (level :: outer)
    ({ level with declared := level.declared ++ [(p, uri)] }, p)

/-- The namespaces and the prefix of an element's view. -/
def elementLevel (outer : List ViewLevel) (name : ExpandedName) (introduced : List Namespace) :
    M ViewLevel := do
  let level ← declareAll outer name.uri ⟨[], none⟩ (declarations introduced)
  if name.uri = "" || level.own.isSome then return level
  if !Text.Uri.isReference name.uri then refuse
  let (level, p) := settle outer level false name.uri
  return { level with own := some (p, name.uri) }

def readName (clark : String) : M ExpandedName := do
  checkText clark
  match ExpandedName.ofClark? clark with
  | some name =>
    checkName name.localName
    return name
  | none => refuse

/-- An attribute before others that were set after it. One of the same name does not come again but
gives it its value. -/
def withLater (a : ViewAttribute) (later : List ViewAttribute) : List ViewAttribute :=
  let value := ((later.find? (·.name == a.name)).map (·.value)).getD a.value
  { a with value } :: later.filter (·.name != a.name)

/-- The attributes of an element's view, with the namespaces that they need. -/
def buildAttributes (outer : List ViewLevel) (level : ViewLevel) :
    List Attr → M (ViewLevel × List ViewAttribute)
  | [] => return (level, [])
  | a :: rest => do
    let name ← readName (Namespace.clark a.ns.uri a.name)
    checkText a.value
    let (level, p) := if name.uri = "" then (level, "") else settle outer level true name.uri
    let (level, attributes) ← buildAttributes outer level rest
    return (level, withLater ⟨name, p, a.value⟩ attributes)

/-- The bindings that an element itself makes. -/
def ownBindings (ns : Namespace) (declared : List Namespace) (attributes : List Attr) :
    List Namespace :=
  ns :: declared ++ (attributes.map (·.ns)).filter (·.pfx != "")

/-! ## Text -/

/-- The text of a run of text nodes, if it has any. -/
def addText (typeName : Value → String) (slot : Slot) (run : List (NodeId × Value)) :
    M (Option String) := do
  let value ← match Tree.join 0 typeName (run.map (·.2)) with
    | .ok s => pure s
    | .error fault => throw fault
  if value = "" then return none
  checkText value
  match run.find? (·.2.truthy) with
  | some (id, _) => modify fun n => { n with texts := assign slot id n.texts }
  | none => pure ()
  return some value

/-! ## Building -/

/-- What surrounds a node in its tree and in its view. -/
structure Surroundings where
  scope : List Namespace
  levels : List ViewLevel

def outerSurroundings : Surroundings := ⟨outerScope, []⟩

mutual

def build (typeName : Value → String) (around : Surroundings) : Tree → M View
  | .element id name ns declared attributes children => do
    let scope := extendScope around.scope (ownBindings ns declared attributes)
    let introduced := scope.filter fun n => !around.scope.contains n
    let expanded ← readName (Namespace.clark ns.uri name)
    let level ← elementLevel around.levels expanded introduced
    let view ← remember id
    let (level, viewAttributes) ← buildAttributes around.levels level attributes
    let p := (level.own.map (·.1)).getD ""
    let inner : Surroundings := ⟨scope, level :: around.levels⟩
    let (text, views) ← buildContent typeName inner ⟨view, false⟩ [] children
    return .element view ⟨expanded, p, level.declared, viewAttributes⟩ text views none
  | .comment id value => do
    let s ← asText value
    if adjacent '-' '-' s.toList || s.toList.getLast? == some '-' then refuse
    let view ← remember id
    return .comment view s none
  | .instruction id target data => do
    checkName target
    checkText data
    if adjacent '?' '>' data.toList then refuse
    let view ← remember id
    return .instruction view target data none
  | .text _ _ => throw (.noMember NodeClass.text.label "target")
  | .attr _ => throw (.noMember NodeClass.attr.label "target")
  | .document _ _ => throw .noView

/-- The text and the views of some children. The text goes into `slot`, after the run of text nodes
already seen. -/
def buildContent (typeName : Value → String) (around : Surroundings) (slot : Slot)
    (run : List (NodeId × Value)) : List Tree → M (Option String × List View)
  | [] => do
    let text ← addText typeName slot run
    return (text, [])
  | t :: rest =>
    match t with
    | .text id value => buildContent typeName around slot (run ++ [(id, value)]) rest
    | _ => do
      let text ← addText typeName slot run
      let view ← build typeName around t
      let (tail, views) ← buildContent typeName around ⟨view.id, true⟩ [] rest
      return (text, view.withTail tail :: views)

end

/-- Makes the views of nodes side by side. -/
def buildAll (typeName : Value → String) : List Tree → M (List View)
  | [] => return []
  | t :: rest => do
    let view ← build typeName outerSurroundings t
    return view :: (← buildAll typeName rest)

/-- Makes the view of a whole tree. A document has one as soon as it has a root element, which is
made first; of its other nodes the last ones come last but are made from the end. -/
def buildTop (typeName : Value → String) (t : Tree) : M Unit := do
  let keep (d : ViewDocument) : M Unit := modify fun n => { n with documents := n.documents ++ [d] }
  match t with
  | .document _ children =>
    match children.dropWhile (!·.isElement) with
    | [] => return
    | root :: after => do
      let view ← build typeName outerSurroundings root
      let before ← buildAll typeName (children.takeWhile (!·.isElement))
      let after ← buildAll typeName after.reverse
      keep (before ++ view :: after.reverse)
  | t => do
    let view ← build typeName outerSurroundings t
    keep [view]

end Navigator

end TreeQuery
