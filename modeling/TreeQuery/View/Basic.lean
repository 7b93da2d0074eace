import TreeQuery.Failure

/-!
# Views

A view shows a tree to an engine. It has no text nodes of its own: an element keeps the text before
its first child, and every node the text that follows it up to its next sibling. Documents are the
nodes side by side at the top of a view.
-/

namespace TreeQuery

/-- A local name and the URI of its namespace, the empty text for none. -/
structure ExpandedName where
  uri : String
  localName : String
  deriving DecidableEq, Repr

namespace ExpandedName

def clark (n : ExpandedName) : String := Namespace.clark n.uri n.localName

/-- Reads a name that may begin with a URI in braces. -/
def ofClark? (s : String) : Option ExpandedName :=
  match s.toList with
  | '\x7b' :: rest =>
    let uri := rest.takeWhile (· != '\x7d')
    match rest.dropWhile (· != '\x7d') with
    | _ :: localName =>
      if localName.isEmpty then none
      else some ⟨String.ofList uri, String.ofList localName⟩
    | [] => none
  | _ => if s = "" then none else some ⟨"", s⟩

end ExpandedName

/-- An attribute of a view. `pfx` is the prefix its name is written with. -/
structure ViewAttribute where
  name : ExpandedName
  pfx : String
  value : String
  deriving DecidableEq, Repr

/-- What an element of a view says of itself: its name and the prefix it is written with, the
namespaces declared on it, its attributes. -/
structure ViewElement where
  name : ExpandedName
  pfx : String
  declared : List (String × String)
  attributes : List ViewAttribute
  deriving DecidableEq, Repr

inductive View where
  | element (id : ViewId) (data : ViewElement) (text : Option String) (children : List View)
      (tail : Option String)
  | comment (id : ViewId) (value : String) (tail : Option String)
  | instruction (id : ViewId) (target data : String) (tail : Option String)

abbrev ViewDocument := List View

namespace View

def id : View → ViewId
  | element id .. | comment id .. | instruction id .. => id

def tail : View → Option String
  | element _ _ _ _ t | comment _ _ t | instruction _ _ _ t => t

def children : View → List View
  | element _ _ _ cs _ => cs
  | _ => []

def withTail (t : Option String) : View → View
  | element id data text cs _ => element id data text cs t
  | comment id v _ => comment id v t
  | instruction id target data _ => instruction id target data t

mutual

/-- The view of an id within a view. -/
def find? (i : ViewId) : View → Option View
  | element id data text cs t =>
    if id = i then some (element id data text cs t) else findIn? i cs
  | comment id v t => if id = i then some (comment id v t) else none
  | instruction id target data t =>
    if id = i then some (instruction id target data t) else none

def findIn? (i : ViewId) : List View → Option View
  | [] => none
  | v :: vs => (v.find? i).or (findIn? i vs)

end

def isElement : View → Bool
  | element .. => true
  | _ => false

end View

/-- The top of a document, with what stands before and after it: the root element, or the only
node. -/
def ViewDocument.around (d : ViewDocument) : List View × Option View × List View :=
  if d.any View.isElement then
    let rest := d.dropWhile (!·.isElement)
    (d.takeWhile (!·.isElement), rest.head?, rest.drop 1)
  else ([], d.head?, d.drop 1)

/-! ## Namespaces of a view -/

/-- What a level of elements contributes to the search for namespaces: what it declares and the
binding that its own name uses. -/
structure ViewLevel where
  declared : List (String × String)
  own : Option (String × String)

/-- The URI that a prefix is bound to, the innermost level first. -/
def lookupPrefix (levels : List ViewLevel) (pfx : String) : Option String :=
  levels.findSome? fun l => l.declared.lookup pfx

/-- A binding of a URI that no inner level hides. Attributes take prefixed bindings alone. -/
def prefixOf? (levels : List ViewLevel) (forAttribute : Bool) (uri : String) : Option String :=
  if uri = xmlUri then some "xml"
  else
    let bindings := levels.flatMap fun l => l.declared ++ l.own.toList
    (bindings.find? fun b => b.2 == uri && !(forAttribute && b.1 == "") &&
      lookupPrefix levels b.1 == some uri).map (·.1)

/-- A prefix that no level binds. -/
def freshPrefix (levels : List ViewLevel) : String :=
  let used := levels.flatMap fun l => l.declared.map (·.1)
  let candidates := (List.range (used.length + 1)).map fun n => "ns" ++ toString n
  (candidates.find? fun p => !used.contains p).getD "ns"

/-- The bindings in scope, each prefix once, the innermost level first. -/
def bindingsOf (levels : List ViewLevel) : List (String × String) :=
  (levels.flatMap (·.declared)).foldl
    (fun found b => if (found.lookup b.1).isSome then found else found ++ [b]) []

end TreeQuery
