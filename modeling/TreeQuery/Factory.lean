import TreeQuery.Failure

/-!
# Factories

A factory makes the compiled queries of one engine. Which one is used is chosen by a dotted path to
its class among the modules that can be loaded, and can be set in the environment. The factory in
use is made once and kept until it is reset.
-/

namespace TreeQuery

/-- A module that can be loaded, with the names that it defines. `factories` holds the classes of
factories among them, each name with that of its class. -/
structure LoadableModule where
  name : String
  isPackage : Bool
  names : List String
  factories : List (String × String)

/-- What can be loaded, and the path of the factory to use if none is chosen. -/
structure Catalogue where
  modules : List LoadableModule
  defaultPath : String

/-- A factory, known by its class and by when it was made. -/
structure Factory where
  className : String
  serial : Nat
  deriving DecidableEq, Repr

namespace Catalogue

def module? (c : Catalogue) (name : String) : Option LoadableModule :=
  c.modules.find? (·.name == name)

/-- Splits a path at its last dot. -/
def splitLastDot (path : String) : String × String :=
  let cs := path.toList.reverse
  let after := cs.takeWhile (· != '.')
  let before := (cs.dropWhile (· != '.')).drop 1
  (String.ofList before.reverse, String.ofList after.reverse)

/-- The names of the modules around a module and its own, the outermost first. -/
def enclosing (name : String) : List String :=
  (positions name.toList []).map fun cs => String.ofList cs.reverse
where
  positions : List Char → List Char → List (List Char)
    | [], seen => [seen]
    | '.' :: rest, seen => seen :: positions rest ('.' :: seen)
    | c :: rest, seen => positions rest (c :: seen)

/-- Loads modules, each inside the one before it. -/
def loadFrom (c : Catalogue) (outer : Option LoadableModule) :
    List String → Except Failure (Option LoadableModule)
  | [] => .ok outer
  | name :: rest =>
    match outer.filter (!·.isPackage) with
    | some m =>
      .error (.raised .moduleNotFound
        ("No module named " ++ Text.quote name ++ "; " ++ Text.quote m.name ++
          " is not a package"))
    | none =>
      match c.module? name with
      | some m => c.loadFrom (some m) rest
      | none => .error (.raised .moduleNotFound ("No module named " ++ Text.quote name))

/-- The name of a factory class at a path, if what is there is one. Failing to load it is a failure
of its own. -/
def load (c : Catalogue) (path : String) : Except Failure (Option String) := do
  let (moduleName, name) := splitLastDot path
  if moduleName = "" then
    throw (.raised .load ("'" ++ path ++ "' is not a dotted class path"))
  if moduleName.toList.head? = some '.' then
    throw (.raised .type
      ("the 'package' argument is required to perform a relative import for " ++
        Text.quote moduleName))
  match ← c.loadFrom none (enclosing moduleName) with
  | none => return none
  | some m =>
    if !m.names.contains name then
      throw (.raised .attr
        ("module " ++ Text.quote m.name ++ " has no attribute " ++ Text.quote name))
    return m.factories.lookup name

/-- The class of the factory at a path. What keeps it from being found is the root cause of the
failure; a path relative to some module is refused as it is. -/
def factoryClass (c : Catalogue) (path : String) : Except Failure String :=
  match c.load path with
  | .ok (some className) => .ok className
  | .ok none => .error (Failure.wrap (some (path ++ " is not an XPathFactory")) none)
  | .error fault =>
    if fault.isAny [.load, .attr] then
      .error (Failure.wrap (some ("Unable to load XPath factory " ++ path)) (some fault))
    else .error fault

end Catalogue

/-- The factory in use, if it has been made, and how many factories have been. -/
structure FactoryStore where
  current : Option Factory := none
  made : Nat := 0

namespace FactoryStore

/-- Forgets the factory in use. -/
def reset (s : FactoryStore) : FactoryStore := { s with current := none }

/-- The factory in use, made from the chosen path if there is none. An empty path chooses
nothing. -/
def factory (s : FactoryStore) (c : Catalogue) (chosen : Option String) :
    Except Failure Factory × FactoryStore :=
  match s.current with
  | some made => (.ok made, s)
  | none =>
    let path := match chosen with
      | some p => if p = "" then c.defaultPath else p
      | none => c.defaultPath
    match c.factoryClass path with
    | .ok className =>
      let made : Factory := ⟨className, s.made⟩
      (.ok made, ⟨some made, s.made + 1⟩)
    | .error fault => (.error fault, s)

end FactoryStore

end TreeQuery
