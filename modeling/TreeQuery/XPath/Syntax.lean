/-!
# Syntax of expressions

The syntax trees of XPath 1.0. Abbreviated steps and separators are kept as they are written;
parentheses are nodes of the tree.
-/

namespace TreeQuery.XPath

/-- A name as it is written, with its prefix. -/
structure Name where
  pfx : Option String
  localName : String
  deriving DecidableEq, Repr

inductive Axis where
  | ancestor | ancestorOrSelf | attr | child | descendant | descendantOrSelf | following
  | followingSibling | ns | parent | preceding | precedingSibling | self
  deriving DecidableEq, Repr

namespace Axis

def all : List Axis :=
  [ancestor, ancestorOrSelf, attr, child, descendant, descendantOrSelf, following,
    followingSibling, ns, parent, preceding, precedingSibling, self]

def text : Axis → String
  | ancestor => "ancestor"
  | ancestorOrSelf => "ancestor-or-self"
  | attr => "attribute"
  | child => "child"
  | descendant => "descendant"
  | descendantOrSelf => "descendant-or-self"
  | following => "following"
  | followingSibling => "following-sibling"
  | ns => "namespace"
  | parent => "parent"
  | preceding => "preceding"
  | precedingSibling => "preceding-sibling"
  | self => "self"

def ofText? (s : String) : Option Axis :=
  all.find? (·.text == s)

end Axis

/-- How the axis of a step is written: not at all, as `@`, or by its name. -/
inductive AxisSpec where
  | implied
  | atSign
  | named (a : Axis)
  deriving DecidableEq, Repr

def AxisSpec.axis : AxisSpec → Axis
  | implied => .child
  | atSign => .attr
  | named a => a

inductive NodeTest where
  | node | text | comment
  | instruction (target : Option String)
  | any (pfx : Option String)
  | name (n : Name)
  deriving DecidableEq, Repr

inductive Operator where
  | or | and | eq | ne | lt | le | gt | ge | plus | minus | times | div | mod | union
  deriving DecidableEq, Repr

/-- What stands between two steps: `/`, or `//` for any number of steps down. -/
inductive Separator where
  | slash | doubleSlash
  deriving DecidableEq, Repr

mutual

inductive Expr where
  | binary (op : Operator) (left right : Expr)
  | negate (e : Expr)
  | group (e : Expr)
  | literal (text : String)
  | number (numeral : String)
  | variable (n : Name)
  | call (n : Name) (arguments : List Expr)
  | filter (e predicate : Expr)
  | relative (first : Step) (rest : Steps)
  | absolute (steps : Steps)
  /-- A path that goes on from the nodes of an expression. -/
  | through (e : Expr) (steps : Steps)

inductive Step where
  /-- The step `.` -/
  | here
  /-- The step `..` -/
  | up
  | along (axis : AxisSpec) (test : NodeTest) (predicates : List Expr)

/-- Steps, each after its separator. -/
inductive Steps where
  | done
  | next (sep : Separator) (step : Step) (rest : Steps)

end

def Steps.append : Steps → Steps → Steps
  | .done, t => t
  | .next sep step rest, t => .next sep step (rest.append t)

end TreeQuery.XPath
