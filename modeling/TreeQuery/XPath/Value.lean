import TreeQuery.XPath.Node
import TreeQuery.XPath.Number

/-!
# Values of expressions

The four kinds of values, how they are converted into each other and compared, and the operators.
An operation has a value unless its operands are of the wrong kind.
-/

namespace TreeQuery.XPath

inductive XValue where
  | nodes (ns : List XNode)
  | boolean (b : Bool)
  | number (x : Float)
  | string (s : String)

namespace XValue

/-! ## Conversions -/

def boolText (b : Bool) : String := if b then "true" else "false"

/-- The string value of the first node of a set in document order. -/
def firstString (ns : List XNode) : String :=
  ((sortNodes ns).head?.map (·.stringValue)).getD ""

def toString : XValue → String
  | nodes ns => firstString ns
  | boolean b => boolText b
  | number x => numberText x
  | string s => s

def ofBool (b : Bool) : Float := if b then 1.0 else 0.0

def toNumber : XValue → Float
  | nodes ns => numberOf (firstString ns)
  | boolean b => ofBool b
  | number x => x
  | string s => numberOf s

def toBoolean : XValue → Bool
  | nodes ns => !ns.isEmpty
  | boolean b => b
  | number x => !x.isNaN && x != 0.0
  | string s => s != ""

def toNodes : XValue → Option (List XNode)
  | nodes ns => some ns
  | _ => none

/-! ## Comparisons -/

/-- Equality, or inequality if `negated`, of values that are no sets of nodes. -/
def equalScalars (negated : Bool) (a b : XValue) : Bool :=
  let eq := match a, b with
    | boolean _, _ | _, boolean _ => a.toBoolean == b.toBoolean
    | number _, _ | _, number _ => a.toNumber == b.toNumber
    | _, _ => a.toString == b.toString
  eq != negated

/-- A set of nodes is equal to a value if one of its nodes is, unless the value is a truth value. -/
def equalNodes (negated : Bool) (ns : List XNode) (b : XValue) : Bool :=
  match b with
  | boolean _ => equalScalars negated (boolean !ns.isEmpty) b
  | _ => ns.any fun n => equalScalars negated (string n.stringValue) b

def isEqual (negated : Bool) (a b : XValue) : Bool :=
  match a, b with
  | nodes ns, nodes ms =>
    ns.any fun n => ms.any fun m => (n.stringValue == m.stringValue) != negated
  | nodes ns, b => equalNodes negated ns b
  | a, nodes ms => equalNodes negated ms a
  | a, b => equalScalars negated a b

/-- Compares numbers; nothing is less than what is not a number, nor greater. -/
def compareWith (op : Operator) (x y : Float) : Bool :=
  match op with
  | .lt => x < y
  | .le => x ≤ y
  | .gt => y < x
  | _ => y ≤ x

def isOrdered (op : Operator) (a b : XValue) : Bool :=
  let number (n : XNode) : Float := numberOf n.stringValue
  match a, b with
  | nodes ns, nodes ms => ns.any fun n => ms.any fun m => compareWith op (number n) (number m)
  | nodes ns, boolean b => compareWith op (ofBool !ns.isEmpty) (ofBool b)
  | boolean a, nodes ms => compareWith op (ofBool a) (ofBool !ms.isEmpty)
  | nodes ns, b => ns.any fun n => compareWith op (number n) b.toNumber
  | a, nodes ms => ms.any fun m => compareWith op a.toNumber (number m)
  | a, b => compareWith op a.toNumber b.toNumber

end XValue

/-! ## Operators -/

/-- The value of an operator whose operands have been evaluated both. -/
def applyOperator (op : Operator) (a b : XValue) : Option XValue :=
  match op with
  | .or => some (.boolean (a.toBoolean || b.toBoolean))
  | .and => some (.boolean (a.toBoolean && b.toBoolean))
  | .eq => some (.boolean (a.isEqual false b))
  | .ne => some (.boolean (a.isEqual true b))
  | .lt | .le | .gt | .ge => some (.boolean (a.isOrdered op b))
  | .plus => some (.number (a.toNumber + b.toNumber))
  | .minus => some (.number (a.toNumber - b.toNumber))
  | .times => some (.number (a.toNumber * b.toNumber))
  | .div => some (.number (a.toNumber / b.toNumber))
  | .mod => some (.number (remainder a.toNumber b.toNumber))
  | .union => do
    let ns ← a.toNodes
    let ms ← b.toNodes
    return .nodes (merge ns ms)

end TreeQuery.XPath
