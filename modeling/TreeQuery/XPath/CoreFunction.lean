import TreeQuery.XPath.Value

/-!
# Core functions

The functions that every expression can call.
-/

namespace TreeQuery.XPath

/-- What an expression is evaluated with. -/
structure Environment where
  documents : Documents
  values : List (String × XValue)
  namespaces : List (String × String)

/-- The context node, and its position among how many nodes if it has one. -/
structure Context where
  node : XNode
  position : Option (Nat × Nat)

namespace CoreFunction

/-- The rest of a text from where another begins in it. -/
def find? (cs part : List Char) : Option (List Char) :=
  if part.isPrefixOf cs then some cs
  else
    match cs with
    | [] => none
    | _ :: rest => find? rest part

def substringBefore (s part : String) : String :=
  match find? s.toList part.toList with
  | some found => String.ofList (s.toList.take (s.length - found.length))
  | none => ""

def substringAfter (s part : String) : String :=
  match find? s.toList part.toList with
  | some found => String.ofList (found.drop part.length)
  | none => ""

/-- Positions in a text are at most this. -/
def positionLimit : Float := 2147483647.0

/-- A number rounded to the nearest whole number; half goes up. -/
def rounded (x : Float) : Float :=
  let below := x.floor
  if x - below ≥ 0.5 then below + 1.0 else below

/-- A position counted from one, within the limits of positions. -/
def positionOf (x : Float) (outside : Nat) : Nat :=
  if !(x < positionLimit) then outside
  else if x ≥ 1.0 then x.toUInt64.toNat
  else 1

def substring (s : String) (start : Float) (length : Option Float) : String :=
  let limit : Nat := 2147483647
  let first := positionOf (if start ≥ 1.0 then rounded start else start) limit
  let stop := match length with
    | none => limit
    | some l =>
      let stop := rounded start + rounded l
      if !(stop ≥ 1.0) then 1 else positionOf stop limit
  String.ofList ((s.toList.drop (first - 1)).take (stop - first))

/-- Runs of white space become one space, those at the ends nothing. -/
def normalizeSpace (cs : List Char) : List (List Char) :=
  match _h : cs.dropWhile Text.isSpace with
  | [] => []
  | c :: rest =>
    (c :: rest.takeWhile (!Text.isSpace ·)) :: normalizeSpace (rest.dropWhile (!Text.isSpace ·))
  termination_by cs.length
  decreasing_by
    have h₁ := (List.dropWhile_suffix Text.isSpace (l := cs)).length_le
    have h₂ := (List.dropWhile_suffix (fun c => !Text.isSpace c) (l := rest)).length_le
    rw [_h, List.length_cons] at h₁
    omega

def translate (s source target : String) : String :=
  let source := source.toList
  let target := target.toList
  String.ofList (s.toList.filterMap fun c =>
    match source.idxOf? c with
    | none => some c
    | some i => target[i]?)

/-- The language of a node: that of the nearest element that says one. -/
def language? (ds : Documents) (n : XNode) : Option String :=
  let chain := match n.item with
    | .ns .. => []
    | _ => n :: n.ancestors ds
  chain.findSome? fun a =>
    match a.item with
    | .branch (.element _ e _) =>
      (e.attributes.find? fun x => x.name = ⟨xmlUri, "lang"⟩).map (·.value)
    | _ => none

/-- Whether a language is another or a sublanguage of it, whatever the case of its letters. -/
def isLanguage (found wanted : String) : Bool :=
  let upper (s : String) : List Char := s.toList.map Char.toUpper
  match (upper wanted).isPrefixOf? (upper found) with
  | some [] => true
  | some (c :: _) => c == '-'
  | none => false

/-- The value of a core function, none if there is no such function for such arguments. -/
def apply (env : Environment) (ctx : Context) (name : String) (args : List XValue) :
    Option XValue :=
  let self : XValue := .nodes [ctx.node]
  /- The first node of an argument, which may be left out for the context node. -/
  let node? (args : List XValue) : Option (Option XNode) :=
    match args with
    | [] => some (some ctx.node)
    | [.nodes ns] => some ns.head?
    | _ => none
  match name, args with
  | "last", [] => ctx.position.map fun p => .number (Float.ofNat p.2)
  | "position", [] => ctx.position.map fun p => .number (Float.ofNat p.1)
  | "count", [a] => a.toNodes.map fun ns => .number (Float.ofNat ns.length)
  | "id", [_] => some (.nodes [])
  | "local-name", args => (node? args).map fun n => .string ((n.map (·.localName)).getD "")
  | "namespace-uri", args => (node? args).map fun n => .string ((n.map (·.namespaceUri)).getD "")
  | "name", args => (node? args).map fun n => .string ((n.map (·.qualifiedName)).getD "")
  | "string", [] => some (.string self.toString)
  | "string", [a] => some (.string a.toString)
  | "concat", a :: b :: rest =>
    some (.string (String.join ((a :: b :: rest).map (·.toString))))
  | "starts-with", [a, b] =>
    some (.boolean (b.toString.toList.isPrefixOf a.toString.toList))
  | "contains", [a, b] =>
    some (.boolean (find? a.toString.toList b.toString.toList).isSome)
  | "substring-before", [a, b] => some (.string (substringBefore a.toString b.toString))
  | "substring-after", [a, b] => some (.string (substringAfter a.toString b.toString))
  | "substring", [a, b] => some (.string (substring a.toString b.toNumber none))
  | "substring", [a, b, c] =>
    some (.string (substring a.toString b.toNumber (some c.toNumber)))
  | "string-length", [] => some (.number (Float.ofNat self.toString.length))
  | "string-length", [a] => some (.number (Float.ofNat a.toString.length))
  | "normalize-space", [] => some (.string (normalized self))
  | "normalize-space", [a] => some (.string (normalized a))
  | "translate", [a, b, c] => some (.string (translate a.toString b.toString c.toString))
  | "boolean", [a] => some (.boolean a.toBoolean)
  | "not", [a] => some (.boolean !a.toBoolean)
  | "true", [] => some (.boolean true)
  | "false", [] => some (.boolean false)
  | "lang", [a] =>
    some (.boolean ((language? env.documents ctx.node).any fun l => isLanguage l a.toString))
  | "number", [] => some (.number self.toNumber)
  | "number", [a] => some (.number a.toNumber)
  | "sum", [a] => a.toNodes.map fun ns =>
    .number (ns.foldl (fun x n => x + numberOf n.stringValue) 0.0)
  | "floor", [a] => some (.number a.toNumber.floor)
  | "ceiling", [a] => some (.number a.toNumber.ceil)
  | "round", [a] => some (.number (roundNumber a.toNumber))
  | _, _ => none
where
  normalized (v : XValue) : String :=
    String.intercalate " " ((normalizeSpace v.toString.toList).map String.ofList)

end CoreFunction

end TreeQuery.XPath
