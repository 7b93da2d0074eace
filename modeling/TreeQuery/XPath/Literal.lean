/-!
# Text as a literal of an expression

A literal has no escapes: a text with both kinds of quote is put together from literals that have
one kind each.
-/

namespace TreeQuery.XPath

/-- A text cut at its single quotes: each quote between double ones, each run without between
single ones. -/
def literalParts (cs : List Char) : List (List Char) :=
  match cs with
  | [] => []
  | c :: rest =>
    if c == '\'' then ['"', '\'', '"'] :: literalParts rest
    else
      ('\'' :: c :: rest.takeWhile (· != '\'') ++ ['\'']) ::
        literalParts (rest.dropWhile (· != '\''))
  termination_by cs.length
  decreasing_by
    · simp
    · simp only [List.length_cons]
      have := (List.dropWhile_suffix (fun x : Char => x != '\'') (l := rest)).length_le
      omega

/-- An expression whose value is the text. -/
def literal (text : String) : String :=
  let cs := text.toList
  if !cs.contains '\'' then "'" ++ text ++ "'"
  else if !cs.contains '"' then "\"" ++ text ++ "\""
  else "concat(" ++ ", ".intercalate ((literalParts cs).map String.ofList) ++ ")"

end TreeQuery.XPath
