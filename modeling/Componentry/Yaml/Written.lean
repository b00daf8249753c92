import Componentry.Text.Quoted
import Componentry.Yaml.Scalar

/-!
# Writing texts

A text is written plainly if it then reads back as a text, else between quotes.
-/

namespace Componentry.Yaml

/-- Characters that mean something at the start of a scalar. -/
def indicators : List Char := "-?:,[]\x7b\x7d#&*!|>'\"%@`".toList

/-- Two characters that mean something within a scalar stand next to each other. -/
def hasMark : List Char → Bool
  | ':' :: ' ' :: _ => true
  | [':'] => true
  | ' ' :: '#' :: _ => true
  | _ :: cs => hasMark cs
  | [] => false

/-- The text can stand without quotes. -/
def isPlain (s : String) : Bool :=
  let cs := s.toList
  plainTag s = .str && !(cs.head?.any indicators.contains) && !hasMark cs &&
    cs.head? ≠ some ' ' && cs.getLast? ≠ some ' ' && cs.all Text.isPrintable

/-- A text between single quotes. -/
def singleQuoted (s : String) : String :=
  "'" ++ String.ofList (s.toList.flatMap fun c => if c = '\'' then ['\'', '\''] else [c]) ++ "'"

/-- A text as a scalar. -/
def scalar (s : String) : String :=
  if isPlain s then s
  else if plainTag s = .str && s.toList.all Text.isPrintable then singleQuoted s
  else Text.quote s

/-- Groups of entries, the entries indented by four spaces. -/
def groups (gs : List (String × List (String × String))) : String :=
  String.join (gs.map fun (name, entries) =>
    name ++ ":\n" ++
      String.join (entries.map fun (key, value) => "    " ++ key ++ ": " ++ scalar value ++ "\n"))

end Componentry.Yaml
