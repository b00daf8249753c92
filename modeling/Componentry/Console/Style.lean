/-!
# Coloured text

A style is a list of attributes, written as numbers between escape marks. There are two ways to end
a style: `span` resets everything, `wrap` ends each attribute by its own number, so that a bold text
may stand inside another style. Without colours a style changes nothing.
-/

namespace Componentry

/-- What a style consists of. -/
inductive Attribute where
  | bold | red | green | yellow | cyan | gray
  deriving DecidableEq, Repr

/-- The number that starts an attribute. -/
def Attribute.code : Attribute → Nat
  | .bold => 1
  | .red => 31
  | .green => 32
  | .yellow => 33
  | .cyan => 36
  | .gray => 90

/-- The number that ends an attribute. -/
def Attribute.endCode : Attribute → Nat
  | .bold => 22
  | _ => 0

abbrev Style := List Attribute

namespace Style

/-- Numbers between escape marks. -/
def escape (codes : List Nat) : String :=
  "\x1b[" ++ String.intercalate ";" (codes.map toString) ++ "m"

/-- A text in a style, ended by a reset. -/
def span (s : Style) (colors : Bool) (text : String) : String :=
  if colors then escape (s.map Attribute.code) ++ text ++ escape [0] else text

/-- A text in a style, each attribute ended by its own number. -/
def wrap (s : Style) (colors : Bool) (text : String) : String :=
  if colors then
    escape (s.map Attribute.code) ++ text ++ escape (s.map Attribute.endCode)
  else text

end Style

end Componentry
