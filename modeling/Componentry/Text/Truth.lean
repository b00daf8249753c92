/-!
# Words for truth values
-/

namespace Componentry.Text

/-- The truth value that a word stands for. -/
def truthOf? (w : String) : Option Bool :=
  if ["1", "t", "T", "TRUE", "true", "True"].contains w then some true
  else if ["0", "f", "F", "FALSE", "false", "False"].contains w then some false
  else none

end Componentry.Text
