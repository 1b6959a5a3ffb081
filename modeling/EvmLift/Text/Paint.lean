/-!
# Coloured text

Terminal colours as escape sequences around a text. Colour is switched on or off
by the caller, and an empty text never gets any.
-/

namespace EvmLift

/-- The paints that listings use. `reset` returns to the terminal's own colour. -/
inductive Paint where
  | blue | green | red | gray | reset
  deriving Repr, DecidableEq

namespace Paint

/-- The escape sequence that starts a paint. -/
def escape : Paint → String
  | .blue => "\x1b[94m"
  | .green => "\x1b[92m"
  | .red => "\x1b[91m"
  | .gray => "\x1b[38;5;8m"
  | .reset => "\x1b[0m"

/-- A text in a paint, if colour is on and there is something to paint. -/
def apply (paint : Paint) (color : Bool) (text : String) : String :=
  if color && !text.isEmpty then paint.escape ++ text ++ reset.escape else text

end Paint

end EvmLift
