/-!
# Enumerations

Listings write operands, parameters and constants one after the other with commas
between them.
-/

namespace EvmLift.Text

/-- Texts with commas between them. -/
def commaSeparated (items : List String) : String :=
  String.intercalate ", " items

end EvmLift.Text
