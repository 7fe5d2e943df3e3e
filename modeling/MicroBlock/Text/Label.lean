/-! Messages under a label. -/

namespace MicroBlock.Text

/-- A message after the label it belongs to; an empty label is left out. -/
def labelled (label message : String) : String :=
  if label = "" then message else label ++ ": " ++ message

end MicroBlock.Text
