/-! Sets of names as sorted lists. Names are compared by code point. -/

namespace AcornCatalog.Text

/-- The names of a list, each once and in increasing order. -/
def sortedDistinct (names : List String) : List String := names.eraseDups.mergeSort fun a b => decide (a ≤ b)

end AcornCatalog.Text
