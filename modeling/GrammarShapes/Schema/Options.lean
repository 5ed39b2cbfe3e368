set_option autoImplicit false

/-! # Options of schema generation -/

namespace GrammarShapes

structure Options where
  /-- Rules whose name starts with this character are inlined. -/
  hiddenPrefix : Char := '_'
  /-- Whether the shapes of the extras are added to every collection rule. -/
  includeExtras : Bool := true
deriving DecidableEq

/-- Whether a rule of this name is inlined into the rules that refer to it. -/
def Options.isHidden (o : Options) (name : String) : Bool :=
  name.toList.head? == some o.hiddenPrefix

end GrammarShapes
