import Yang.Keyword

/-! What a caller chooses: which units may stand in the text, and how strictly they are read. -/
namespace Yang

inductive Entry where
  | anyUnit
  | module
  | submodule
deriving DecidableEq

def Entry.accepted : Entry → List Keyword
  | anyUnit => [.module, .submodule]
  | module => [.module]
  | submodule => [.submodule]

structure Options where
  /-- Whether the statements of a header have to stand in their order. -/
  strictHeaderOrder : Bool := true
  /-- Whether the first block with a wrong count ends the parse. -/
  failFast : Bool := false
deriving DecidableEq

end Yang
