import Yang.Grammar.Rule

/-! The rule of every kind of statement. Extension statements are admitted nearly everywhere;
`revision`, `import`, `include` and `belongs-to` take none. -/
namespace Yang.Grammar

def one (k : Keyword) : Substatement := ⟨.core k, .exactlyOne⟩

def atMostOne (k : Keyword) : Substatement := ⟨.core k, .zeroOrOne⟩

def many (k : Keyword) : Substatement := ⟨.core k, .zeroOrMore⟩

def atLeastOne (k : Keyword) : Substatement := ⟨.core k, .oneOrMore⟩

def extensions : Substatement := ⟨.extension, .zeroOrMore⟩

def documentation : List Substatement := [atMostOne .description, atMostOne .reference]

def statusAndDocumentation : List Substatement := atMostOne .status :: documentation

/-- What is said when a restriction is not met, and texts about the restriction. -/
def errorReport : List Substatement :=
  [atMostOne .errorMessage, atMostOne .errorAppTag] ++ documentation ++ [extensions]

/-- Definitions that can be used where they stand in scope. -/
def scopedDefinitions : List Substatement := [many .typedef, many .grouping]

def dataDefinitions : List Substatement :=
  [many .container, many .leaf, many .leafList, many .list, many .choice, many .anyxml, many .uses]

/-- The data definitions that stand in a `choice` without a `case` around them. -/
def shortCases : List Substatement :=
  [many .container, many .leaf, many .leafList, many .list, many .anyxml]

/-- Conditions on when a definition is there. -/
def conditions : List Substatement := [atMostOne .when, many .ifFeature]

/-- What modules and submodules hold behind their headers. -/
def unitContents : List Substatement :=
  [many .importStmt, many .includeStmt, atMostOne .organization, atMostOne .contact] ++
    documentation ++
    [many .revision, many .extension, many .feature, many .identity, many .typedef,
      many .grouping] ++
    dataDefinitions ++ [many .augment, many .rpc, many .notification, many .deviation, extensions]

def argumentOnly : Rule := ⟨.required, .terminator, [⟨.extension, .zeroOrOne⟩]⟩

def coreRule : Keyword → Rule
  | .module =>
    ⟨.required, .block, [atMostOne .yangVersion, one .namespaceStmt, one .prefixStmt] ++
      unitContents⟩
  | .submodule => ⟨.required, .block, [atMostOne .yangVersion, one .belongsTo] ++ unitContents⟩
  | .belongsTo => ⟨.required, .block, [one .prefixStmt]⟩
  | .importStmt => ⟨.required, .block, [one .prefixStmt, atMostOne .revisionDate]⟩
  | .includeStmt => ⟨.required, .optionalBlock, [atMostOne .revisionDate]⟩
  | .revision => ⟨.required, .optionalBlock, documentation⟩
  | .extension =>
    ⟨.required, .optionalBlock, atMostOne .argument :: statusAndDocumentation ++ [extensions]⟩
  | .argument => ⟨.required, .optionalBlock, [atMostOne .yinElement, extensions]⟩
  | .identity =>
    ⟨.required, .optionalBlock, atMostOne .base :: statusAndDocumentation ++ [extensions]⟩
  | .feature =>
    ⟨.required, .optionalBlock, many .ifFeature :: statusAndDocumentation ++ [extensions]⟩
  | .typedef =>
    ⟨.required, .nonEmptyBlock,
      [one .type, atMostOne .units, atMostOne .default] ++ statusAndDocumentation ++ [extensions]⟩
  | .type =>
    ⟨.required, .optionalBlock,
      [atMostOne .range, atMostOne .fractionDigits, atMostOne .length, many .pattern, many .enum,
        atMostOne .path, atMostOne .base, atMostOne .requireInstance, many .bit, many .type,
          extensions]⟩
  | .range | .length | .pattern => ⟨.required, .optionalBlock, errorReport⟩
  | .enum => ⟨.required, .optionalBlock, atMostOne .value :: statusAndDocumentation ++ [extensions]⟩
  | .bit =>
    ⟨.required, .optionalBlock, atMostOne .position :: statusAndDocumentation ++ [extensions]⟩
  | .must => ⟨.required, .optionalBlock, errorReport⟩
  | .when => ⟨.required, .optionalBlock, documentation ++ [extensions]⟩
  | .grouping =>
    ⟨.required, .optionalBlock,
      statusAndDocumentation ++ scopedDefinitions ++ dataDefinitions ++ [extensions]⟩
  | .container =>
    ⟨.required, .optionalBlock,
      conditions ++ [many .must, atMostOne .presence, atMostOne .config] ++
        statusAndDocumentation ++
        scopedDefinitions ++ dataDefinitions ++ [extensions]⟩
  | .leaf =>
    ⟨.required, .block,
      conditions ++ [one .type, atMostOne .units, many .must, atMostOne .default, atMostOne .config,
        atMostOne .mandatory] ++ statusAndDocumentation ++ [extensions]⟩
  | .leafList =>
    ⟨.required, .block,
      conditions ++ [one .type, atMostOne .units, many .must, atMostOne .config,
        atMostOne .minElements, atMostOne .maxElements, atMostOne .orderedBy] ++
          statusAndDocumentation ++ [extensions]⟩
  | .list =>
    ⟨.required, .nonEmptyBlock,
      conditions ++ [many .must, atMostOne .key, many .unique, atMostOne .config,
        atMostOne .minElements, atMostOne .maxElements, atMostOne .orderedBy] ++
          statusAndDocumentation ++
        scopedDefinitions ++ dataDefinitions ++ [extensions]⟩
  | .choice =>
    ⟨.required, .optionalBlock,
      conditions ++ [atMostOne .default, atMostOne .config, atMostOne .mandatory] ++
        statusAndDocumentation ++ many .case :: shortCases ++ [extensions]⟩
  | .case =>
    ⟨.required, .optionalBlock, conditions ++ statusAndDocumentation ++ dataDefinitions ++
      [extensions]⟩
  | .anyxml =>
    ⟨.required, .optionalBlock,
      conditions ++ [many .must, atMostOne .config, atMostOne .mandatory] ++
        statusAndDocumentation ++
        [extensions]⟩
  | .uses =>
    ⟨.required, .optionalBlock,
      conditions ++ statusAndDocumentation ++ [many .refine, many .augment, extensions]⟩
  | .refine =>
    ⟨.required, .optionalBlock,
      [many .must, atMostOne .presence, atMostOne .default, atMostOne .config, atMostOne .mandatory,
        atMostOne .minElements, atMostOne .maxElements] ++ documentation ++ [extensions]⟩
  | .augment =>
    ⟨.required, .nonEmptyBlock,
      conditions ++ statusAndDocumentation ++ dataDefinitions ++ [many .case, extensions]⟩
  | .rpc =>
    ⟨.required, .optionalBlock,
      many .ifFeature :: statusAndDocumentation ++ scopedDefinitions ++
        [atMostOne .input, atMostOne .output, extensions]⟩
  | .input | .output =>
    ⟨.none, .nonEmptyBlock, scopedDefinitions ++ dataDefinitions ++ [extensions]⟩
  | .notification =>
    ⟨.required, .optionalBlock,
      many .ifFeature :: statusAndDocumentation ++ scopedDefinitions ++ dataDefinitions ++
        [extensions]⟩
  | .deviation =>
    ⟨.required, .nonEmptyBlock,
      documentation ++ DeviateForm.all.map (⟨.deviate ·, .zeroOrMore⟩) ++ [extensions]⟩
  | _ => argumentOnly

def deviateRule : DeviateForm → Rule
  | .notSupported => argumentOnly
  | .add =>
    ⟨.required, .optionalBlock,
      [many .units, many .must, many .unique, many .default, many .config, many .mandatory,
        many .minElements, many .maxElements, extensions]⟩
  | .replace =>
    ⟨.required, .optionalBlock,
      [many .type, many .units, many .default, many .config, many .mandatory, many .minElements,
        many .maxElements, extensions]⟩
  | .delete =>
    ⟨.required, .optionalBlock, [many .units, many .must, many .unique, many .default, extensions]⟩

/-- An extension statement may have an argument, and holds nothing but extension statements. -/
def extensionRule : Rule := ⟨.optional, .optionalBlock, [extensions]⟩

def rule : Statement.Kind → Rule
  | .core k => coreRule k
  | .deviate f => deviateRule f
  | .extension => extensionRule

/-- No rule names a kind twice. -/
theorem substatements_nodup (k : Statement.Kind) : ((rule k).substatements.map (·.kind)).Nodup := by
  have each : ∀ k ∈ Statement.Kind.all, ((rule k).substatements.map (·.kind)).Nodup := by
    decide +kernel
  exact each k k.mem_all

end Yang.Grammar
