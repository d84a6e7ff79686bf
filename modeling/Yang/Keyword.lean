/-! The words that name a statement of the language, one constructor each. `deviate` is not among
them: what it starts is known only from its argument. -/
namespace Yang

inductive Keyword where
  | module | submodule | yangVersion | namespaceStmt | prefixStmt | belongsTo |
    importStmt | includeStmt
  | revisionDate
  | organization | contact | description | reference | revision
  | extension | argument | yinElement | identity | base | feature | ifFeature
  | typedef | type | range | fractionDigits | length | pattern | enum | value | path |
    requireInstance | bit
  | position | errorMessage | errorAppTag
  | units | default | status | config | mandatory | presence | orderedBy | must | when | minElements
  | maxElements | key | unique
  | grouping | container | leaf | leafList | list | choice | case | anyxml | uses | refine | augment
  | rpc | input | output | notification | deviation
deriving DecidableEq

namespace Keyword

def all : List Keyword :=
  [module, submodule, yangVersion, namespaceStmt, prefixStmt, belongsTo, importStmt, includeStmt,
    revisionDate, organization, contact, description, reference, revision,
    extension, argument, yinElement, identity, base, feature, ifFeature,
    typedef, type, range, fractionDigits, length, pattern, enum, value, path, requireInstance, bit,
    position, errorMessage, errorAppTag,
    units, default, status, config, mandatory, presence, orderedBy, must, when, minElements,
    maxElements, key, unique,
    grouping, container, leaf, leafList, list, choice, case, anyxml, uses, refine, augment,
    rpc, input, output, notification, deviation]

def name : Keyword → String
  | module => "module"
  | submodule => "submodule"
  | yangVersion => "yang-version"
  | namespaceStmt => "namespace"
  | prefixStmt => "prefix"
  | belongsTo => "belongs-to"
  | importStmt => "import"
  | includeStmt => "include"
  | revisionDate => "revision-date"
  | organization => "organization"
  | contact => "contact"
  | description => "description"
  | reference => "reference"
  | revision => "revision"
  | extension => "extension"
  | argument => "argument"
  | yinElement => "yin-element"
  | identity => "identity"
  | base => "base"
  | feature => "feature"
  | ifFeature => "if-feature"
  | typedef => "typedef"
  | type => "type"
  | range => "range"
  | fractionDigits => "fraction-digits"
  | length => "length"
  | pattern => "pattern"
  | enum => "enum"
  | value => "value"
  | path => "path"
  | requireInstance => "require-instance"
  | bit => "bit"
  | position => "position"
  | errorMessage => "error-message"
  | errorAppTag => "error-app-tag"
  | units => "units"
  | default => "default"
  | status => "status"
  | config => "config"
  | mandatory => "mandatory"
  | presence => "presence"
  | orderedBy => "ordered-by"
  | must => "must"
  | when => "when"
  | minElements => "min-elements"
  | maxElements => "max-elements"
  | key => "key"
  | unique => "unique"
  | grouping => "grouping"
  | container => "container"
  | leaf => "leaf"
  | leafList => "leaf-list"
  | list => "list"
  | choice => "choice"
  | case => "case"
  | anyxml => "anyxml"
  | uses => "uses"
  | refine => "refine"
  | augment => "augment"
  | rpc => "rpc"
  | input => "input"
  | output => "output"
  | notification => "notification"
  | deviation => "deviation"

def ofName? (word : String) : Option Keyword := all.find? (·.name == word)

theorem mem_all (k : Keyword) : k ∈ all := by cases k <;> decide

theorem name_injective {k l : Keyword} (same : k.name = l.name) : k = l := by
  have distinct : ∀ k ∈ all, ∀ l ∈ all, k.name = l.name → k = l := by decide +kernel
  exact distinct k (mem_all k) l (mem_all l) same

theorem ofName?_eq_some {word : String} {k : Keyword} : ofName? word = some k ↔ k.name = word := by
  constructor
  · intro found
    simpa using List.find?_some found
  · rintro rfl
    cases found : ofName? k.name with
    | none => simpa using List.find?_eq_none.mp found k (mem_all k)
    | some l =>
      have same : l = k := name_injective (by simpa using List.find?_some found)
      rw [same]

end Keyword

end Yang
