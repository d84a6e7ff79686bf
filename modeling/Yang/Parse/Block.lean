import Yang.Parse.Fault

/-! Blocks that are being read. A block knows what its statement is, which substatements it has so
far, and how far it has come: the restrictions of a type fix its shape, and a unit goes through its
regions. -/
namespace Yang.Parse

open Grammar

inductive Progress where
  | plain
  /-- The restrictions of a type: their shape, once there are any. -/
  | restrictions (shape : Option TypeShape)
  /-- A unit: its present region, and the header statement so far that comes last in the header's
  order. -/
  | unit (region : Region) (highest : Option Statement.Kind)
deriving DecidableEq

/-- Where a block of the given kind begins. -/
def Progress.first (k : Statement.Kind) : Progress :=
  if k.isUnit then unit .header none
  else if k = .core .type then restrictions none
  else plain

structure Block where
  kind : Statement.Kind
  keyword : Token
  argument : Option String
  children : Array Statement
  progress : Progress

namespace Block

def opened (kind : Statement.Kind) (keyword : Token) (argument : Option String) : Block :=
  ⟨kind, keyword, argument, #[], .first kind⟩

def push (b : Block) (s : Statement) : Block := { b with children := b.children.push s }

/-- A token starts a restriction or an extension statement in a type whose shape is known so far. -/
def receiveRestriction (b : Block) (shape : Option TypeShape) (t : Token) :
    Except Fault (Starter × Progress) :=
  match t.kind.statementKind? with
  | none => .error (.notPermitted b.kind b.argument)
  | some .extension => .ok (.kind .extension, .restrictions shape)
  | some k =>
    if permits (rule b.kind).substatements k then
      match shape with
      | none => .ok (.kind k, .restrictions (TypeShape.ofFirst? k))
      | some known =>
        match known.extend? k with
        | some extended => .ok (.kind k, .restrictions (some extended))
        | none => .error (.restrictionsConflict k known b.kind b.argument)
    else .error (.notPermitted b.kind b.argument)

/-- A kind of statement stands in a unit's header behind `highest`. -/
def receiveHeader (strict : Bool) (b : Block) (highest : Option Statement.Kind)
    (k : Statement.Kind) :
    Except Fault (Starter × Progress) :=
  match highest with
  | none => .ok (.kind k, .unit .header (some k))
  | some previous =>
    if headerRank b.kind k < headerRank b.kind previous then
      if strict then .error (.headerOrder k previous b.kind b.argument)
      else .ok (.kind k, .unit .header (some previous))
    else .ok (.kind k, .unit .header (some k))

/-- A token starts a statement of a unit's present region or of a later one. -/
def receiveInUnit (strict : Bool) (b : Block) (present : Region) (highest : Option Statement.Kind)
    (t : Token) :
    Except Fault (Starter × Progress) :=
  match t.kind.statementKind? with
  | none => .error (.notPermitted b.kind b.argument)
  | some k =>
    match region? b.kind k with
    | none => .error (.notPermitted b.kind b.argument)
    | some region =>
      if region.index < present.index then .error (.regionOrder region b.kind b.argument)
      else if region = .header then receiveHeader strict b highest k
      else .ok (.kind k, .unit region highest)

/-- What a token starts in a block, and how far it takes the block. -/
def receive (strict : Bool) (b : Block) (t : Token) : Except Fault (Starter × Progress) :=
  match b.progress with
  | .plain =>
    match Starter.inside? b.kind t.kind with
    | some s => .ok (s, .plain)
    | none => .error (.notPermitted b.kind b.argument)
  | .restrictions shape => receiveRestriction b shape t
  | .unit present highest => receiveInUnit strict b present highest t

def statement (b : Block) (close : Token) : Statement :=
  ⟨b.kind, b.keyword.text, b.argument, b.children.toList, b.keyword.span.cover close.span⟩

def countingRules (b : Block) : List Substatement :=
  match b.progress with
  | .restrictions shape => TypeShape.bodyRules shape
  | _ => (rule b.kind).substatements

/-- What breaks the counts of a block that a token closes. -/
def violations (b : Block) (close : Token) : List StructuralError :=
  (Violation.ofBlock b.countingRules ((rule b.kind).ending = .nonEmptyBlock)
    (b.children.toList.map (·.kind))).map
      (⟨b.kind, b.argument, ·, b.keyword.span.cover close.span⟩)

end Block

end Yang.Parse
