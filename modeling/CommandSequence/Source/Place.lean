import CommandSequence.Source.Token

/-!
# What may begin a line

Sequence text is a header, a body of steps and requests, and sections of immediate and hardware
commands among which only requests may follow. A line's place is the region it stands in together
with the construct that its predecessor left open: directives may still follow a step, metadata a
request or command. `Place.levels` gives what may begin the line, the open construct first.
-/

namespace CommandSequence.Source

/-- The blocks of declarations. -/
inductive Block where
  | parameters
  | locals
deriving DecidableEq, Repr

namespace Block

/-- The terminal that closes a block. -/
def closer : Block → Terminal
  | .parameters => .parametersEnd
  | .locals => .localsEnd

end Block

/-- The regions of a text. A request is late if it stands after the body's end. -/
inductive Region where
  | start
  | opened
  | identified
  | parameterized
  | header
  | declarations (block : Block)
  | body
  | request (late : Bool)
  | immediate
  | hardware
  | trailer
deriving DecidableEq, Repr

/-- The time tags of steps. -/
def timeTags : List Terminal :=
  [.absoluteTime, .commandComplete, .commandRelative, .epochRelative]

/-- What begins a step or request. -/
def openers : List Terminal := .groundEpoch :: timeTags

/-- What may follow the header, and steps and requests of the body. -/
def bodyOpeners : List Terminal := .immediate :: .hardware :: .endOfInput :: openers

/-- What may follow a header directive. -/
def headerOpeners : List Terminal := .loadAndGo :: .metadata :: bodyOpeners

/-- The directives of a step. -/
def directives : List Terminal := [.metadata, .model, .engine, .epoch]

namespace Region

/-- What may begin a construct of the region. -/
def admits : Region → List Terminal
  | .start => .description :: .newline :: .id :: .parametersBegin :: .localsBegin :: headerOpeners
  | .opened => .id :: .parametersBegin :: .localsBegin :: headerOpeners
  | .identified => .parametersBegin :: .localsBegin :: headerOpeners
  | .parameterized => .localsBegin :: headerOpeners
  | .header => headerOpeners
  | .declarations block => [.identifier, block.closer]
  | .body => bodyOpeners
  | .request _ => .requestEnd :: timeTags
  | .immediate => .identifier :: .hardware :: .endOfInput :: openers
  | .hardware => .identifier :: .endOfInput :: openers
  | .trailer => .endOfInput :: openers

/-- The region that a block of declarations leads to. -/
def afterBlock : Block → Region
  | .parameters => .parameterized
  | .locals => .header

/-- Whether a request that begins in the region is a late one. -/
def isLate : Region → Bool
  | .immediate | .hardware | .trailer => true
  | _ => false

end Region

/-- The construct that a line left open. -/
inductive Tail where
  | closed
  | declaration
  | step
  | request
  | command
deriving DecidableEq, Repr

/-- The place of a line: its region, the construct left open before it, and whether the line before
it was one of metadata. -/
structure Place where
  region : Region
  tail : Tail := .closed
  afterMetadata : Bool := false
deriving DecidableEq, Repr

namespace Place

/-- The beginning of a text. -/
def start : Place := { region := .start }

/-- What the open construct admits, and what it takes. -/
def tailLevel (region : Region) : Tail → List Level
  | .closed => []
  | .declaration => [⟨[.identifier, .parametersEnd, .localsEnd], []⟩]
  | .step => [⟨.requestEnd :: (directives ++ bodyOpeners), directives⟩]
  | .request => [⟨.metadata :: bodyOpeners, [.metadata]⟩]
  | .command => [⟨.metadata :: region.admits, [.metadata]⟩]

/-- What may follow metadata anywhere. -/
def afterMetadataLevel : Level :=
  ⟨.identifier :: .loadAndGo :: .requestEnd :: (directives ++ bodyOpeners), []⟩

/-- What may follow the metadata of a request or command. -/
def afterTrailingMetadataLevel : Level :=
  ⟨.identifier :: .metadata :: bodyOpeners, []⟩

/-- What may begin the line. -/
def levels (p : Place) : List Level :=
  let metadata := if p.afterMetadata then [afterMetadataLevel] else []
  let trailing :=
    if p.afterMetadata && (p.tail == .request || p.tail == .command) then
      [afterTrailingMetadataLevel]
    else []
  metadata ++ trailing ++ tailLevel p.region p.tail ++ [⟨p.region.admits, []⟩]

end Place

end CommandSequence.Source
