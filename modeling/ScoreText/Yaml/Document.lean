import ScoreText.Yaml.Token

/-!
The tree that the signs of a document make. Signs are read from the front, and a reader returns
those that it leaves. An alias is what its anchor stands at; the anchor comes before it.
-/

set_option autoImplicit false

namespace ScoreText

namespace Yaml

/-- The signs ahead, and what anchors stand at. -/
structure Stream where
  tokens : List Token
  anchors : List (Text × Node) := []
  /-- What handles stand for in tags. -/
  handles : List (Text × Text)

namespace Stream

/-- Moves on to some signs. -/
def moveTo (s : Stream) (tokens : List Token) : Stream := { s with tokens }

/-- Whether the next sign is one of these. -/
def startsWith (s : Stream) (ts : List Token) : Bool := s.tokens.head?.any (ts.contains ·)

end Stream

/-- What may stand in front of a node. -/
structure Properties where
  anchor : Option Text := none
  tag : Option Text := none

/-- The name of a tag. -/
def tagName? (handles : List (Text × Text)) (handle suffix : Text) : Option Text :=
  if handle.isEmpty then some suffix
  else (handles.lookup handle).map fun expansion => expansion ++ suffix

/-- The properties in front of a node: an anchor, a tag, or both in either order. -/
def properties? (s : Stream) : Option (Properties × Stream) :=
  match s.tokens with
  | .anchor a :: .tag h t :: r =>
    (tagName? s.handles h t).map fun tag => ({ anchor := some a, tag := some tag }, s.moveTo r)
  | .tag h t :: .anchor a :: r =>
    (tagName? s.handles h t).map fun tag => ({ anchor := some a, tag := some tag }, s.moveTo r)
  | .anchor a :: r => some ({ anchor := some a }, s.moveTo r)
  | .tag h t :: r => (tagName? s.handles h t).map fun tag => ({ tag := some tag }, s.moveTo r)
  | _ => some ({}, s)

/-- What a node may be made of besides scalars. -/
inductive Setting where
  /-- In brackets no blocks start. -/
  | flow
  | block
  /-- After a key or a colon, the items of a sequence need no block of their own. -/
  | entry
  deriving DecidableEq

/-- The node where nothing is written after properties. -/
def nothing? (p : Properties) (s : Stream) : Option (Node × Stream) :=
  if p.anchor.isSome || p.tag.isSome then some (.scalar .plain p.tag [], s) else none

mutual

/-- The node that starts here. Every node and every entry takes one step. -/
def node? : Nat → Setting → Stream → Option (Node × Stream)
  | 0, _, _ => none
  | fuel + 1, setting, s =>
    match s.tokens with
    | .alias name :: r => (s.anchors.lookup name).map fun node => (node, s.moveTo r)
    | _ => do
      let (p, s) ← properties? s
      let (node, s) ← content? fuel setting p s
      match p.anchor with
      | some name => return (node, { s with anchors := (name, node) :: s.anchors })
      | none => return (node, s)

/-- What a node holds after its properties. -/
def content? : Nat → Setting → Properties → Stream → Option (Node × Stream)
  | 0, _, _, _ => none
  | fuel + 1, setting, p, s =>
    match s.tokens with
    | .scalar style text :: r =>
      some (.scalar style p.tag text, s.moveTo r)
    | .flowSequence :: r =>
      (flowItems? fuel true (s.moveTo r)).map fun (items, s) => (.sequence items, s)
    | .flowMapping :: r =>
      (flowEntries? fuel true (s.moveTo r)).map fun (entries, s) => (.mapping entries, s)
    | t :: r =>
      if setting = .entry ∧ t = .item then
        (items? fuel true s).map fun (items, s) => (.sequence items, s)
      else if setting ≠ .flow ∧ t = .blockSequence then
        (items? fuel false (s.moveTo r)).map fun (items, s) => (.sequence items, s)
      else if setting ≠ .flow ∧ t = .blockMapping then
        (entries? fuel (s.moveTo r)).map fun (entries, s) => (.mapping entries, s)
      else nothing? p s
    | [] => nothing? p s

/-- The node that starts here unless one of these signs comes first. -/
def nodeUnless? : Nat → List Token → Setting → Stream → Option (Node × Stream)
  | 0, _, _, _ => none
  | fuel + 1, ts, setting, s =>
    if s.startsWith ts then some (.empty, s) else node? fuel setting s

/-- The items of a sequence up to its end. A loose one has no block of its own and so no end but
what follows. -/
def items? : Nat → Bool → Stream → Option (List Node × Stream)
  | 0, _, _ => none
  | fuel + 1, isLoose, s =>
    match s.tokens with
    | .item :: r => do
      let ends := if isLoose then [.item, .key, .value, .blockEnd] else [.item, .blockEnd]
      let (node, s) ← nodeUnless? fuel ends .block (s.moveTo r)
      let (items, s) ← items? fuel isLoose s
      return (node :: items, s)
    | .blockEnd :: r => if isLoose then some ([], s) else some ([], s.moveTo r)
    | _ => if isLoose then some ([], s) else none

/-- The entries of a mapping up to the end of its block. -/
def entries? : Nat → Stream → Option (List (Node × Node) × Stream)
  | 0, _ => none
  | fuel + 1, s =>
    match s.tokens with
    | .key :: r => do
      let ends := [.key, .value, .blockEnd]
      let (key, s) ← nodeUnless? fuel ends .entry (s.moveTo r)
      let (value, s) ←
        match s.tokens with
        | .value :: r => nodeUnless? fuel ends .entry (s.moveTo r)
        | _ => some (.empty, s)
      let (entries, s) ← entries? fuel s
      return ((key, value) :: entries, s)
    | .blockEnd :: r => some ([], s.moveTo r)
    | _ => none

/-- The value after a key in brackets, where there may be none. -/
def flowValue? : Nat → Token → Stream → Option (Node × Stream)
  | 0, _, _ => none
  | fuel + 1, close, s =>
    match s.tokens with
    | .value :: r => nodeUnless? fuel [.flowComma, close] .flow (s.moveTo r)
    | _ => some (.empty, s)

/-- The items of a sequence in brackets up to the last of them; commas stand between items. An item
may be a single entry. Where its key is not written, the sign in the place of it does not count. -/
def flowItems? : Nat → Bool → Stream → Option (List Node × Stream)
  | 0, _, _ => none
  | fuel + 1, isFirst, s =>
    match s.tokens with
    | .flowSequenceEnd :: r => some ([], s.moveTo r)
    | t :: r => do
      if !isFirst && t ≠ .flowComma then none
      let s := if isFirst then s else s.moveTo r
      match s.tokens with
      | .flowSequenceEnd :: r => return ([], s.moveTo r)
      | .key :: r =>
        let s := s.moveTo r
        let (key, s) ←
          if s.startsWith [.value, .flowComma, .flowSequenceEnd] then
            some (.empty, s.moveTo (r.drop 1))
          else node? fuel .flow s
        let (value, s) ← flowValue? fuel .flowSequenceEnd s
        let (items, s) ← flowItems? fuel false s
        return (.mapping [(key, value)] :: items, s)
      | _ =>
        let (node, s) ← node? fuel .flow s
        let (items, s) ← flowItems? fuel false s
        return (node :: items, s)
    | [] => none

/-- The entries of a mapping in brackets up to the last of them; commas stand between entries. -/
def flowEntries? : Nat → Bool → Stream → Option (List (Node × Node) × Stream)
  | 0, _, _ => none
  | fuel + 1, isFirst, s =>
    match s.tokens with
    | .flowMappingEnd :: r => some ([], s.moveTo r)
    | t :: r => do
      if !isFirst && t ≠ .flowComma then none
      let s := if isFirst then s else s.moveTo r
      match s.tokens with
      | .flowMappingEnd :: r => return ([], s.moveTo r)
      | .key :: r =>
        let (key, s) ← nodeUnless? fuel [.value, .flowComma, .flowMappingEnd] .flow (s.moveTo r)
        let (value, s) ← flowValue? fuel .flowMappingEnd s
        let (entries, s) ← flowEntries? fuel false s
        return ((key, value) :: entries, s)
      | _ =>
        let (key, s) ← node? fuel .flow s
        let (entries, s) ← flowEntries? fuel false s
        return ((key, .empty) :: entries, s)
    | [] => none

end

/-- What handles stand for where no line says otherwise. -/
def usualHandles : List (Text × Text) := [(['!'], ['!']), (['!', '!'], standardTags)]

/-- The lines in front of a document, which name a version once and each handle once, and the signs
after them. -/
def directives? (handles : List (Text × Text)) (hasVersion : Bool) :
    List Token → Option Stream
  | .version major minor :: r =>
    if hasVersion || major ≠ 1 || (minor ≠ 1 && minor ≠ 2) then none
    else directives? handles true r
  | .handle name expansion :: r =>
    if (handles.lookup name).isSome then none
    else directives? (handles ++ [(name, expansion)]) hasVersion r
  | tokens =>
    let usual := usualHandles.filter fun h => (handles.lookup h.1).isNone
    some { tokens, handles := handles ++ usual }

/-- Whether a sign stands between documents. -/
def Token.isBetween : Token → Bool
  | .version _ _ => true
  | .handle _ _ => true
  | .documentStart => true
  | .documentEnd => true
  | _ => false

/-- The node of a document after its first line, if it has one. -/
def documentNode? (hasStart : Bool) (s : Stream) : Option (Node × Stream) :=
  if hasStart && s.tokens.head?.all Token.isBetween then some (.empty, s)
  else node? (4 * s.tokens.length + 4) .block s

/-- The document that signs make; there is only one, and nothing follows it but its end. -/
def ofTokens? (tokens : List Token) : Option Node := do
  if tokens.isEmpty then return .empty
  let s ← directives? [] false tokens
  let hasStart := s.startsWith [.documentStart]
  if s.tokens.length < tokens.length && !hasStart then none
  let (node, s) ← documentNode? hasStart (s.moveTo (if hasStart then s.tokens.drop 1 else s.tokens))
  if s.tokens.all (· == .documentEnd) then return node else none

/-- The document that a text holds. -/
def ofText? (s : Text) : Option Node := (tokens? s).bind ofTokens?

end Yaml

end ScoreText
