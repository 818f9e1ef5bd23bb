import SchemaAlgebra.Yaml.Scalar

/-!
# Documents in YAML

`Yaml.parse?` reads a document: lists and mappings by indentation or in brackets, and scalars.
Anchors, tags and literal blocks are not read.

Indentation is a matter of lines, brackets are not: a value in brackets or quotes is read from the
characters of the line and those after it (`flowValue?`), and the lines it took up are dropped.
-/

namespace SchemaAlgebra

namespace Yaml

/-- A line that is neither blank nor a comment. -/
structure Line where
  /-- The number of spaces in front. -/
  indent : Nat
  /-- The rest of the line. -/
  text : List Char
deriving DecidableEq, Inhabited

/-- Whether a character separates tokens. -/
def isBlank (c : Char) : Bool :=
  c = ' ' || c = '\t' || c = '\n'

/-- Drops blanks and comments. -/
def skipFrom : Bool → List Char → List Char
  | _, [] => []
  | true, c :: rest => skipFrom (c ≠ '\n') rest
  | false, c :: rest =>
    if isBlank c then skipFrom false rest
    else if c = '#' then skipFrom true rest
    else c :: rest

/-- Drops blanks and comments. -/
def skip (cs : List Char) : List Char :=
  skipFrom false cs

/-- Whether only blanks and a comment are left of a line. -/
def endsLine (cs : List Char) : Bool :=
  match cs.dropWhile fun c => c = ' ' || c = '\t' with
  | [] => true
  | '\n' :: _ => true
  | '#' :: _ => cs.head?.any isBlank
  | _ => false

/-- The text without blanks at its end. -/
def trimEnd (cs : List Char) : List Char :=
  (cs.reverse.dropWhile isBlank).reverse

/-! ## Values in brackets -/

/-- Characters that have a meaning in brackets. -/
def isFlowMark (c : Char) : Bool :=
  c = ',' || c = '[' || c = ']' || c = '\x7b' || c = '\x7d'

/-- Whether a plain scalar may not begin with these characters. -/
def isMarked : List Char → Bool
  | [] => true
  | c :: rest =>
    if c = '-' || c = '?' || c = ':' then
      match rest with
      | [] => true
      | next :: _ => isBlank next
    else isFlowMark c || "\t#&*!|>'\"%@\x60".toList.contains c

/-- The characters of a plain scalar in brackets, and what follows them. -/
def flowPlain : Char → List Char → List Char × List Char
  | _, [] => ([], [])
  | before, c :: rest =>
    let stops :=
      isFlowMark c || (c = '#' && isBlank before)
        || (c = ':' && (rest.head?.all fun next => isBlank next || isFlowMark next))
    if stops then ([], c :: rest)
    else
      let (cs, rest) := flowPlain c rest
      ((if c = '\n' then ' ' else c) :: cs, rest)

/-- A scalar in brackets as text, whether it was quoted, and what follows it. -/
def flowScalar? (cs : List Char) : Option ((List Char × Bool) × List Char) := do
  match ← quoted? cs with
  | (some text, rest) => return ((text, true), rest)
  | (none, cs) =>
    if isMarked cs then none
    else
      let (text, rest) := flowPlain ' ' cs
      return ((trimEnd text, false), rest)

mutual

/-- A value in brackets or quotes, or a plain scalar inside brackets, and what follows it. -/
def flowValue? : Nat → List Char → Option (Json × List Char)
  | 0, _ => none
  | fuel + 1, cs =>
    match cs with
    | '[' :: rest => do
      let (items, rest) ← flowItems? fuel (skip rest)
      return (.array items, rest)
    | '\x7b' :: rest => do
      let (members, rest) ← flowMembers? fuel (skip rest)
      return (Json.ofMembers members, rest)
    | cs => do
      let ((text, isQuoted), rest) ← flowScalar? cs
      if isQuoted then return (.string (String.ofList text), rest)
      else return (← resolve? text, rest)

/-- The items up to a closing bracket, and what follows it. -/
def flowItems? : Nat → List Char → Option (List Json × List Char)
  | 0, _ => none
  | fuel + 1, cs =>
    match cs with
    | ']' :: rest => some ([], rest)
    | cs => do
      let (item, rest) ← flowValue? fuel cs
      match skip rest with
      | ',' :: rest =>
        let (items, rest) ← flowItems? fuel (skip rest)
        return (item :: items, rest)
      | ']' :: rest => return ([item], rest)
      | _ => none

/-- The members up to a closing brace, and what follows it. -/
def flowMembers? : Nat → List Char → Option (List (String × Json) × List Char)
  | 0, _ => none
  | fuel + 1, cs =>
    match cs with
    | '\x7d' :: rest => some ([], rest)
    | cs => do
      let ((key, _), rest) ← flowScalar? cs
      let (value, rest) ← match skip rest with
        | ':' :: rest =>
          match skip rest with
          | ',' :: rest => some (Json.null, ',' :: rest)
          | '\x7d' :: rest => some (Json.null, '\x7d' :: rest)
          | rest => flowValue? fuel rest
        | rest => some (Json.null, rest)
      match skip rest with
      | ',' :: rest =>
        let (members, rest) ← flowMembers? fuel (skip rest)
        return ((String.ofList key, value) :: members, rest)
      | '\x7d' :: rest => return ([(String.ofList key, value)], rest)
      | _ => none

end

/-! ## Values by indentation -/

/-- Whether a line begins an item of a list. -/
def isItem : List Char → Bool
  | ['-'] => true
  | '-' :: c :: _ => isBlank c
  | _ => false

/-- Cuts plain text at the first colon that a blank or the end follows. -/
def cutKey? : List Char → Option (List Char × List Char)
  | [] => none
  | [':'] => some ([], [])
  | ':' :: c :: rest =>
    if isBlank c then some ([], c :: rest)
    else (cutKey? (c :: rest)).map fun (key, rest) => (':' :: key, rest)
  | c :: rest => (cutKey? rest).map fun (key, rest) => (c :: key, rest)

/-- The text before a comment. -/
def uncommented : Char → List Char → List Char
  | _, [] => []
  | before, c :: rest => if c = '#' && isBlank before then [] else c :: uncommented c rest

/-- The key at the beginning of a line, and what follows its colon. -/
def key? (text : List Char) : Option (String × List Char) := do
  match ← quoted? text with
  | (some key, rest) =>
    match rest.dropWhile (· = ' ') with
    | ':' :: rest => if endsLine rest || rest.head?.any isBlank then
        some (String.ofList key, rest) else none
    | _ => none
  | (none, text) =>
    if isMarked text then none
    else
      let (key, rest) ← cutKey? (uncommented ' ' text)
      return (String.ofList (trimEnd key), rest)

/-- A value that begins within a line; it may go on in lines of at least a given indent. -/
def inline? (least : Nat) (text : List Char) (rest : List Line) : Option (Json × List Line) :=
  match text with
  | '[' :: _ | '\x7b' :: _ | '"' :: _ | '\'' :: _ => do
    let whole := text ++ rest.flatMap fun line => '\n' :: line.text
    let (value, left) ← flowValue? (2 * whole.length + 2) whole
    if endsLine left then
      return (value, rest.drop (rest.length - left.count '\n'))
    else none
  | text =>
    let more := rest.takeWhile fun line => least ≤ line.indent
    let parts := (text :: more.map Line.text).map fun part => trimEnd (uncommented ' ' part)
    let whole := List.intercalate [' '] parts
    if isMarked whole || (cutKey? whole).isSome then none
    else (resolve? whole).map fun value => (value, rest.drop more.length)

mutual

/-- The value that begins with the first line, if that has at least a given indent; otherwise there
is none, which means null. -/
def block? : Nat → Nat → List Line → Option (Json × List Line)
  | 0, _, _ => none
  | fuel + 1, least, lines =>
    match lines with
    | [] => some (.null, [])
    | line :: rest =>
      if line.indent < least then some (.null, lines)
      else if isItem line.text then do
        let (items, rest) ← blockItems? fuel line.indent lines
        return (.array items, rest)
      else if (key? line.text).isSome then do
        let (members, rest) ← blockMembers? fuel line.indent lines
        return (Json.ofMembers members, rest)
      else inline? least line.text rest

/-- The items of a list at an indent. -/
def blockItems? : Nat → Nat → List Line → Option (List Json × List Line)
  | 0, _, _ => none
  | fuel + 1, indent, lines =>
    match lines with
    | [] => some ([], [])
    | line :: rest =>
      if indent < line.indent then none
      else if line.indent < indent || !isItem line.text then some ([], lines)
      else do
        let after := line.text.drop 1
        let text := after.dropWhile (· = ' ')
        let lines := if endsLine after then rest
          else ⟨indent + 1 + (after.length - text.length), text⟩ :: rest
        let (item, lines) ← block? fuel (indent + 1) lines
        let (items, lines) ← blockItems? fuel indent lines
        return (item :: items, lines)

/-- The members of a mapping at an indent. -/
def blockMembers? : Nat → Nat → List Line → Option (List (String × Json) × List Line)
  | 0, _, _ => none
  | fuel + 1, indent, lines =>
    match lines with
    | [] => some ([], [])
    | line :: rest =>
      if indent < line.indent then none
      else if line.indent < indent then some ([], lines)
      else do
        let (key, after) ← key? line.text
        let text := after.dropWhile (· = ' ')
        let (value, lines) ←
          if endsLine after then
            match rest with
            | next :: _ =>
              if next.indent = indent && isItem next.text then
                (blockItems? fuel indent rest).map fun (items, lines) => (Json.array items, lines)
              else block? fuel (indent + 1) rest
            | [] => some (.null, [])
          else inline? (indent + 1) text rest
        let (members, lines) ← blockMembers? fuel indent lines
        return ((key, value) :: members, lines)

end

/-! ## Documents -/

/-- The line that a text is, unless it is blank or a comment. -/
def line? (text : List Char) : Option Line :=
  let body := text.dropWhile (· = ' ')
  match body.dropWhile fun c => c = '\t' || c = '\r' || c = ' ' with
  | [] => none
  | '#' :: _ => none
  | _ => some ⟨text.length - body.length, body⟩

/-- Reads a document.  Lines with a document mark of their own may frame it; without any line there
is no document. -/
def parse? (text : String) : Option Json :=
  let texts := (text.splitOn "\n").map fun line =>
    trimEnd (line.toList.filter (· ≠ '\r'))
  let lines := texts.filterMap line?
  let isMark := fun (mark : String) (line : Line) => line.indent = 0 && line.text = mark.toList
  let body := match lines with
    | first :: rest => if isMark "---" first then rest else lines
    | [] => []
  let body := match body.getLast? with
    | some last => if isMark "..." last then body.dropLast else body
    | none => body
  if lines.isEmpty then none
  else
    match block? (4 * text.length + 8) 0 body with
    | some (value, []) => some value
    | _ => none

end Yaml

end SchemaAlgebra
