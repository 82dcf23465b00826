import Backfill.Document.Yaml
import Backfill.Text.Blank

/-!
# Reading YAML

Block and flow collections, all five styles of scalars, comments and one document with its markers.
Columns tell where block collections begin and end. Anchors, tags and complex keys are refused.
-/

namespace Backfill.Yaml

open Text

/-! ## Places -/

/-- A place in the text. A key may begin where only blanks and dashes stand before it on its line. -/
structure Place where
  rest : List Char
  column : Nat
  keyAllowed : Bool

def isSpace (c : Char) : Bool := c == ' ' || c == '\t'

/-- A blank, a line's end or the text's end comes next. -/
def endsWord : List Char → Bool
  | [] => true
  | c :: _ => isSpace c || c == '\n'

/-- Goes on to the next token over blanks, line ends and comments. In a block no tab may stand where a
key may begin. -/
def skipFrom (flow : Bool) (column : Nat) (keyAllowed inComment : Bool) : List Char → Option Place
  | [] => some ⟨[], column, keyAllowed⟩
  | '\n' :: rest => skipFrom flow 0 true false rest
  | c :: rest =>
    if inComment || c == '#' then skipFrom flow (column + 1) keyAllowed true rest
    else if c == ' ' then skipFrom flow (column + 1) keyAllowed false rest
    else if c == '\t' then
      if keyAllowed && !flow then none else skipFrom flow (column + 1) keyAllowed false rest
    else some ⟨c :: rest, column, keyAllowed⟩

def Place.skip (flow : Bool) (p : Place) : Option Place := skipFrom flow p.column p.keyAllowed false p.rest

/-- The next token inside brackets. -/
def skipInFlow (cs : List Char) : Option Place := skipFrom true 1 false false cs

/-- The place on the same line where `rest` begins. -/
def Place.at (p : Place) (rest : List Char) : Place :=
  ⟨rest, p.column + (p.rest.length - rest.length), false⟩

/-- A document marker begins here. -/
def isMarker (cs : List Char) : Bool :=
  ["---", "..."].any fun m => (strip? m.toList cs).any endsWord

/-- Nothing of the document is left. -/
def Place.atEnd (p : Place) : Bool := p.rest.isEmpty || (p.column == 0 && isMarker p.rest)

def startsItem : List Char → Bool
  | '-' :: rest => endsWord rest
  | _ => false

/-- After a complete value: the next token, which must be on another line. -/
def Place.settle (p : Place) : Option Place := do
  let q ← { p with keyAllowed := false }.skip false
  if q.rest.isEmpty || q.keyAllowed then some q else none

/-! ## Scalars in quotes -/

/-- What a letter after a backslash stands for. -/
def escaped? (c : Char) : Option Char :=
  match c with
  | '0' => some '\x00'
  | 'a' => some '\x07'
  | 'b' => some '\x08'
  | 't' => some '\t'
  | '\t' => some '\t'
  | 'n' => some '\n'
  | 'v' => some '\x0b'
  | 'f' => some '\x0c'
  | 'r' => some '\r'
  | 'e' => some '\x1b'
  | ' ' => some ' '
  | '"' => some '"'
  | '/' => some '/'
  | '\\' => some '\\'
  | 'N' => some '\u0085'
  | '_' => some '\u00a0'
  | 'L' => some '\u2028'
  | 'P' => some '\u2029'
  | _ => none

def charOfHex? (cs : List Char) : Option Char := do
  let n ← cs.foldlM (fun n c => (hexDigit? c).map (n * 16 + ·)) 0
  if n < 0xD800 ∨ (0xE000 ≤ n ∧ n < 0x110000) then some (Char.ofNat n) else none

/-- What a run of line ends in a scalar stands for: one is a space, more are one fewer. -/
def foldedBreaks (count : Nat) : List Char :=
  if count = 1 then [' '] else List.replicate (count - 1) '\n'

/-- Text read so far, newest first: sure characters, blanks that a line end would drop, line ends. -/
structure Folding where
  done : List Char := []
  blanks : List Char := []
  breaks : Nat := 0

def Folding.push (f : Folding) (c : Char) : Folding :=
  if f.breaks = 0 then { done := c :: f.blanks ++ f.done }
  else { done := c :: (foldedBreaks f.breaks).reverse ++ f.done }

def Folding.blank (f : Folding) (c : Char) : Folding :=
  if f.breaks = 0 then { f with blanks := c :: f.blanks } else f

def Folding.lineEnd (f : Folding) : Folding := { f with blanks := [], breaks := f.breaks + 1 }

/-- A line end after a backslash joins two lines with nothing between them. -/
def Folding.join (f : Folding) : Folding := { done := f.blanks ++ f.done }

def Folding.finish (f : Folding) : List Char :=
  if f.breaks = 0 then (f.blanks ++ f.done).reverse
  else ((foldedBreaks f.breaks).reverse ++ f.done).reverse

/-- The rest of a scalar in single quotes. -/
def readSingle? (f : Folding) : List Char → Option (List Char × List Char)
  | [] => none
  | '\'' :: '\'' :: rest => readSingle? (f.push '\'') rest
  | '\'' :: rest => some (f.finish, rest)
  | c :: rest =>
    if c == '\n' then (if isMarker rest then none else readSingle? f.lineEnd rest)
    else readSingle? (if isSpace c then f.blank c else f.push c) rest

/-- The rest of a scalar in double quotes; after a joined line end blanks are dropped. -/
def readDouble? (f : Folding) (joined : Bool) : List Char → Option (List Char × List Char)
  | [] => none
  | '"' :: rest => some (f.finish, rest)
  | '\\' :: 'x' :: a :: b :: rest => do readDouble? (f.push (← charOfHex? [a, b])) false rest
  | '\\' :: 'u' :: a :: b :: c :: d :: rest => do
    readDouble? (f.push (← charOfHex? [a, b, c, d])) false rest
  | '\\' :: 'U' :: a :: b :: c :: d :: e :: g :: h :: i :: rest => do
    readDouble? (f.push (← charOfHex? [a, b, c, d, e, g, h, i])) false rest
  | '\\' :: c :: rest =>
    if c == '\n' then readDouble? f.join true rest
    else
      match escaped? c with
      | some x => readDouble? (f.push x) false rest
      | none => none
  | c :: rest =>
    if c == '\n' then (if isMarker rest then none else readDouble? f.lineEnd joined rest)
    else if isSpace c then readDouble? (if joined then f else f.blank c) joined rest
    else readDouble? (f.push c) false rest

/-! ## Scalars without quotes -/

def isFlowMark (c : Char) : Bool := [',', '[', ']', '\x7b', '\x7d'].contains c

/-- A value mark comes next. -/
def isValueMark (flow : Bool) : List Char → Bool
  | ':' :: rest => endsWord rest || (flow && rest.head?.any isFlowMark)
  | _ => false

/-- Whether a scalar without quotes may begin here. -/
def startsPlain (flow : Bool) : List Char → Bool
  | [] => false
  | c :: rest =>
    if ['-', '?', ':'].contains c then !endsWord rest && !(flow && rest.head?.any isFlowMark)
    else !(isFlowMark c || ['#', '&', '*', '!', '|', '>', '\'', '"', '%', '@', '\x60'].contains c)

/-- The part of a plain scalar on one line, blanks at its end included. -/
def plainRun (flow afterBlank : Bool) : List Char → List Char
  | [] => []
  | c :: rest =>
    if c == '\n' || (c == '#' && afterBlank) || isValueMark flow (c :: rest) || (flow && isFlowMark c) then []
    else c :: plainRun flow (isSpace c) rest

/-- Line ends and the blanks around them: their number, the column and the text behind. -/
def skipBreaks (count column : Nat) : List Char → Nat × Nat × List Char
  | [] => (count, column, [])
  | c :: rest =>
    if c == '\n' then skipBreaks (count + 1) 0 rest
    else if isSpace c then skipBreaks count (column + 1) rest
    else (count, column, c :: rest)

/-- A plain scalar: lines that are indented deeper than `indent` belong to it. -/
def readPlain (flow : Bool) (indent : Int) : Nat → List Char → List Char × List Char
  | 0, cs => ([], cs)
  | fuel + 1, cs =>
    let run := plainRun flow false cs
    let rest := cs.drop run.length
    let text := (run.reverse.dropWhile isSpace).reverse
    match rest with
    | '\n' :: _ =>
      let (breaks, column, behind) := skipBreaks 0 0 rest
      let deeper := flow || decide (indent < column)
      let (more, after) := readPlain flow indent fuel behind
      if deeper && !behind.isEmpty && behind.head? != some '#' && !(column == 0 && isMarker behind) &&
          !more.isEmpty then
        (text ++ foldedBreaks breaks ++ more, after)
      else (text, rest)
    | _ => (text, rest)

/-! ## Block scalars -/

/-- What happens to line ends at the end of a block scalar. -/
inductive Chomping where
  | strip
  | clip
  | keep

/-- Indentation and chomping marks up to the end of the line. -/
def header? : List Char → Option Nat → Chomping → Option (Option Nat × Chomping × List Char)
  | '-' :: rest, indent, _ => header? rest indent .strip
  | '+' :: rest, indent, _ => header? rest indent .keep
  | cs, indent, chomping =>
    match cs with
    | c :: rest =>
      if '1' ≤ c ∧ c ≤ '9' ∧ indent.isNone then
        match rest with
        | '-' :: rest => finish rest (some (c.toNat - 48)) .strip
        | '+' :: rest => finish rest (some (c.toNat - 48)) .keep
        | rest => finish rest (some (c.toNat - 48)) chomping
      else finish (c :: rest) indent chomping
    | [] => some (indent, chomping, [])
where
  finish (cs : List Char) (indent : Option Nat) (chomping : Chomping) :
      Option (Option Nat × Chomping × List Char) :=
    let blanks := cs.takeWhile isSpace
    match cs.drop blanks.length with
    | [] => some (indent, chomping, [])
    | '\n' :: rest => some (indent, chomping, rest)
    | '#' :: rest =>
      if blanks.isEmpty then none else some (indent, chomping, (rest.dropWhile (· ≠ '\n')).drop 1)
    | _ => none

/-- Lines of the text. -/
def linesOf (cs : List Char) : List (List Char) := ((String.ofList cs).splitOn "\n").map String.toList

def leadingSpaces (line : List Char) : Nat := (line.takeWhile (· == ' ')).length

def isBlankLine (line : List Char) : Bool := line.all (· == ' ')

/-- The lines that belong to a block scalar of a given indentation. -/
def blockLines (indent : Nat) (lines : List (List Char)) : List (List Char) :=
  lines.takeWhile fun line => isBlankLine line || decide (indent ≤ leadingSpaces line)

/-- Joins lines: line ends are kept in a literal scalar; in a folded one a line end between two plain
lines is a space, and blank lines are line ends. -/
def joinLines (folded : Bool) : List (List Char) → List Char
  | [] => []
  | [line] => line
  | line :: next :: rest =>
    let blank (l : List Char) : Bool := l.isEmpty
    let deeper (l : List Char) : Bool := l.head?.any isSpace
    let between : List Char :=
      if !folded || deeper line || deeper next then ['\n']
      else if blank line then ['\n']
      else if blank next then
        -- the line end before blank lines counts only in front of a deeper line
        (if (rest.dropWhile List.isEmpty).head?.any deeper then ['\n'] else [])
      else [' ']
    line ++ between ++ joinLines folded (next :: rest)

/-- A block scalar after its mark: its text and what follows. -/
def readBlock? (folded : Bool) (parent : Int) (cs : List Char) : Option (List Char × List Char) := do
  let (given, chomping, rest) ← header? cs none .clip
  let lines := linesOf rest
  let least := (parent + 1).toNat
  let indent := match given with
    | some n => (max parent 0).toNat + n
    | none => max least ((lines.find? (!isBlankLine ·)).elim 0 leadingSpaces)
  let own := blockLines indent lines
  let after := lines.drop own.length
  let bodies := own.map (·.drop indent)
  let content := (bodies.reverse.dropWhile List.isEmpty).reverse
  let text := joinLines folded content
  -- the line ends behind the content; the text's own end is none
  let ends := bodies.length - content.length + (if content.isEmpty then 0 else 1) - (if after.isEmpty then 1 else 0)
  let tail := match chomping with
    | .strip => []
    | .clip => if content.isEmpty then [] else List.replicate (min 1 ends) '\n'
    | .keep => List.replicate ends '\n'
  return (text ++ tail, ['\n'].intercalate after)

/-! ## Flow collections -/

mutual

/-- A value inside brackets. -/
def readFlow? : Nat → List Char → Option (Yaml × List Char)
  | 0, _ => none
  | fuel + 1, cs => do
    let p ← skipInFlow cs
    match p.rest with
    | '[' :: rest => readFlowItems? fuel rest []
    | '\x7b' :: rest => readFlowFields? fuel rest []
    | '"' :: rest => (readDouble? {} false rest).map fun (text, rest) => (quoted text, rest)
    | '\'' :: rest => (readSingle? {} rest).map fun (text, rest) => (quoted text, rest)
    | cs =>
      if startsPlain true cs then
        let (text, rest) := readPlain true 0 cs.length cs
        some (plain text, rest)
      else none

/-- The items of a list in brackets. -/
def readFlowItems? : Nat → List Char → List Yaml → Option (Yaml × List Char)
  | 0, _, _ => none
  | fuel + 1, cs, done => do
    let p ← skipInFlow cs
    match p.rest with
    | ']' :: rest => some (.items done.reverse, rest)
    | cs =>
      let (x, rest) ← readFlow? fuel cs
      let p ← skipInFlow rest
      match p.rest with
      | ',' :: rest => readFlowItems? fuel rest (x :: done)
      | ']' :: rest => some (.items (x :: done).reverse, rest)
      | _ => none

/-- The fields of a record in braces. -/
def readFlowFields? : Nat → List Char → List (String × Yaml) → Option (Yaml × List Char)
  | 0, _, _ => none
  | fuel + 1, cs, done => do
    let p ← skipInFlow cs
    match p.rest with
    | '\x7d' :: rest => some (.fields done.reverse, rest)
    | cs =>
      let (key, rest) ← readFlow? fuel cs
      let key ← key.text?
      let p ← skipInFlow rest
      let (x, rest) ← match p.rest with
        | ':' :: rest => do
          let p ← skipInFlow rest
          match p.rest with
          | ',' :: _ => some (missing, p.rest)
          | '\x7d' :: _ => some (missing, p.rest)
          | rest => readFlow? fuel rest
        | rest => some (missing, rest)
      let p ← skipInFlow rest
      match p.rest with
      | ',' :: rest => readFlowFields? fuel rest ((key, x) :: done)
      | '\x7d' :: rest => some (.fields ((key, x) :: done).reverse, rest)
      | _ => none

end

/-! ## Block collections -/

/-- A key on one line and the place after its colon. -/
def key? (p : Place) : Option (String × Place) := do
  let (text, rest) ← match p.rest with
    | '"' :: rest => readDouble? {} false rest
    | '\'' :: rest => readSingle? {} rest
    | cs =>
      if startsPlain false cs then
        let run := plainRun false false cs
        some ((run.reverse.dropWhile isSpace).reverse, cs.drop run.length)
      else none
  if (p.rest.take (p.rest.length - rest.length)).contains '\n' then none
  let rest := rest.dropWhile isSpace
  if isValueMark false rest then some (String.ofList text, p.at (rest.drop 1)) else none

/-- A scalar or a flow collection. -/
def leaf? (indent : Int) (p : Place) : Option (Yaml × Place) := do
  let (x, rest) ← match p.rest with
    | '"' :: rest => (readDouble? {} false rest).map fun (text, rest) => (quoted text, rest)
    | '\'' :: rest => (readSingle? {} rest).map fun (text, rest) => (quoted text, rest)
    | '[' :: _ => readFlow? (2 * p.rest.length + 2) p.rest
    | '\x7b' :: _ => readFlow? (2 * p.rest.length + 2) p.rest
    | cs =>
      if startsPlain false cs then
        let (text, rest) := readPlain false indent cs.length cs
        some (plain text, rest)
      else none
  return (x, ← (p.at rest).settle)

mutual

/-- The value whose first token is here; a missing one when the place belongs to an outer collection. -/
def readNode? : Nat → Int → Bool → Place → Option (Yaml × Place)
  | 0, _, _, _ => none
  | fuel + 1, indent, itemsAllowed, p =>
    let inside := decide (indent < p.column) || (itemsAllowed && decide (indent = p.column) && startsItem p.rest)
    if p.atEnd || !inside then some (missing, p)
    else if startsItem p.rest then
      if p.keyAllowed then readItems? fuel p.column p [] else none
    else
      match p.rest with
      | '|' :: rest => (readBlock? false indent rest).bind fun (text, rest) =>
        ((⟨rest, 0, true⟩ : Place).skip false).map fun p => (quoted text, p)
      | '>' :: rest => (readBlock? true indent rest).bind fun (text, rest) =>
        ((⟨rest, 0, true⟩ : Place).skip false).map fun p => (quoted text, p)
      | _ =>
        if p.keyAllowed && (key? p).isSome then readFields? fuel p.column p []
        else leaf? indent p

/-- The items of a list whose dashes stand in one column. -/
def readItems? : Nat → Nat → Place → List Yaml → Option (Yaml × Place)
  | 0, _, _, _ => none
  | fuel + 1, column, p, done => do
    let q ← (⟨p.rest.drop 1, p.column + 1, true⟩ : Place).skip false
    let (x, q) ← readNode? fuel column false q
    if !q.atEnd && q.column == column && startsItem q.rest then readItems? fuel column q (x :: done)
    else if q.atEnd || decide (q.column ≤ column) then some (.items (x :: done).reverse, q)
    else none

/-- The fields of a record whose keys stand in one column. -/
def readFields? : Nat → Nat → Place → List (String × Yaml) → Option (Yaml × Place)
  | 0, _, _, _ => none
  | fuel + 1, column, p, done => do
    let (key, q) ← key? p
    let q ← q.skip false
    let (x, q) ← readNode? fuel column true q
    if q.atEnd || decide (q.column < column) then some (.fields ((key, x) :: done).reverse, q)
    else if q.column == column then readFields? fuel column q ((key, x) :: done)
    else none

end

/-! ## Texts -/

/-- Line ends of every kind as one character. -/
def plainBreaks : List Char → List Char
  | [] => []
  | '\r' :: '\n' :: rest => '\n' :: plainBreaks rest
  | c :: rest => (if c == '\r' || c == '\u0085' then '\n' else c) :: plainBreaks rest

/-- Characters that may stand in a text; others are refused everywhere. -/
def isReadable (c : Char) : Bool :=
  let n := c.toNat
  n == 0x09 || n == 0x0A || (0x20 ≤ n && n ≤ 0x7E) || (0xA0 ≤ n && n != 0xFEFF && n != 0xFFFE && n != 0xFFFF)

/-- The only document of a text. -/
def read? (s : String) : Option Yaml := do
  let cs := plainBreaks (match s.toList with
    | '\ufeff' :: cs => cs
    | cs => cs)
  if !cs.all isReadable then none
  let p ← (⟨cs, 0, true⟩ : Place).skip false
  let p ← match if p.column = 0 then strip? "---".toList p.rest else none with
    | some rest => if endsWord rest then (⟨rest, 3, false⟩ : Place).skip false else some p
    | none => some p
  let (x, p) ← readNode? (2 * cs.length + 2) (-1) false p
  let p ← match if p.column = 0 then strip? "...".toList p.rest else none with
    | some rest => (⟨rest, 3, false⟩ : Place).skip false
    | none => some p
  if p.rest.isEmpty then some x else none

end Backfill.Yaml
