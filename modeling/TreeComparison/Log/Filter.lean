import TreeComparison.Log.Event
import TreeComparison.Options

/-!
Which events are logged. A filter is a list of directives. Of those that speak about the part of the
program an event comes from, the one with the longest target decides, up to which level events are
let through. Directives can also name a span, or fields that a span has; they let events through
while such a span lasts.
-/

namespace TreeComparison

/-- What lasts while events happen inside it. -/
structure Span where
  name : String
  target : String
  level : LogLevel
  fields : List (String × Json)

/-- The span of a comparison. -/
def Span.ofComparison (o : Options) : Span :=
  ⟨"tree_diff", Event.walkTarget, .info,
    [("hash", .text o.hashAlgorithm.tag), ("strict", .bool o.strict)]⟩

/-- Up to where events are let through. -/
inductive Threshold where
  | off
  | upTo (l : LogLevel)
  deriving DecidableEq, Repr

namespace Threshold

/-- Whether events of a level are let through. -/
def admits : Threshold → LogLevel → Bool
  | .off, _ => false
  | .upTo least, l => least.rank ≤ l.rank

/-- The threshold that lets through what either of two does. -/
def max : Threshold → Threshold → Threshold
  | .off, t => t
  | t, .off => t
  | .upTo a, .upTo b => if a.rank ≤ b.rank then .upTo a else .upTo b

/-- The threshold with a given number: the higher, the more is let through. -/
def ofNumber? : Nat → Option Threshold
  | 0 => some .off
  | 1 => some (.upTo .error)
  | 2 => some (.upTo .warn)
  | 3 => some (.upTo .info)
  | 4 => some (.upTo .debug)
  | 5 => some (.upTo .trace)
  | _ => none

/-- Reads a threshold: a number, or a name in any case. -/
def ofText? (text : String) : Option Threshold :=
  let digits := match text.toList with
    | '+' :: rest => rest
    | cs => cs
  match Digits.read? 10 digits with
  | some n => ofNumber? n
  | none =>
    if LowerCase.lowerAscii text = "off" then some .off
    else (LogLevel.all.find? fun l => l.name = LowerCase.lowerAscii text).map .upTo

end Threshold

/-! ### Directives -/

/-- A field that a span must have, and the value that it must have there, if one is given. -/
structure FieldTest where
  name : String
  value : Option String
  deriving DecidableEq, Repr

/-- One directive of a filter. -/
structure Directive where
  target : Option String
  span : Option String
  fields : List FieldTest
  threshold : Threshold
  deriving DecidableEq, Repr

/-- Whether a value is the one that a test asks for. -/
def FieldTest.accepts (t : FieldTest) (v : Json) : Bool :=
  match t.value with
  | none => true
  | some wanted =>
    match v with
    | .bool b => wanted = if b then "true" else "false"
    | .string text => text = some wanted
    | _ => false

namespace Directive

/-- Whether a directive speaks about a part of the program: its target is the beginning of that
part's. -/
def covers (d : Directive) (target : String) : Bool :=
  d.target.all fun t => t.toList.isPrefixOf target.toList

/-- Whether a directive is about the time in which spans last. -/
def isScoped (d : Directive) : Bool := d.span.isSome || !d.fields.isEmpty

/-- Whether a directive also decides by itself: it names no span and no value. -/
def isPlain (d : Directive) : Bool := d.span.isNone && d.fields.all fun t => t.value.isNone

/-- Whether a directive is about a span. -/
def isAbout (d : Directive) (s : Span) : Bool :=
  d.isScoped && d.covers s.target && d.span.all (· = s.name) &&
    d.fields.all fun t => (s.fields.lookup t.name).isSome

/-- Whether a span has the values that a directive asks for. -/
def matchesValues (d : Directive) (s : Span) : Bool :=
  d.fields.all fun t => (s.fields.lookup t.name).all t.accepts

/-- Whether a directive gives way to another that covers the same target: the longer target
decides, then the larger number of fields, then the later names of fields, then the later place. -/
def yieldsTo (d other : Directive) : Bool :=
  let length := fun x : Directive => (x.target.map (·.utf8ByteSize + 1)).getD 0
  let names := fun x : Directive => x.fields.map (·.name)
  length d < length other || (length d = length other &&
    (d.fields.length < other.fields.length || (d.fields.length = other.fields.length &&
      !(names other).lex (names d) fun x y => x < y)))

end Directive

/-! ### Filters -/

/-- A list of directives. -/
structure Filter where
  directives : List Directive
  deriving DecidableEq, Repr

namespace Filter

/-- The directive that decides, of some that all speak about the same thing. -/
def deciding (ds : List Directive) : Option Directive :=
  ds.foldl (fun best d =>
    match best with
    | some b => if b.yieldsTo d then some d else some b
    | none => some d) none

/-- Whether the directives that decide by themselves let an event through. -/
def admitsPlainly (f : Filter) (e : Event) : Bool :=
  let names := "message" :: e.fields.map (·.1)
  let ds := f.directives.filter fun d =>
    d.isPlain && d.covers e.target && d.fields.all fun t => names.contains t.name
  (deciding ds).any fun d => d.threshold.admits e.level

/-- Up to where events are let through because of the span that they happen in. -/
def thresholdIn (f : Filter) (s : Span) : Threshold :=
  let ds := f.directives.filter fun d => d.isAbout s && d.matchesValues s
  ds.foldl (fun t d => t.max d.threshold) .off

/-- Whether a span is noted: a directive is about it, or it is let through like an event. -/
def shows (f : Filter) (s : Span) : Bool :=
  f.directives.any (·.isAbout s) ||
    (deciding (f.directives.filter fun d => d.isPlain && d.covers s.target)).any
      fun d => d.threshold.admits s.level

/-- Whether an event is let through that happens in a span, or in none. -/
def admits (f : Filter) (inside : Option Span) (e : Event) : Bool :=
  inside.any (fun s => (f.thresholdIn s).admits e.level) || f.admitsPlainly e

/-- The filter that lets the program's own events through up to a level. -/
def ofLevel (l : LogLevel) : Filter :=
  ⟨["tree_diff", "tree_diff_cli"].map fun t => ⟨some t, none, [], .upTo l⟩⟩

/-- The filter that lets errors through, and nothing else. -/
def errorsOnly : Filter := ⟨[⟨none, none, [], .upTo .error⟩]⟩

end Filter

/-! ### Reading -/

namespace Directive

/-- The blanks that are passed over at both ends of a directive. -/
def isSpace (c : Char) : Bool :=
  c.isWhitespace || c = '\x0b' || c = '\x0c' || c = '\x85' || c = '\xa0' || c = '\u1680' ||
    ('\u2000' ≤ c && c ≤ '\u200a') || c = '\u2028' || c = '\u2029' || c = '\u202f' ||
    c = '\u205f' || c = '\u3000'

/-- A text without blanks at both ends. -/
def trim (cs : List Char) : List Char :=
  ((cs.dropWhile isSpace).reverse.dropWhile isSpace).reverse

/-- Whether a directive can begin with a character. What lies beyond ASCII counts as a letter. -/
def canBegin (c : Char) : Bool :=
  c.isAlphanum || c = '-' || c = ':' || c = '_' || c = '[' || 0x80 ≤ c.toNat

/-- Reads the test of a field: its name and, after an equals sign, its value. -/
def fieldTest (cs : List Char) : FieldTest :=
  let rest := cs.dropWhile (· ≠ '=')
  ⟨String.ofList (cs.takeWhile (· ≠ '=')),
    match rest with
    | _ :: value => some (String.ofList (value.takeWhile (· ≠ '=')))
    | [] => none⟩

/-- Reads the name and the fields of a span in brackets, if they are there, and returns what comes
after them. -/
def scope? : List Char → Option (Option String × List FieldTest × List Char)
  | '[' :: rest =>
    let inside := fun c => c ≠ ']' && c ≠ '\x7b'
    let name := rest.takeWhile inside
    match rest.dropWhile inside with
    | ']' :: rest => some (some (String.ofList name), [], rest)
    | '\x7b' :: rest =>
      let field := rest.takeWhile (· ≠ '\x7d')
      match rest.dropWhile (· ≠ '\x7d') with
      | '\x7d' :: ']' :: rest =>
        if field.isEmpty then none
        else
          let span := if name.isEmpty then none else some (String.ofList name)
          some (span, [fieldTest field], rest)
      | _ => none
    | _ => none
  | cs => some (none, [], cs)

/-- The parts of a directive as they are written: each may be missing. -/
structure Parts where
  target : List Char
  span : Option String
  fields : List FieldTest
  level : Option (List Char)

/-- Reads the parts of a directive: a target, a span in brackets, and a threshold after an equals
sign. -/
def parts? (cs : List Char) : Option Parts := do
  let first ← cs.head?
  if !canBegin first then none
  else
    let inTarget := fun c => c ≠ '[' && c ≠ '='
    let (span, fields, rest) ← scope? (cs.dropWhile inTarget)
    match rest with
    | [] => some ⟨cs.takeWhile inTarget, span, fields, none⟩
    | '=' :: level => some ⟨cs.takeWhile inTarget, span, fields, some level⟩
    | _ => none

/-- The directive that parts stand for. Without a threshold everything is let through. -/
def ofParts? (p : Parts) : Option Directive := do
  let threshold ← match p.level with
    | none => some (.upTo .trace)
    | some [] => some (.upTo .trace)
    | some level => Threshold.ofText? (String.ofList level)
  let target := if p.target.isEmpty then none else some (String.ofList p.target)
  some ⟨target, p.span, p.fields, threshold⟩

/-- Reads a directive. A lone word that names a threshold is one. A directive with blanks at its
ends cannot give a threshold, and its target has the blanks too, so it speaks about nothing. -/
def parse? (cs : List Char) : Option Directive := do
  let p ← parts? (trim cs)
  if trim cs ≠ cs then
    if p.level.isSome then none else some ⟨some (String.ofList cs), none, [], .upTo .trace⟩
  else
    match if p.target = cs then Threshold.ofText? (String.ofList cs) else none with
    | some t => some ⟨none, none, [], t⟩
    | none => ofParts? p

end Directive

/-- Reads a filter: directives with commas between them. Without any, errors are let through. -/
def Filter.parse? (text : String) : Option Filter :=
  let texts := (text.splitOn ",").filter fun t => !t.isEmpty
  if texts.isEmpty then some errorsOnly
  else (texts.mapM fun t => Directive.parse? t.toList).map Filter.mk

end TreeComparison
