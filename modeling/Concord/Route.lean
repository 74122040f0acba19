import Concord.Text.Basic

/-! Paths of requests as lists of segments. -/
namespace Concord.Route

inductive Segment
  | literal (text : String)
  | param
  deriving DecidableEq, Repr

/-- Whether a segment stands for a value: `:id`, `{id}`, `<id>`, a format verb or a star. -/
def isParam (segment : List Char) : Bool :=
  segment.head? == some ':' || segment.contains '{' ||
    (segment.head? == some '<' && segment.getLast? == some '>') || segment.contains '%' ||
    segment == ['*']

/-- What follows the scheme and the host, from the first slash on; the whole text if it has no
scheme. -/
def withoutHost (t : List Char) : List Char :=
  match Text.cut? [':', '/', '/'] t with
  | some (_, rest) => rest.dropWhile (· != '/')
  | none => t

/-- The segments of a path. Scheme, host, query, fragment and empty segments are left out. -/
def segments (raw : String) : List Segment :=
  let path := (withoutHost (Text.trim raw.toList)).takeWhile fun c => c != '?' && c != '#'
  ((Text.split '/' path).filter (!·.isEmpty)).map fun s =>
    if isParam s then .param else .literal (String.ofList s)

/-- A path below another one: one slash between them, one at the start and none at the end. -/
def below (base sub : List Char) : List Char :=
  let joined := Text.dropEndWhile (· == '/') base ++ '/' :: sub.dropWhile (· == '/')
  match Text.dropEndWhile (· == '/') joined with
  | [] => ['/']
  | '/' :: t => '/' :: t
  | t => '/' :: t

/-- The parts of two paths, a slash before each; a slash if there are none. -/
def joined (base sub : List Char) : List Char :=
  '/' :: List.intercalate ['/'] ((Text.split '/' base ++ Text.split '/' sub).filter (!·.isEmpty))

end Concord.Route
