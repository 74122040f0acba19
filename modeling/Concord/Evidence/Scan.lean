import Concord.Evidence.Basic
import Concord.Source.Basic
import Concord.Text.Pattern

/-! The patterns do not depend on the language: each is an idiom of the languages that use it. They
are looked for in code, so what is commented out is no evidence. -/
namespace Concord.Evidence

open Text Pattern

/-- An expression that names a field: names, calls without arguments and quoted keys in a chain. -/
def subject : Pattern := all [
  dollarName,
  many (any [
    all [blanks, char '.', blanks, dollarName, opt (lit "()")],
    all [char '[', blanks, oneOf "'\"", many1 (wordOr "-"), oneOf "'\"", blanks, char ']']])]

def decimal : Pattern := all [digits, opt (all [char '.', digits])]

def scaleAfter : Pattern := all [
  group 1 subject, blanks, many (char ')'), blanks,
  group 2 (any [lit "*", all [char '/', opt (char '/')]]), blanks, group 3 decimal, edge]

def scaleBefore : Pattern := all [
  edge, group 1 decimal, blanks, char '*', blanks, opt (char '('), blanks, group 2 subject]

def fixedMethod : Pattern := all [
  group 1 subject, blanks, opt (char ')'), blanks, lit ".toFixed(", blanks, group 2 digit, blanks,
  char ')']

def formatCall : Pattern := all [
  oneOf "\"'", many (noneOf "\"'\n"), char '%', many (oneOf "-+ 0#"), many digit, char '.',
  group 1 digit, char 'f', many (noneOf "\"'\n"), oneOf "\"'", blanks, lits [",", "%"], blanks,
  opt (char '('), blanks, opt (any [lit "float64(", all [lit "(double)", blanks], lit "float("]),
  group 2 (all [letterOr "_$", many (wordOr "$."), opt (lit "()")])]

def interpolation : Pattern := all [
  char '{', blanks, group 1 (all [letterOr "_", many (wordOr "."), opt (lit "()")]), blanks,
  opt (all [char '/', blanks, decimal, blanks]), char ':', many (noneOf "\x7d\n"), char '.',
  group 2 digit, char 'f', blanks, char '}']

def formatMethod : Pattern := all [
  lit "\x7b:", many (noneOf "\x7d\n"), char '.', group 1 digit, lit "f\x7d",
  many (noneOf "\"'\n"), oneOf "\"'", blanks, lit ".format(", blanks,
  group 2 (all [letterOr "_", many (wordOr "."), opt (lit "()")])]

def caseMethod : Pattern := all [
  group 1 subject, blanks, char '.', blanks,
  group 2 (lits [
    "toLowerCase", "toUpperCase", "toLocaleLowerCase", "toLocaleUpperCase", "lower", "upper"]),
  blanks, char '(']

def caseFunction : Pattern := all [
  edge, lits ["strings.", "str."], group 1 (lits ["ToLower", "ToUpper", "lower", "upper"]),
  char '(', blanks, group 2 subject]

def comparison : Pattern := lits ["===", "!==", "==", "!="]

def comparedWith : Pattern := all [
  group 1 subject, blanks, comparison, blanks, oneOf "\"'", group 2 (many1 (noneOf "\"'\n")),
  oneOf "\"'"]

def comparedFrom : Pattern := all [
  oneOf "\"'", group 1 (many1 (noneOf "\"'\n")), oneOf "\"'", blanks, comparison, blanks,
  group 2 subject]

def equalsMethod : Pattern := all [
  char '"', group 1 (many1 (noneOf "\"\n")), char '"', blanks, char '.', blanks, lit "equals",
  opt (lit "IgnoreCase"), char '(', blanks, group 2 subject, blanks, char ')']

def switchHead : Pattern := all [
  edge, lit "switch", blanks, opt (char '('), blanks, group 1 subject, blanks, opt (char ')'),
  blanks, char '{']

def caseLabel : Pattern := all [
  edge, lit "case", blanks1, oneOf "\"'", group 1 (many1 (noneOf "\"'\n")), oneOf "\"'", blanks,
  oneOf ":,"]

def signatureCheck : Pattern := all [
  edge,
  any [
    lit "createHmac", lit "hmac.new", lit "hmac.New", lit "Mac.getInstance",
    all [lit "HmacSHA", digits], lit "compare_digest", lit "timingSafeEqual", lit "hmac.Equal",
    lit "MessageDigest.isEqual", lit "constructEvent",
    all [litAnyCase "verify", opt (char '_'), litAnyCase "signature"],
    all [litAnyCase "verify", opt (char '_'), litAnyCase "webhook"]],
  edge]

def freshnessCheck : Pattern := any [
  all [edge, litAnyCase "tolerance", many wordChar], lit "time.Since(", lit "time.Now().Sub(",
  lit "Duration.between", lit "ChronoUnit.SECONDS",
  all [edge, lit "max", opt (char '_'), lit "age", edge],
  all [opt (lit "Math."), lit "abs(", many (noneOf ")\n"), lits ["now", "time()", "Date.now"]]]

def hitOf (m : Match) (kind : EvidenceKind) (field : Option String) : Hit :=
  ⟨m.start, kind, field, String.ofList (trim m.whole.text)⟩

/-- A factor counts if it is greater than one. -/
def factor? (text : List Char) : Option Binary64 :=
  (Binary64.ofText? text).filter (Binary64.ofNat 1 < ·)

def digitValue (text : List Char) : Nat :=
  match text with
  | [c] => if isAsciiDigit c then c.toNat - '0'.toNat else 0
  | _ => 0

def transformOf (word : List Char) : CaseTransform :=
  if contains "lower" (word.map fun c => if isAsciiUpper c then Char.ofNat (c.toNat + 32) else c) then
    .lower
  else .upper

def scales (code : List Char) : List Hit :=
  (scaleAfter.findAll code).filterMap (fun m => (factor? (m.text 3)).map fun f =>
    hitOf m (.scale ⟨if m.text 2 == ['*'] then .mul else .div, f⟩) (subjectField? (m.text 1))) ++
  (scaleBefore.findAll code).filterMap (fun m => (factor? (m.text 1)).map fun f =>
    hitOf m (.scale ⟨.mul, f⟩) (subjectField? (m.text 2)))

def rendersBy (p : Pattern) (subjectPart decimalsPart : Nat) (code : List Char) : List Hit :=
  (p.findAll code).map fun m =>
    hitOf m (.render (digitValue (m.text decimalsPart))) (subjectField? (m.text subjectPart))

def casesBy (p : Pattern) (subjectPart wordPart : Nat) (code : List Char) : List Hit :=
  (p.findAll code).map fun m =>
    hitOf m (.case (transformOf (m.text wordPart))) (subjectField? (m.text subjectPart))

def literalsBy (p : Pattern) (subjectPart valuePart : Nat) (code : List Char) : List Hit :=
  (p.findAll code).map fun m =>
    hitOf m (.enumLiteral (m.string valuePart)) (subjectField? (m.text subjectPart))

def switchLabels (s : Source) : List Hit :=
  (switchHead.findAll s.chars).flatMap fun m =>
    let opening := m.stop - 1
    match s.closing? opening with
    | none => []
    | some close => (caseLabel.findAll (s.slice opening close)).map fun label =>
      { hitOf label (.enumLiteral (label.string 1)) (subjectField? (m.text 1)) with
        offset := opening + label.start }

def scan (s : Source) : List Hit :=
  let code := s.chars
  let hits :=
    scales code ++
    rendersBy fixedMethod 1 2 code ++ rendersBy formatCall 2 1 code ++
    rendersBy interpolation 1 2 code ++ rendersBy formatMethod 2 1 code ++
    casesBy caseMethod 1 2 code ++ casesBy caseFunction 2 1 code ++
    literalsBy comparedWith 1 2 code ++ literalsBy comparedFrom 2 1 code ++
    literalsBy equalsMethod 2 1 code ++ switchLabels s ++
    (signatureCheck.findAll code).map (hitOf · .signature none) ++
    (freshnessCheck.findAll code).map (hitOf · .timestampCheck none)
  hits.mergeSort fun a b => a.offset ≤ b.offset

end Concord.Evidence
