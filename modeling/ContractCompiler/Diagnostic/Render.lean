import ContractCompiler.Diagnostic.Message
import ContractCompiler.Json.Printer

/-!
# Listings of diagnostics

- `Diagnostic.render`: a finding as text, with the source line it points at;
- `Bag.toJson`: all findings as one array of objects, `Bag.renderJson` its compact text.
-/

namespace ContractCompiler

/-- The place of a span, followed by the source line with the span underlined if there is a text. -/
def Sources.describe (sources : Sources) (span : Span) : String :=
  let pos := sources.lineCol span.file span.lo
  let head := s!" --> {sources.name span.file}:{pos.line}:{pos.col}\n"
  let snip := sources.snippet span
  if snip.line = 0 then head
  else
    let indent := String.ofList (List.replicate snip.before.toNat ' ')
    let carets := String.ofList (List.replicate snip.length.toNat '^')
    head ++ "  |\n" ++ s!"{snip.line} | {snip.text}\n" ++ s!"  | {indent}{carets}\n"

/-- The heading of the second place of a finding. -/
def relatedHeading : Language → String
  | .english => "previous access here"
  | .korean => "이전 접근 위치"

/-- A finding as text. -/
def Diagnostic.render (d : Diagnostic) (lang : Language) (sources : Sources) : String :=
  let head := s!"{d.severity.name}[{d.cause.code}]: {d.message lang}\n" ++ sources.describe d.span
  match d.related with
  | none => head
  | some span => head ++ s!"note: {relatedHeading lang}\n" ++ sources.describe span

/-- A finding as an object. -/
def Diagnostic.toJson (d : Diagnostic) (lang : Language) (sources : Sources) : Json :=
  let pos := sources.lineCol d.span.file d.span.lo
  let related := match d.related with
    | none => []
    | some span =>
      let at_ := sources.lineCol span.file span.lo
      [("related", Json.ofFields [("line", .nat at_.line.toNat), ("col", .nat at_.col.toNat)])]
  Json.ofFields <|
    [("severity", .string d.severity.name),
     ("code", .string d.cause.code),
     ("message", .string (d.message lang)),
     ("file", .string (sources.name d.span.file)),
     ("line", .nat pos.line.toNat),
     ("col", .nat pos.col.toNat),
     ("lo", .nat d.span.lo.toNat),
     ("hi", .nat d.span.hi.toNat)] ++ related

/-- All findings as one array. -/
def Bag.toJson (b : Bag) (lang : Language) (sources : Sources) : Json :=
  .array (b.diags.toList.map (·.toJson lang sources))

/-- The compact text of all findings. -/
def Bag.renderJson (b : Bag) (lang : Language) (sources : Sources) : String :=
  (b.toJson lang sources).compact

end ContractCompiler
