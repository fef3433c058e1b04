import BindingIdl.Diagnostic
import BindingIdl.Json

/-!
# Documents of diagnostics

Records leave out where in the text a diagnostic points; the full document has the labels, each as
its text, offset and length.
-/

namespace BindingIdl

def DiagnosticRecord.toJson (r : DiagnosticRecord) : Json :=
  .object [("kind", .text r.kind.tag), ("message", .text r.message), ("line", .number r.line),
    ("symbol", .ofOption .text r.symbol)]

def Report.recordsJson (r : Report) : Json := .ofList DiagnosticRecord.toJson r.records

def Diagnostic.toJson (d : Diagnostic) : Json :=
  let label (entry : String × Extent) : Json :=
    .array [.text entry.1, .number entry.2.offset, .number entry.2.length]
  .object [("code", .text d.cause.code), ("help", .ofOption .text d.cause.help),
    ("kind", .text d.kind.tag), ("labels", .ofList label d.labels), ("line", .number d.line),
    ("message", .text d.message), ("symbol", .ofOption .text d.cause.symbol)]

end BindingIdl
