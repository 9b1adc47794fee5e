import FormatServer.Config.NativeOptions
import FormatServer.Engine.External
import FormatServer.Routing.ScriptKind

namespace FormatServer

/-- What parsing a script gives. A script with errors is not formatted. -/
structure ParseOutcome (π : Type) where
  program : Option π
  errors : List Bytes

/-- The native engine over programs of a type. Embedded code stays as it is where `format` is given
no formatter for it. -/
structure NativeEngine (σ π : Type) where
  parse : (source : Bytes) → ScriptKind → Session σ (ParseOutcome π)
  format : π → NativeOptions → Option (TaggedFormatter σ) → Session σ Bytes

end FormatServer
