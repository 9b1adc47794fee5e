import FormatServer.Json.Printer
import FormatServer.Text.Codec
import FormatServer.Engine.Hosted
import FormatServer.Proofs.Json.Comments
import FormatServer.Proofs.Manifest.Sorting
import FormatServer.Proofs.Path.Uris
import FormatServer.Proofs.Ignore.Decisions
import FormatServer.Proofs.Service.Requests
import FormatServer.Proofs.Service.FinalNewline
import FormatServer.Proofs.Service.Watching
import FormatServer.Proofs.Service.Workspaces
import FormatServer.Proofs.Service.Replacements
import FormatServer.Proofs.Service.Leases
import FormatServer.Proofs.Engine.Waiting
import FormatServer.Proofs.Engine.Nesting
import FormatServer.Proofs.Text.Lines
import FormatServer.Proofs.Text.LineEnds
import FormatServer.Proofs.Json.Pieces
import FormatServer.Proofs.Json.Stripping
import FormatServer.Proofs.Manifest.Arrangement
import FormatServer.Proofs.Manifest.Canonical
import FormatServer.Proofs.Ignore.Literal
import FormatServer.Proofs.Ignore.Contents
import FormatServer.Proofs.Config.Forwarding
import FormatServer.Proofs.Text.Columns
import FormatServer.Proofs.Manifest.Hooks
import FormatServer.Proofs.Routing.Plugins
