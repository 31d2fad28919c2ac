import Ferrin.Anthropic.MessageContract
import Ferrin.Anthropic.TypedInput
import Ferrin.Approval.Pruning
import Ferrin.Embed
import Ferrin.GenerateText.ReplaySafety
import Ferrin.Google.Interactions.Agreement
import Ferrin.Google.Interactions.Background
import Ferrin.Google.Interactions.Contract
import Ferrin.Google.Interactions.Input
import Ferrin.Google.SchemaMeaning
import Ferrin.Google.StreamedArguments
import Ferrin.Google.StreamedContent
import Ferrin.Http.MultipartReading
import Ferrin.Mcp.Correlation
import Ferrin.Mcp.OAuth.Binding
import Ferrin.Mcp.OAuth.Challenge
import Ferrin.Mcp.Transport.HeaderBindings
import Ferrin.Mcp.Transport.Http
import Ferrin.MediaType.Base64
import Ferrin.Middleware.JsonStream
import Ferrin.Middleware.ReasoningAgreement
import Ferrin.Middleware.SimulateStreaming
import Ferrin.Middleware.ToolRestrictions
import Ferrin.ModalityMetadata
import Ferrin.OpenAi.ChatContract
import Ferrin.OpenAi.JsonSchema
import Ferrin.OpenAi.Responses.Parallel
import Ferrin.OpenAi.Responses.ToolInput
import Ferrin.OpenAiCompatible.ChatContract
import Ferrin.OpenAiCompatible.ToolAssembly
import Ferrin.Output.Relocation
import Ferrin.Prompt.MissingResults
import Ferrin.Prompt.PrepareTools
import Ferrin.Prompt.SupportedFiles
import Ferrin.Realtime.Connection
import Ferrin.Realtime.FollowUp
import Ferrin.Schema.PartialJson
import Ferrin.Schema.StrictForm
import Ferrin.Stream.EarlyError
import Ferrin.Stream.Rounds
import Ferrin.StreamText.Accounting
import Ferrin.StreamText.ExecuteTools
import Ferrin.StreamText.PartIds
import Ferrin.StreamText.Permission
import Ferrin.StreamText.Smooth
import Ferrin.StreamText.Tee
import Ferrin.Telemetry.Redact
import Ferrin.Tool.Callers
