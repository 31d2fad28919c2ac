import Ferrin.Anthropic.Message

/-!
The content of a complete message, block by block.
-/
namespace Ferrin.Anthropic

def CONTAINER_UPLOAD_KIND : String := "anthropic.container_upload"

def object (value : JsonValue) : JsonObject := value.as_object.getD []

def isWebCitation (citation : JsonValue) : Bool :=
  (citation.get "type").bind JsonValue.as_str = some "web_search_result_location"

def citationsMetadata (citations : List JsonValue) : Option ProviderMetadata :=
  if citations = [] then none else some (anthropic_metadata [("citations",.array citations)])

namespace OutputMapper

def cite (config : Config) : OutputMapper → List JsonValue → OutputMapper × List Source
  | m,[] => (m,[])
  | m,citation :: rest =>
    let (m,source) := m.citation_source config citation
    let (m,sources) := cite config m rest
    (m,source.toList ++ sources)

/-- The provider tool of a `server_tool_use` and its input. -/
def providerTool (name : String) (input : JsonValue) : Option (String × JsonValue) :=
  match name with
  | "text_editor_code_execution" | "bash_code_execution" =>
    some ("code_execution",.object (JsonObject.extend [("type",.string name)] (object input)))
  | "code_execution" => some ("code_execution",programmatic_tool_call input)
  | "web_search" | "web_fetch" | "tool_search_tool_regex" | "tool_search_tool_bm25" => some (name,input)
  | "advisor" => some ("advisor",input)
  | _ => none

def remembering (m : OutputMapper) (id name : String) : OutputMapper :=
  if name = "tool_search_tool_regex" || name = "tool_search_tool_bm25" then m.remember_tool_search id name else m

/-- Maps a `server_tool_use` block to a provider-executed tool call. -/
def server_tool_use (m : OutputMapper) (config : Config) (id name : String) (input : Option JsonValue)
    (caller : Option Caller) : OutputMapper × Option ToolCall :=
  match providerTool name (input.getD (.object [])) with
  | none => (m,none)
  | some (provider_name,input) =>
    (m.remembering id name,some ⟨id,m.custom_name provider_name,config.to_string input,true,m.is_dynamic provider_name,
      caller_metadata caller⟩)

def map_block (m : OutputMapper) (config : Config) (block : ContentBlock) : OutputMapper × List Content :=
  match block with
  | .Text text citations =>
    if m.uses_json_response_tool then (m,[])
    else
      let citations := citations.getD []
      let (m,sources) := m.cite config citations
      (m,.Text text (citationsMetadata (citations.filter isWebCitation)) :: sources.map .Source)
  | .Thinking thinking signature => (m,[.Reasoning thinking (some (anthropic_metadata (given "signature" signature)))])
  | .RedactedThinking data => (m,[.Reasoning "" (some (anthropic_metadata [("redactedData",.string data)]))])
  | .ContainerUpload file_id =>
    (m,[.Custom CONTAINER_UPLOAD_KIND (some (anthropic_metadata [("fileId",.string file_id)]))])
  | .Compaction content => (m,[.Text (content.getD "") (some (anthropic_metadata [("type",.string "compaction")]))])
  | .ToolUse id name input caller =>
    let input := input.getD (.object [])
    if m.uses_json_response_tool && name = "json" then
      ({ m with json_response_from_tool := true },[.Text (config.to_string input) none])
    else (m,[.ToolCall ⟨id,m.custom_name name,config.to_string input,false,false,caller_metadata caller⟩])
  | .ServerToolUse id name input caller =>
    let (m,call) := m.server_tool_use config id name input caller
    (m,(call.map Content.ToolCall).toList)
  | .McpToolUse id name input server_name =>
    let (m,call) := m.mcp_tool_use config id name input server_name
    (m,[.ToolCall call])
  | other =>
    let (m,content) := m.map_result_block config other
    (m,content.getD [])

def map_blocks (config : Config) : OutputMapper → List ContentBlock → OutputMapper × List Content
  | m,[] => (m,[])
  | m,block :: rest =>
    let (m,first) := m.map_block config block
    let (m,others) := map_blocks config m rest
    (m,first ++ others)

end OutputMapper
end Ferrin.Anthropic
