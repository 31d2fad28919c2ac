import Ferrin.MediaType
import Ferrin.Middleware.MergeOptions
import Ferrin.Prompt.Convert

/-!
The files of a conversion: where their data comes from, and what their bytes
tell about their type.
-/
namespace Ferrin.Prompt

structure FileParsers where
  is_data_url : String → Bool
  parse_data_url : String → Except String (List UInt8 × MediaType)
  decode_base64 : String → Except String (List UInt8)
  read : String → Option (List UInt8)

structure DownloadedFile where
  data : List UInt8
  media_type : Option MediaType

/-- `FileData::try_from`, without reading paths. -/
def try_from (parsers : FileParsers) : FileSource → Except String FileData
  | .Bytes data => .ok (.Bytes data)
  | .Base64 data => (parsers.decode_base64 data).map .Bytes
  | .Url url => .ok (.Url url)
  | .Reference reference => .ok (.Reference reference)
  | .Text text => .ok (.Text text)
  | .Path path => .error ("file source path `" ++ path ++ "` must be read before conversion")

def file_data (parsers : FileParsers) (source : FileSource) (original : Message) : Except Error (FileData × Option MediaType) :=
  let given := match try_from parsers source with
    | .ok data => .ok (data,none)
    | .error message => .error (.MessageConversion message original)
  match source with
  | .Url url =>
    if parsers.is_data_url url then
      match parsers.parse_data_url url with
      | .ok (data,media_type) => .ok (.Bytes data,some media_type)
      | .error message => .error (.InvalidDataContent message)
    else given
  | _ => given

def convert_result_file (parsers : FileParsers) (downloaded : List (String × DownloadedFile)) (data : FileData)
    (media_type : MediaType) : Except Error (FileData × MediaType) := do
  let (data,media_type) ← match data with
    | .Url url =>
      if parsers.is_data_url url then
        match parsers.parse_data_url url with
        | .ok (data,media_type) => .ok (FileData.Bytes data,media_type)
        | .error message => .error (.InvalidDataContent message)
      else
        match downloaded.lookup url with
        | some file => .ok (.Bytes file.data,
            if MediaType.is_full media_type then media_type else file.media_type.getD media_type)
        | none => .ok (data,media_type)
    | data => .ok (data,media_type)
  match data with
  | .Bytes bytes => return (data,(detect_media_type_for bytes "image").getD media_type)
  | data => return (data,media_type)

def convert_result_part (parsers : FileParsers) (downloaded : List (String × DownloadedFile)) :
    ToolResultContentPart → Except Error ToolResultContentPart
  | .File data media_type filename provider_options => do
    let (data,media_type) ← convert_result_file parsers downloaded data media_type
    return .File data media_type filename provider_options
  | part => .ok part

def convert_output (parsers : FileParsers) (downloaded : List (String × DownloadedFile)) :
    ToolResultOutput → Except Error ToolResultOutput
  | .Content value => (value.mapM (convert_result_part parsers downloaded)).map .Content
  | output => .ok output

def resolve_source (parsers : FileParsers) (downloaded : List (String × DownloadedFile)) :
    FileSource → Except Error (FileData × Option MediaType)
  | .Bytes data => .ok (.Bytes data,none)
  | .Base64 data =>
    match parsers.decode_base64 data with
    | .ok bytes => .ok (.Bytes bytes,none)
    | .error message => .error (.InvalidDataContent message)
  | .Url url =>
    if parsers.is_data_url url then
      match parsers.parse_data_url url with
      | .ok (data,media_type) => .ok (.Bytes data,some media_type)
      | .error message => .error (.InvalidDataContent message)
    else
      match downloaded.lookup url with
      | some file => .ok (.Bytes file.data,file.media_type)
      | none => .ok (.Url url,none)
  | .Reference reference => .ok (.Reference reference,none)
  | .Text text => .ok (.Text text,none)
  | .Path path =>
    match parsers.read path with
    | some bytes => .ok (.Bytes bytes,none)
    | none => .error (.InvalidDataContent ("failed to read file `" ++ path ++ "`"))

def resolved_media_type (parsers : FileParsers) (source : FileSource) (declared resolved : Option MediaType) :
    Option MediaType :=
  match source with
  | .Url url =>
    if parsers.is_data_url url = false ∧ declared.any MediaType.is_full then declared else resolved.or declared
  | _ => resolved.or declared

def detected (data : FileData) : Option MediaType :=
  match data with
  | .Bytes bytes => detect_media_type_for bytes "image"
  | _ => none

def convert_user_part (parsers : FileParsers) (downloaded : List (String × DownloadedFile)) :
    UserPart → Except Error UserPromptPart
  | .Text part => .ok (.Text part)
  | .Image image => do
    let (data,media_type) ← resolve_source parsers downloaded image.image
    let media_type := (detected data).or (resolved_media_type parsers image.image image.media_type media_type)
    return .File ⟨data,media_type.getD "image/*",none,image.provider_options⟩
  | .File file => do
    let (data,media_type) ← resolve_source parsers downloaded file.data
    let media_type := (detected data).or (resolved_media_type parsers file.data (some file.media_type) media_type)
    return .File ⟨data,media_type.getD file.media_type,file.filename,file.provider_options⟩

def fileContext (parsers : FileParsers) (downloaded : List (String × DownloadedFile)) : ConvertContext where
  convert_user_part := convert_user_part parsers downloaded
  file_data := file_data parsers
  convert_output := convert_output parsers downloaded
  merge_provider_options

end Ferrin.Prompt
