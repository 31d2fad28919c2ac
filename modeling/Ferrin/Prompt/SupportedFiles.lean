import Ferrin.Prompt.Download
import Ferrin.Prompt.ToolMessages

/-!
The files of a prompt beside those of the history. Each is resolved at its own
place (`converted_files`); what stays a URL is supported at its place just where
the first place of the URL, which decides on the download, speaks for all of
them (`unsupported_urls_inlined`).
-/
namespace Ferrin.Prompt
open List
open Result (bind_ok mapM_ok)

/-! ### The files of a prompt -/

def user_prompt_file : UserPromptPart → Option FileData
  | .Text _ => none
  | .File file => some file.data

def AssistantPromptPart.as_tool_result : AssistantPromptPart → Option ToolResultPart
  | .ToolResult part => some part
  | _ => none

def ToolPromptPart.as_tool_result : ToolPromptPart → Option ToolResultPart
  | .ToolResult part => some part
  | _ => none

def result_data (results : List ToolResultPart) : List FileData :=
  (results.flatMap ToolResultPart.files).map (·.1)

def prompt_message_files : PromptMessage → List FileData
  | .System _ _ => []
  | .User content _ => content.filterMap user_prompt_file
  | .Assistant content _ => result_data (content.filterMap AssistantPromptPart.as_tool_result)
  | .Tool content _ => result_data (content.filterMap ToolPromptPart.as_tool_result)

/-- The files of users and results, in order. -/
def prompt_files (prompt : Prompt) : List FileData := prompt.flatMap prompt_message_files

/-- What a place of the history becomes. -/
def Resolves (parsers : FileParsers) (downloaded : DownloadCache) (file : FileSource × MediaType) (data : FileData) : Prop :=
  ∃ media_type, resolve_source parsers downloaded file.1 = .ok (data,media_type)

section
variable {parsers : FileParsers} {downloaded : DownloadCache}

theorem result_file_resolves {data done : FileData} {media_type type : MediaType}
    (given : convert_result_file parsers downloaded data media_type = .ok (done,type)) :
    Resolves parsers downloaded (.from_data data,media_type) done := by
  unfold convert_result_file at given
  cases data with
  | Url url =>
    simp only [Resolves,FileSource.from_data,resolve_source]
    dsimp only at given
    by_cases isData : parsers.is_data_url url = true
    · rw [if_pos isData] at given ⊢
      cases parsed : parsers.parse_data_url url with
      | error => rw [parsed] at given; cases given
      | ok => rw [parsed] at given; cases given; exact ⟨_,rfl⟩
    · rw [if_neg isData] at given ⊢
      cases found : downloaded.lookup url with
      | none => rw [found] at given; cases given; exact ⟨_,rfl⟩
      | some => rw [found] at given; cases given; exact ⟨_,rfl⟩
  | _ => cases given; exact ⟨_,rfl⟩

theorem result_resolves {result done : ToolResultPart}
    (given : convert_result (fileContext parsers downloaded) result = .ok done) :
    List.Forall₂ (Resolves parsers downloaded) ((ToolResultPart.files result).map fun file => (.from_data file.1,file.2))
      ((ToolResultPart.files done).map (·.1)) := by
  obtain ⟨_,converted,last⟩ := bind_ok.mp given
  cases last
  obtain ⟨_,_,outputOf,_⟩ := result
  cases outputOf with
  | Content value =>
    obtain ⟨values,traversed,rfl⟩ := Result.map_ok.mp converted
    have each := mapM_ok.mp traversed
    clear given converted traversed
    simp only [ToolResultPart.files]
    induction each with
    | nil => exact .nil
    | @cons part done value values first _ ih =>
      cases part with
      | File =>
        obtain ⟨⟨_,_⟩,resolved,last⟩ := bind_ok.mp first
        cases last
        exact .cons (result_file_resolves resolved) ih
      | _ => cases first; exact ih
  | _ => cases converted; exact .nil

theorem results_resolve {results done : List ToolResultPart}
    (each : List.Forall₂ (fun result done => convert_result (fileContext parsers downloaded) result = .ok done) results done) :
    List.Forall₂ (Resolves parsers downloaded)
      ((results.flatMap ToolResultPart.files).map fun file => (.from_data file.1,file.2)) (result_data done) := by
  induction each with
  | nil => exact .nil
  | cons first _ ih =>
    simp only [result_data,flatMap_cons,map_append] at ih ⊢
    exact rel_append (result_resolves first) ih

theorem user_part_resolves {part : UserPart} {done : UserPromptPart}
    (given : convert_user_part parsers downloaded part = .ok done) :
    Option.Rel (Resolves parsers downloaded) (user_file part) (user_prompt_file done) := by
  cases part with
  | Text => cases given; exact .none
  | Image image | File file =>
    obtain ⟨⟨_,type⟩,resolved,last⟩ := bind_ok.mp given
    cases last
    exact .some ⟨type,resolved⟩

theorem assistant_part_result {original : Message} {part : AssistantPart} {done : Option AssistantPromptPart}
    (given : convert_assistant_part (fileContext parsers downloaded) original part = .ok done) :
    Option.Rel (fun result done => convert_result (fileContext parsers downloaded) result = .ok done)
      (AssistantPart.as_tool_result part) (done.bind AssistantPromptPart.as_tool_result) := by
  cases part with
  | ToolResult =>
    obtain ⟨_,converted,last⟩ := bind_ok.mp given
    cases last
    exact .some converted
  | Text =>
    cases given
    split_ifs <;> exact .none
  | File =>
    obtain ⟨_,_,last⟩ := bind_ok.mp given
    cases last
    exact .none
  | ReasoningFile =>
    obtain ⟨⟨data,_⟩,_,last⟩ := bind_ok.mp given
    cases data <;> cases last <;> exact .none
  | _ => cases given; exact .none

theorem tool_part_result {part : ToolPart} {done : Option ToolPromptPart}
    (given : convert_tool_part (fileContext parsers downloaded) part = .ok done) :
    Option.Rel (fun result done => convert_result (fileContext parsers downloaded) result = .ok done) part.as_tool_result
      (done.bind ToolPromptPart.as_tool_result) := by
  cases part with
  | ToolResult =>
    obtain ⟨_,converted,last⟩ := bind_ok.mp given
    cases last
    exact .some converted
  | ToolApprovalResponse =>
    cases given
    split_ifs <;> exact .none

theorem message_resolves {message : Message} {done : PromptMessage}
    (given : convert_message (fileContext parsers downloaded) message = .ok done) :
    List.Forall₂ (Resolves parsers downloaded) (message_files message) (prompt_message_files done) := by
  cases message with
  | System => cases given; exact .nil
  | User content =>
    cases content with
    | Text => cases given; exact .nil
    | Parts parts =>
      obtain ⟨kept,each,last⟩ := bind_ok.mp given
      cases last
      have resolved := rel_filterMap (fun _ _ first => user_part_resolves first) (mapM_ok.mp each)
      rw [filterMap_filter] at resolved
      -- Only a text is dropped, which is no file.
      refine Eq.mp (congrArg (List.Forall₂ _ · _) (filterMap_congr fun part _ => ?_)) resolved
      cases part <;> simp [user_file]
  | Assistant content =>
    cases content with
    | Text => cases given; exact .nil
    | Parts =>
      obtain ⟨converted,each,last⟩ := bind_ok.mp given
      cases last
      refine results_resolve ?_
      rw [filterMap_filterMap]
      exact rel_filterMap (fun _ _ first => assistant_part_result first) (mapM_ok.mp each)
  | Tool =>
    obtain ⟨_,each,last⟩ := bind_ok.mp given
    cases last
    refine results_resolve ?_
    rw [filterMap_filterMap]
    exact rel_filterMap (fun _ _ first => tool_part_result first) (mapM_ok.mp each)

theorem files_attached (options : ProviderOptions) (part : ToolPromptPart) :
    ((ToolPromptPart.as_tool_result (attach_options (fileContext parsers downloaded) options part)).toList.flatMap
      ToolResultPart.files) = (ToolPromptPart.as_tool_result part).toList.flatMap ToolResultPart.files := by
  cases part <;> rfl

theorem tool_files (content : List ToolPromptPart) (options : Option ProviderOptions) :
    prompt_message_files (.Tool content options) = (content.flatMap fun part =>
      (ToolPromptPart.as_tool_result part).toList.flatMap ToolResultPart.files).map (·.1) := by
  rw [prompt_message_files,result_data,filterMap_eq_flatMap_toList,flatMap_assoc]

theorem prompt_files_append (first second : Prompt) :
    prompt_files (first ++ second) = prompt_files first ++ prompt_files second := List.flatMap_append

theorem files_append_message (prompt : Prompt) (message : PromptMessage) :
    prompt_files (append_message (fileContext parsers downloaded) prompt message) =
      prompt_files prompt ++ prompt_message_files message := by
  have plain : prompt_files (prompt ++ [message]) = prompt_files prompt ++ prompt_message_files message := by
    simp [prompt_files]
  by_cases tools : is_tool message = true ∧ ∃ last ∈ prompt.getLast?, is_tool last = true
  · obtain ⟨isTool,last,here,tool⟩ := tools
    obtain ⟨before,rfl⟩ : ∃ before, prompt = before ++ [last] := ⟨prompt.dropLast,(dropLast_append_getLast? _ here).symm⟩
    cases last <;> cases message <;> simp [is_tool] at tool isTool
    rename_i previous options content later
    rw [append_tools,prompt_files_append,prompt_files_append,append_assoc]
    congr 1
    simp only [prompt_files,flatMap_singleton,tool_files,flatMap_append,map_append]
    congr 2
    rcases eq_nil_or_concat previous with rfl | ⟨_,_,rfl⟩
    · rfl
    · rw [concat_eq_append,push_last_concat]
      cases options with
      | none => rfl
      | some => simp only [flatMap_append,flatMap_singleton,push,files_attached]
  · rw [append_apart,plain]
    by_cases isTool : is_tool message = true
    · exact .inr fun last here => by simpa using fun tool => tools ⟨isTool,last,here,tool⟩
    · exact .inl (by simpa using isTool)

theorem files_folded (converted : Prompt) : ∀ prompt : Prompt,
    prompt_files (converted.foldl (append_message (fileContext parsers downloaded)) prompt) =
      prompt_files prompt ++ prompt_files converted := by
  induction converted with
  | nil => intro prompt; simp [prompt_files]
  | cons _ _ ih =>
    intro prompt
    rw [foldl_cons,ih,files_append_message,append_assoc]
    simp [prompt_files]

theorem files_filtered (prompt : Prompt) : prompt_files (prompt.filter (!is_empty_tool ·)) = prompt_files prompt := by
  induction prompt with
  | nil => rfl
  | cons message _ ih =>
    rw [filter_cons]
    split_ifs with filled
    · simp only [prompt_files,flatMap_cons] at ih ⊢
      rw [ih]
    · cases message with
      | Tool content =>
        cases content with
        | nil => simpa [prompt_files,prompt_message_files,result_data] using ih
        | cons => simp [is_empty_tool] at filled
      | _ => simp [is_empty_tool] at filled

theorem converted_files {system : List (String × Option ProviderOptions)} {messages : List Message} {prompt : Prompt}
    (accepted : convert_to_prompt (fileContext parsers downloaded) (system.map fun message => .System message.1 message.2)
      messages = .ok prompt) : List.Forall₂ (Resolves parsers downloaded) (files messages) (prompt_files prompt) := by
  obtain ⟨_,converts,checked⟩ := bind_ok.mp accepted
  obtain ⟨_,_,filtered⟩ := bind_ok.mp checked
  cases filtered
  obtain ⟨_,each,folded⟩ := bind_ok.mp converts
  cases folded
  have silent : prompt_files (system.map fun message => .System message.1 message.2) = [] := by
    simp [prompt_files,prompt_message_files,flatMap_map]
  rw [files_filtered,files_folded,silent,nil_append]
  have each := mapM_ok.mp each
  clear * - each
  induction each with
  | nil => exact .nil
  | cons first _ ih =>
    simp only [files,prompt_files,flatMap_cons] at ih ⊢
    exact rel_append (message_resolves first) ih

end

inductive Filled (ρ : Type) (parsers : FileParsers) (fetches : Nat → String → Except Error DownloadedFile) :
    Option DownloadCache → Prop where
  | empty : Filled ρ parsers fetches (some [])
  | absent : Filled ρ parsers fetches none
  | step {cache cache' : Option DownloadCache} {downloaded : DownloadCache} (supported : SupportedUrls ρ) (time : Nat)
      (order : List Nat) (messages : List Message) (before : Filled ρ parsers fetches cache)
      (ran : download_files parsers supported (fetches time) order cache messages = some (.ok (downloaded,cache'))) :
      Filled ρ parsers fetches cache'

/-- A URL that is left is supported for the type declared at its place, and a file in its place was downloaded for it. -/
def Served {ρ : Type} (parsers : FileParsers) (supported : SupportedUrls ρ)
    (fetches : Nat → String → Except Error DownloadedFile) (file : FileSource × MediaType) (data : FileData) : Prop :=
  match file.1 with
  | .Url url =>
    if parsers.is_data_url url then ∃ bytes, data = .Bytes bytes
    else data = .Url url ∧ supported.supports file.2 url = true ∨
      ∃ time inlined, fetches time url = .ok inlined ∧ data = .Bytes inlined.data
  | _ => ∀ url, data ≠ .Url url

def FirstSpeaks {ρ : Type} (parsers : FileParsers) (supported : SupportedUrls ρ) (cache : Option DownloadCache)
    (messages : List Message) : Prop :=
  ∀ url first media_type, (targets messages).lookup url = some first → (url,media_type) ∈ targets messages →
    parsers.is_data_url url = false → (cache.getD []).lookup url = none → supported.supports first url = true →
    supported.supports media_type url = true

section
variable {ρ : Type} {parsers : FileParsers} {supported : SupportedUrls ρ}
  {fetches : Nat → String → Except Error DownloadedFile} {downloaded : DownloadCache}

theorem Filled.fetched {cache : Option DownloadCache} (filled : Filled ρ parsers fetches cache) :
    ∀ entry ∈ cache.getD [], ∃ time, fetches time entry.1 = .ok entry.2 := by
  induction filled with
  | empty => intro entry mem; cases mem
  | absent => intro entry mem; cases mem
  | step _ time _ _ _ ran ih =>
    intro entry mem
    rcases (download_files_spec ran).2.1 entry mem with before | now
    · exact ih entry before
    · exact ⟨time,now⟩

theorem served_iff (fetched : ∀ entry ∈ downloaded, ∃ time, fetches time entry.1 = .ok entry.2)
    {file : FileSource × MediaType} {data : FileData} (resolves : Resolves parsers downloaded file data) :
    Served parsers supported fetches file data ↔ ∀ url, as_url file.1 = some url → parsers.is_data_url url = false →
      downloaded.lookup url = none → supported.supports file.2 url = true := by
  obtain ⟨source,_⟩ := file
  obtain ⟨_,resolves⟩ := resolves
  cases source with
  | Url url =>
    dsimp only [resolve_source] at resolves
    simp only [Served,as_url,Option.some.injEq,forall_eq']
    by_cases isData : parsers.is_data_url url = true
    · rw [if_pos isData] at resolves ⊢
      refine iff_of_true ?_ (by simp [isData])
      cases parsed : parsers.parse_data_url url with
      | error => rw [parsed] at resolves; cases resolves
      | ok => rw [parsed] at resolves; cases resolves; exact ⟨_,rfl⟩
    · rw [if_neg isData] at resolves ⊢
      cases found : downloaded.lookup url with
      | none =>
        rw [found] at resolves
        cases resolves
        simp [isData]
      | some file =>
        rw [found] at resolves
        cases resolves
        obtain ⟨time,got⟩ := fetched _ (Assoc.mem_of_lookup found)
        exact iff_of_true (.inr ⟨time,file,got,rfl⟩) (by simp)
  | Base64 text =>
    dsimp only [resolve_source] at resolves
    cases decoded : parsers.decode_base64 text with
    | error => rw [decoded] at resolves; cases resolves
    | ok => rw [decoded] at resolves; cases resolves; simp [Served,as_url]
  | Path path =>
    dsimp only [resolve_source] at resolves
    cases read : parsers.read path with
    | none => rw [read] at resolves; cases resolves
    | some => rw [read] at resolves; cases resolves; simp [Served,as_url]
  | _ => cases resolves; simp [Served,as_url]

theorem forall₂_iff {α β : Type} {R S : α → β → Prop} {P : α → Prop} (same : ∀ a b, R a b → (S a b ↔ P a)) {l : List α}
    {m : List β} (each : List.Forall₂ R l m) : List.Forall₂ S l m ↔ ∀ a ∈ l, P a := by
  induction each with
  | nil => simp
  | cons first _ ih => rw [forall₂_cons,forall_mem_cons,same _ _ first,ih]

end

/-- For every cache that conversions filled, every table and every order in which the downloads end: the files of the prompt
    are served at their places just where the first place of each URL speaks for all of them. -/
theorem unsupported_urls_inlined {ρ : Type} (parsers : FileParsers) (supported : SupportedUrls ρ)
    (fetches : Nat → String → Except Error DownloadedFile) (time : Nat) (order : List Nat) (cache : Option DownloadCache)
    (filled : Filled ρ parsers fetches cache) (system : List (String × Option ProviderOptions)) (messages : List Message)
    {prompt : Prompt} {cache' : Option DownloadCache}
    (accepted : convert_to_prompt_with parsers supported (fetches time) order cache
      (system.map fun message => .System message.1 message.2) messages = some (.ok (prompt,cache'))) :
    List.Forall₂ (Served parsers supported fetches) (files messages) (prompt_files prompt) ↔
      FirstSpeaks parsers supported cache messages := by
  obtain ⟨downloads,ran,bound⟩ := Option.map_eq_some_iff.mp accepted
  obtain ⟨⟨downloaded,_⟩,rfl,rest⟩ := bind_ok.mp bound
  obtain ⟨_,converted,last⟩ := bind_ok.mp rest
  cases last
  obtain ⟨own,_,left_out⟩ := download_files_spec ran
  have fetched : ∀ entry ∈ downloaded, ∃ time, fetches time entry.1 = .ok entry.2 := by
    intro entry member
    rcases own entry member with before | now
    · exact filled.fetched entry before
    · exact ⟨time,now⟩
  rw [forall₂_iff (fun file data resolves => @served_iff ρ parsers supported fetches downloaded fetched file data resolves)
    (converted_files converted)]
  have target {url : String} {media_type : MediaType} :
      (url,media_type) ∈ targets messages ↔ ∃ file ∈ files messages, as_url file.1 = some url ∧ file.2 = media_type := by
    simp only [targets,mem_filterMap,Option.map_eq_some_iff,Prod.mk.injEq]
    constructor
    · rintro ⟨file,member,_,named,rfl,same⟩
      exact ⟨file,member,named,same⟩
    · rintro ⟨file,member,named,same⟩
      exact ⟨file,member,url,named,rfl,same⟩
  constructor
  · intro served url first media_type found member plain absent supported_
    obtain ⟨file,place,named,rfl⟩ := target.mp member
    exact served file place url named plain ((left_out url first found plain).mpr ⟨absent,supported_⟩)
  · intro speaks file place url named plain absent
    have member := target.mpr ⟨file,place,named,rfl⟩
    obtain ⟨first,found⟩ := Option.isSome_iff_exists.mp (Assoc.lookup_isSome_of_mem member)
    obtain ⟨uncached,supported_⟩ := (left_out url first found plain).mp absent
    exact speaks url first file.2 found member plain uncached supported_

/-- A model that takes every image URL and no other one, and downloads that all succeed. -/
def noFiles : FileParsers where
  is_data_url := fun _ => false
  parse_data_url := fun _ => .error "not a data URL"
  decode_base64 := fun _ => .error "not base64"
  read := fun _ => none

def images : SupportedUrls Unit := ⟨[("image/*",[()])],fun _ _ => true⟩

def always (_ : Nat) (_ : String) : Except Error DownloadedFile := .ok ⟨[37],none⟩

def picture (media_type : MediaType) : UserPart := .Image ⟨.Url "https://a.test/x",some media_type,none⟩

def sharedUrl : List Message := [.User (.Parts [picture "image/png",
  .File ⟨.Url "https://a.test/x","application/pdf",none,none⟩]) none]

theorem unsupported_urls_inlined_image : ∃ prompt cache', convert_to_prompt_with noFiles images (always 0) [] (some [])
      ([].map fun message : String × Option ProviderOptions => .System message.1 message.2)
      [.User (.Parts [picture "image/png"]) none] = some (.ok (prompt,cache')) ∧
    (List.Forall₂ (Served noFiles images always) (files [.User (.Parts [picture "image/png"]) none]) (prompt_files prompt) ↔
      FirstSpeaks noFiles images (some []) [.User (.Parts [picture "image/png"]) none]) :=
  ⟨_,_,rfl,unsupported_urls_inlined noFiles images always 0 [] (some []) .empty [] _ rfl⟩

/-- The URL is not downloaded, as the model takes it as an image, and it reaches the model as a document too. -/
theorem unsupported_url_left : ∃ prompt cache', convert_to_prompt_with noFiles images (always 0) [] (some []) [] sharedUrl =
      some (.ok (prompt,cache')) ∧
    ¬ List.Forall₂ (Served noFiles images always) (files sharedUrl) (prompt_files prompt) := by
  refine ⟨_,_,rfl,fun served => ?_⟩
  obtain - | ⟨-,rest⟩ := served
  obtain - | ⟨second,-⟩ := rest
  rcases second with ⟨-,supported⟩ | ⟨_,_,_,inlined⟩
  · exact absurd supported (by decide)
  · cases inlined

end Ferrin.Prompt
